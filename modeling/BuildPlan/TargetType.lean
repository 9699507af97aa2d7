/-!
# BuildPlan.TargetType

The kinds of target a project can declare.
-/

namespace BuildPlan

/-- What a target produces. -/
inductive TargetType
  | staticLibrary
  /-- A library linked at run time. -/
  | sharedLibrary
  | program
  /-- Requirements for others and nothing else. -/
  | interface
  /-- Compiled objects that are not linked. -/
  | object
  | install
  deriving DecidableEq, Repr

namespace TargetType

def name : TargetType → String
  | staticLibrary => "static_library"
  | sharedLibrary => "shared_library"
  | program => "program"
  | interface => "interface"
  | object => "object"
  | install => "install"

/-- Are the target's sources compiled? -/
def compiles : TargetType → Bool
  | staticLibrary | sharedLibrary | program | object => true
  | interface | install => false

/-- Do the target's outputs go onto the link line of its dependents? -/
def linksIntoDependents : TargetType → Bool
  | staticLibrary | sharedLibrary | object => true
  | program | interface | install => false

end TargetType

end BuildPlan
