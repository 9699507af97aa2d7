import BuildPlan.Node
import BuildPlan.TargetType

/-!
# BuildPlan.Target

The named units of a project: what they are made of, what they depend on and
what they ask for, together with the nodes that resolution has given them.
-/

namespace BuildPlan

/-- A target by its position in declaration order. -/
structure TargetId where
  index : Nat
  deriving DecidableEq, Repr, Inhabited

/-- Something an install target copies. -/
inductive InstallSource
  /-- The outputs of another target. -/
  | target (id : TargetId)
  | node (id : NodeId)
  /-- A path, whose node is made during resolution. -/
  | path (path : Path)
  deriving DecidableEq, Repr

/-- Where an install target copies to. -/
inductive Destination
  /-- Into a directory, under the name that each source has. -/
  | directory (dir : Path)
  /-- To one path, under that name. -/
  | file (path : Path)
  deriving DecidableEq, Repr

/-- The work of an install target that is still to be done. -/
structure InstallPlan where
  sources : List InstallSource
  destination : Destination
  deriving DecidableEq, Repr

/-- A named unit of a project. -/
structure Target where
  name : String
  type : TargetType
  env : Option EnvironmentId := none
  sources : List NodeId := []
  /-- Requirements that reach the targets depending on this one. -/
  publicReqs : Requirements := {}
  privateReqs : Requirements := {}
  /-- The output's file name, in place of the toolchain's naming. -/
  outputName : Option String := none
  languages : List String := []
  /-- The objects that resolution has made or found. -/
  objects : List NodeId := []
  outputs : List NodeId := []
  /-- Linker inputs that became flags. -/
  auxiliaryInputs : List (NodeId × String) := []
  /-- The targets this one is linked to, in order. -/
  dependencies : List TargetId := []
  /-- What an install target has still to copy. -/
  pending : Option InstallPlan := none
  /-- The requirements that apply when the target is built, once collected. -/
  collected : Option Requirements := none
  /-- Has the target been given its nodes? -/
  resolved : Bool := false
  deriving DecidableEq, Repr

namespace Target

/-- Languages in alphabetical order without repetition, with one more added. -/
def insertLanguage (language : String) : List String → List String
  | [] => [language]
  | known :: rest =>
    if language = known then known :: rest
    else if language < known then language :: known :: rest
    else known :: insertLanguage language rest

/-- The languages of both lists in alphabetical order. -/
def mergeLanguages (known extra : List String) : List String :=
  extra.foldl (fun acc language => insertLanguage language acc) known

end Target

end BuildPlan
