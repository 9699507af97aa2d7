import BuildPlan.Path

/-!
# BuildPlan.Error

What can go wrong between a build description and a build file. Each
constructor is a cause; `BuildError.message` words it.
-/

namespace BuildPlan

/-- Why a target could not be built or declared. -/
inductive TargetProblem
  /-- The output node already carries a build step. -/
  | alreadyProduced
  /-- The output node is a group, which stands for other nodes. -/
  | groupStep
  /-- Two sources of one target compile to the same object. -/
  | sharedObject (earlier : String) (source object : Path)
  /-- An install target that renames was given more than one source. -/
  | tooManySources (count : Nat)
  /-- An install target was declared without a destination. -/
  | missingDestination
  /-- A target that installs nothing was declared with a destination. -/
  | misplacedDestination
  deriving DecidableEq, Repr

/-- Why a template or a value has no text. -/
inductive SubstitutionProblem
  /-- A dotted name passes through a value that is no namespace. -/
  | boundThroughValue (key head : String)
  /-- A template refers to a namespace. -/
  | namespaceReference (name : String)
  /-- A namespace stands where text is needed. -/
  | namespaceText
  /-- A built node has neither an expanded command nor a template. -/
  | noCommand (node tool field : String)
  deriving DecidableEq, Repr

/-- The failures of the library. -/
inductive BuildError
  | missingVariable (name : String)
  | circularReference (chain : List String)
  | dependencyCycle (cycle : List String)
  | missingSource (path : Path)
  | toolNotFound (tool : String)
  | target (name : String) (problem : TargetProblem)
  | duplicateTarget (name : String)
  | unknownTarget (name : String)
  | substitution (problem : SubstitutionProblem)
  /-- Strict validation found `count` problems. -/
  | validation (first : BuildError) (count : Nat)
  /-- The text of a manifest does not describe a project. -/
  | manifest (path : String) (reason : String)
  deriving DecidableEq, Repr

namespace TargetProblem

def message : TargetProblem → String
  | alreadyProduced => "output already has a producing build step"
  | groupStep => "aliases cannot carry a build step"
  | sharedObject earlier source object =>
    s!"{earlier} and {source.spelling} both compile to {object.spelling}"
  | tooManySources count => s!"install_as takes exactly one source, got {count}"
  | missingDestination => "install targets require `dest`"
  | misplacedDestination => "`dest` is only valid on install targets"

end TargetProblem

namespace SubstitutionProblem

def message : SubstitutionProblem → String
  | boundThroughValue key head => s!"cannot bind '{key}': '{head}' is not a namespace"
  | namespaceReference name => s!"${name} refers to a namespace, not a value"
  | namespaceText => "a namespace cannot be rendered as text"
  | noCommand node tool field =>
    s!"no command for {node}: tool '{tool}' has no '{field}' template"

end SubstitutionProblem

namespace BuildError

/-- Names along a chain of references or dependencies. -/
def arrows (names : List String) : String := " -> ".intercalate names

def message : BuildError → String
  | missingVariable name => s!"undefined variable: ${name}"
  | circularReference chain => s!"circular variable reference: {arrows chain}"
  | dependencyCycle cycle => s!"dependency cycle: {arrows cycle}"
  | missingSource path => s!"source file not found: {path.spelling}"
  | toolNotFound tool => s!"tool not found: {tool}"
  | target name problem => s!"target '{name}': {problem.message}"
  | duplicateTarget name => s!"target '{name}' already exists"
  | unknownTarget name => s!"unknown target '{name}'"
  | substitution problem => s!"substitution failed: {problem.message}"
  | validation first count =>
    s!"project validation failed with {count} error(s): {first.message}"
  | manifest path reason => s!"invalid manifest {path}: {reason}"

end BuildError

end BuildPlan
