import BuildPlan.Error
import BuildPlan.StepContext
import BuildPlan.Template.Token

/-!
# BuildPlan.Node

The vertices of the build graph: files, each with at most one step that
produces it, and named groups of nodes.
-/

namespace BuildPlan

/-- A node by its position in creation order. -/
structure NodeId where
  index : Nat
  deriving DecidableEq, Repr, Inhabited

/-- An environment by its position in creation order. -/
structure EnvironmentId where
  index : Nat
  deriving DecidableEq, Repr, Inhabited

/-- What a build step does. -/
inductive StepKind
  | compile
  | link
  | archive
  | copy
  deriving DecidableEq, Repr

/-- The label shown while the step runs. -/
def StepKind.label : StepKind → String
  | .compile => "COMPILE"
  | .link => "LINK"
  | .archive => "AR"
  | .copy => "INSTALL"

/-- How a node is made. -/
structure BuildStep where
  /-- The tool that holds the command template. -/
  tool : String
  /-- The tool's field that holds it. -/
  commandVar : String
  kind : StepKind
  /-- The language of the source, or the one that drives the linker. -/
  language : Option String := none
  /-- The inputs in command-line order. -/
  sources : List NodeId := []
  /-- The dependency file that the compiler writes. -/
  depfile : Option Path := none
  depsStyle : Option DepsStyle := none
  context : Option StepContext := none
  /-- The environment whose tools expand the command. -/
  env : Option EnvironmentId := none
  command : Option (List Token) := none
  deriving DecidableEq, Repr

/-- What a node stands for. -/
inductive NodeKind
  /-- A file, with the step that produces it if there is one. -/
  | file (path : Path) (step : Option BuildStep)
  /-- A named group of other nodes. -/
  | group (name : String)
  deriving DecidableEq, Repr

/-- A vertex of the build graph. -/
structure Node where
  kind : NodeKind
  /-- Dependencies that appear as inputs. -/
  explicitDeps : List NodeId := []
  /-- Dependencies that cause a rebuild without being inputs. -/
  implicitDeps : List NodeId := []
  deriving DecidableEq, Repr

namespace Node

/-- The path of a file or the name of a group. -/
def name (node : Node) : String :=
  match node.kind with
  | .file path _ => path.spelling
  | .group name => name

def path? (node : Node) : Option Path :=
  match node.kind with
  | .file path _ => some path
  | .group _ => none

def step? (node : Node) : Option BuildStep :=
  match node.kind with
  | .file _ step => step
  | .group _ => none

def isBuilt (node : Node) : Bool := node.step?.isSome

/-- All dependencies, explicit ones first. -/
def deps (node : Node) : List NodeId := node.explicitDeps ++ node.implicitDeps

/-- Ids in order, followed by the new ones among `extra`. -/
def addNew (ids extra : List NodeId) : List NodeId := Flag.appendNew (· == ·) ids extra

def depends (node : Node) (extra : List NodeId) : Node :=
  { node with explicitDeps := addNew node.explicitDeps extra }

def dependsImplicitly (node : Node) (extra : List NodeId) : Node :=
  { node with implicitDeps := addNew node.implicitDeps extra }

/-- Attach the step that produces the node. A file has one producer and a group none. -/
def setStep (node : Node) (step : BuildStep) : Except BuildError Node :=
  match node.kind with
  | .file path none => .ok { node with kind := .file path (some step) }
  | .file path (some _) => .error (.target path.spelling .alreadyProduced)
  | .group name => .error (.target name .groupStep)

/-- Attach the expanded command to the step of a built node. -/
def setCommand (node : Node) (command : List Token) : Node :=
  match node.kind with
  | .file path (some step) =>
    { node with kind := .file path (some { step with command := some command }) }
  | _ => node

end Node

end BuildPlan
