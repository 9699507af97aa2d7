import BuildPlan.Ninja.Text
import BuildPlan.Project

/-!
# BuildPlan.Ninja.Edge

The `build` statements of a Ninja file: one for each node that a step makes and
one for each group. An edge holds names as they are in the graph; they are
escaped when the edge is written.
-/

namespace BuildPlan.Ninja

structure Edge where
  output : String
  rule : String
  /-- The inputs in command-line order. -/
  inputs : List String
  /-- What causes a rebuild without being an input. -/
  implicits : List String := []
  /-- The file in which the compiler lists the headers it has read. -/
  depfile : Option String := none
  deriving DecidableEq, Repr, Inhabited

namespace Edge

/-- A node's dependencies that are no inputs of its step, each once. -/
def implicitDeps (node : Node) (step : BuildStep) : List NodeId :=
  (node.deps.filter fun dep => !step.sources.contains dep).eraseDups

/-- The edge of a node that a step makes. -/
def ofStep (graph : NodeGraph) (node : Node) (step : BuildStep) (rule : String) : Edge where
  output := node.name
  rule := rule
  inputs := step.sources.map graph.name
  implicits := (implicitDeps node step).map graph.name
  depfile := step.depfile.map Path.spelling

def ofGroup (graph : NodeGraph) (node : Node) : Edge where
  output := node.name
  rule := "phony"
  inputs := node.explicitDeps.map graph.name

/-- The statement itself. -/
def buildLine (edge : Edge) : String :=
  s!"build {escapePath edge.output}: {edge.rule}"
    ++ (if edge.inputs.isEmpty then "" else " " ++ escapePaths edge.inputs)
    ++ (if edge.implicits.isEmpty then "" else " | " ++ escapePaths edge.implicits)

def lines (edge : Edge) : List String :=
  edge.buildLine :: edge.depfile.toList.map fun path => s!"  depfile = {Text.doubleDollars path}"

end Edge

end BuildPlan.Ninja
