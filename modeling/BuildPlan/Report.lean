import BuildPlan.Json
import BuildPlan.Project.Dependencies

/-!
# BuildPlan.Report

A resolved project as seen from outside: the order in which its targets are
built, the targets with what they produce, and the nodes that have a step or
explicit dependencies.
-/

namespace BuildPlan.Project

def targetReport (p : Project) (target : Target) : Json :=
  .object [("name", .text target.name), ("type", .text target.type.name),
    ("dependencies", .texts (target.dependencies.map p.targetName)),
    ("outputs", .texts (target.outputs.map p.graph.name))]

/-- A command as one line, with its markers spelled as variables. -/
def commandReport (command : List Token) : Json :=
  .text (" ".intercalate (command.map Token.display))

/-- A field with the names of some nodes, left out when there are none. -/
def nodesField (p : Project) (field : String) (ids : List NodeId) : List (String × Json) :=
  if ids.isEmpty then [] else [(field, .texts (ids.map p.graph.name))]

def nodeReport (p : Project) (node : Node) : Json :=
  .object ([("path", .text node.name)]
    ++ node.step?.toList.map (fun step => ("tool", .text step.tool))
    ++ p.nodesField "sources" ((node.step?.map BuildStep.sources).getD [])
    ++ p.nodesField "depends" node.explicitDeps
    ++ (node.step?.bind BuildStep.command).toList.map fun command =>
      ("command", commandReport command))

/-- Does a report show the node? -/
def reported (node : Node) : Bool := node.isBuilt || !node.explicitDeps.isEmpty

/-- The report of a resolved project. -/
def report (p : Project) : Except BuildError Json := do
  return .object [("project", .text p.name),
    ("build_order", .texts ((← p.buildOrder).map p.targetName)),
    ("targets", .array (p.targets.toList.map p.targetReport)),
    ("nodes", .array ((p.graph.nodes.toList.filter reported).map p.nodeReport))]

end BuildPlan.Project
