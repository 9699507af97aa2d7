import BuildPlan.Graph.NamedCycle
import BuildPlan.Graph.Order
import BuildPlan.Project

/-!
# BuildPlan.Project.Dependencies

The dependency graph of a project's targets: which targets one depends on, the
order in which targets are built, and the cycles that leave no such order.
-/

namespace BuildPlan

namespace NodeGraph

/-- A cycle among the nodes, along explicit and implicit dependencies. -/
def cycle? (graph : NodeGraph) : Option (List String) :=
  let next (id : NodeId) := ((graph.node? id).map Node.deps).getD []
  (Graph.allCycles next graph.ids).head?.map fun cycle => Graph.namedCycle (cycle.map graph.name)

end NodeGraph

namespace Project

/-- The targets that `id` depends on, each when it is first reached along the links. -/
def reachedTargets (p : Project) (id : TargetId) : List TargetId :=
  Graph.preorder p.dependenciesOf (p.targetIds.erase id) (p.dependenciesOf id)

/-- The targets that `id` depends on, each after the targets it depends on itself. -/
def transitiveDependencies (p : Project) (id : TargetId) : List TargetId :=
  Graph.postorder p.dependenciesOf (p.targetIds.erase id) (Graph.enterAll (p.dependenciesOf id))

/-- The cycles among some targets, in the order in which they are discovered. -/
def cyclesAmong (p : Project) (ids : List TargetId) : List (List String) :=
  ((Graph.allCycles p.dependenciesOf ids).map fun cycle =>
    Graph.namedCycle (cycle.map p.targetName)).eraseDups

/-- The positions among `ids` of the targets that the one at a position depends on.
A target that is not among them stands at the end, where there is no position. -/
def positionsBelow (p : Project) (ids : List TargetId) (position : Nat) : List Nat :=
  ((ids[position]?.map p.dependenciesOf).getD []).map ids.idxOf

/-- Some targets in an order in which each follows its dependencies among them.
Ties go to the target declared first. -/
def orderAmong (p : Project) (ids : List TargetId) : Except BuildError (List TargetId) :=
  let order := Graph.order ids.length (p.positionsBelow ids)
  if order.length < ids.length then
    .error (.dependencyCycle ((p.cyclesAmong ids).head?.getD []))
  else .ok (order.filterMap (ids[·]?))

/-- All targets, dependencies first. -/
def buildOrder (p : Project) : Except BuildError (List TargetId) := p.orderAmong p.targetIds

/-- The languages of a target and of everything it depends on, in alphabetical order. -/
def allLanguages (p : Project) (id : TargetId) : List String :=
  (id :: p.transitiveDependencies id).foldl (fun known id =>
    Target.mergeLanguages known (((p.target? id).map Target.languages).getD [])) []

end Project

end BuildPlan
