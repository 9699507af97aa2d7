import BuildPlan.Project.Dependencies
import BuildPlan.Proofs.Graph.NamedCycle
import BuildPlan.Proofs.Graph.Traversal

/-!
# BuildPlan.Proofs.NodeGraph.Cycle

Cycles among the nodes of a graph. A node depends on the nodes that it lists, explicitly
or implicitly, and may list ids that no node has. Such an id leads nowhere, so no cycle
passes through it, and the search may pass it over.
-/

namespace BuildPlan.NodeGraph

open BuildPlan.Graph

variable {graph : NodeGraph} {walk : List NodeId} {id dep : NodeId}

/-- The node lists `dep` among its dependencies, whether there is such a node or not. -/
def DependsOn (graph : NodeGraph) (id dep : NodeId) : Prop :=
  ∃ node, graph.node? id = some node ∧ (dep ∈ node.explicitDeps ∨ dep ∈ node.implicitDeps)

/-- The dependencies of a node. An id without a node has none. -/
def depsOf (graph : NodeGraph) (id : NodeId) : List NodeId :=
  ((graph.node? id).map Node.deps).getD []

theorem cycle?_eq (graph : NodeGraph) :
    graph.cycle? = (allCycles graph.depsOf graph.ids).head?.map fun cycle =>
      namedCycle (cycle.map graph.name) := rfl

theorem mem_depsOf : dep ∈ graph.depsOf id ↔ graph.DependsOn id dep := by
  rw [depsOf, DependsOn]
  cases graph.node? id with
  | none => simp
  | some node => simp [Node.deps]

theorem mem_ids : id ∈ graph.ids ↔ id.index < graph.size := by
  obtain ⟨i⟩ := id
  simp [ids]

theorem nodup_ids (graph : NodeGraph) : graph.ids.Nodup :=
  List.nodup_range.map fun _ _ h => congrArg NodeId.index h

/-- Only ids that a node has lead on. -/
theorem DependsOn.mem_ids (h : graph.DependsOn id dep) : id ∈ graph.ids := by
  obtain ⟨node, hnode, -⟩ := h
  exact NodeGraph.mem_ids.mpr (Array.getElem?_eq_some_iff.mp hnode).1

/-- All that lies on a closed walk leads on, so a closed walk stays among the nodes. -/
theorem closedWalk_dependsOn_iff :
    ClosedWalk graph.DependsOn walk ↔ ClosedWalk (Edge graph.depsOf graph.ids) walk := by
  constructor
  · intro h
    have hinside : ∀ id ∈ walk, id ∈ graph.ids := by
      intro id hid
      obtain ⟨dep, hstep⟩ := exists_step_from hid
      exact (h.along _ hstep).mem_ids
    refine ⟨h.nonempty, fun step hstep => ?_⟩
    obtain ⟨hfrom, hto⟩ := mem_of_mem_steps hstep
    exact ⟨hinside _ hfrom, hinside _ hto, mem_depsOf.mpr (h.along step hstep)⟩
  · intro h
    exact ⟨h.nonempty, fun step hstep => mem_depsOf.mp (h.along step hstep).2.2⟩

theorem acyclic_dependsOn_iff :
    Acyclic graph.DependsOn ↔ Acyclic (Edge graph.depsOf graph.ids) := by
  rw [acyclic_iff, acyclic_iff]
  exact forall_congr' fun walk => not_congr closedWalk_dependsOn_iff

theorem cycle?_eq_none_iff : graph.cycle? = none ↔ Acyclic graph.DependsOn := by
  rw [acyclic_dependsOn_iff, ← allCycles_eq_nil_iff graph.nodup_ids, cycle?_eq,
    Option.map_eq_none_iff, List.head?_eq_none_iff]

/-- What is found is a cycle, told by the names of its nodes from the least one on. -/
theorem exists_cycle_of_cycle? {names : List String} (h : graph.cycle? = some names) :
    ∃ walk, SimpleCycle graph.DependsOn walk ∧ StartsAtLeast (walk.map graph.name) ∧
      names = close (walk.map graph.name) := by
  rw [cycle?_eq] at h
  obtain ⟨loop, hloop, rfl⟩ := Option.map_eq_some_iff.mp h
  obtain ⟨walk, hrotated, hleast, hnames⟩ := exists_rotated_namedCycle graph.name loop
  have hcycle := (simpleCycle_of_mem_allCycles graph.nodup_ids
    (List.mem_of_head? hloop)).rotated hrotated
  exact ⟨walk, ⟨closedWalk_dependsOn_iff.mpr hcycle.toClosedWalk, hcycle.nodup⟩, hleast, hnames⟩

/-- The search among the nodes finds nothing exactly if no node depends on itself, directly
or not. Else it gives the names along a cycle of nodes, none of which it visits twice,
starting at the least name and closed by repeating it. -/
theorem cycle?_sound_and_complete (graph : NodeGraph) :
    (graph.cycle? = none ↔ ∀ id, ¬ Relation.TransGen graph.DependsOn id id) ∧
    ∀ names, graph.cycle? = some names →
      ∃ walk, SimpleCycle graph.DependsOn walk ∧ StartsAtLeast (walk.map graph.name) ∧
        names = close (walk.map graph.name) :=
  ⟨cycle?_eq_none_iff, fun _ => exists_cycle_of_cycle?⟩

/-- Three nodes that depend on each other in a round, one of them implicitly. Two have
the same name, and one depends on an id without a node as well. -/
example : cycle? { nodes := #[⟨.file ⟨"b"⟩ none, [⟨7⟩, ⟨1⟩], []⟩, ⟨.group "a", [], [⟨2⟩]⟩,
    ⟨.file ⟨"a"⟩ none, [⟨0⟩], []⟩] } = some ["a", "a", "b", "a"] := by cbv

end BuildPlan.NodeGraph
