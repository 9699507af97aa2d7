import BuildPlan.Ninja
import BuildPlan.Proofs.NodeGraph
import Mathlib.Data.List.Basic

/-!
# BuildPlan.Proofs.Ninja

The outputs of a Ninja file's statements. There is one statement for each node
that a step makes and one for each group, so the statements have different
outputs exactly if no two of these nodes share a path.
-/

namespace BuildPlan

namespace NodeGraph

/-- The path that a node's statement makes. A group goes by its name. -/
def output? (graph : NodeGraph) (id : NodeId) : Option Path :=
  match graph.kind? id with
  | some (.file path (some _)) => some path
  | some (.group name) => some ⟨name⟩
  | _ => none

/-- No two steps make the same path. -/
def UniqueProducers (graph : NodeGraph) : Prop :=
  ∀ i j path path' step step', graph.kind? i = some (.file path (some step)) →
    graph.kind? j = some (.file path' (some step')) → path.same path' = true → i = j

/-- No group goes by the path of a node that a step makes, or by another group's name. -/
def GroupsApart (graph : NodeGraph) : Prop :=
  ∀ i j name path, graph.kind? i = some (.group name) → graph.output? j = some path → i ≠ j →
    Path.same ⟨name⟩ path = false

variable {graph : NodeGraph}

theorem output?_eq_some_iff {id : NodeId} {path : Path} :
    graph.output? id = some path ↔
      (∃ step, graph.kind? id = some (.file path (some step))) ∨
        graph.kind? id = some (.group path.spelling) := by
  unfold output?
  split
  · next hkind => simp [hkind]
  · next name hkind =>
      rw [hkind, Option.some.injEq]
      constructor
      · rintro rfl
        exact .inr rfl
      · rintro (⟨step, hstep⟩ | hgroup)
        · cases hstep
        · cases hgroup
          rfl
  · next hfile hgroup =>
      constructor
      · intro h
        cases h
      · rintro (⟨step, hstep⟩ | hname)
        · exact absurd hstep (hfile path step)
        · exact absurd hname (hgroup _)

/-- The paths of statements are the paths of steps and the names of groups. -/
theorem forall_output_iff :
    (∀ i j path path', graph.output? i = some path → graph.output? j = some path' →
      path.same path' = true → i = j) ↔ graph.UniqueProducers ∧ graph.GroupsApart := by
  constructor
  · intro h
    refine ⟨fun i j path path' step step' hi hj => ?_, fun i j name path hi hj hne => ?_⟩
    · exact h i j path path' (output?_eq_some_iff.mpr (.inl ⟨step, hi⟩))
        (output?_eq_some_iff.mpr (.inl ⟨step', hj⟩))
    · refine Bool.eq_false_iff.mpr fun hsame => hne ?_
      exact h i j ⟨name⟩ path (output?_eq_some_iff.mpr (.inr hi)) hj hsame
  · rintro ⟨hsteps, hgroups⟩ i j path path' hi hj hsame
    by_contra hne
    rcases output?_eq_some_iff.mp hi with ⟨step, hi'⟩ | hi'
    · rcases output?_eq_some_iff.mp hj with ⟨step', hj'⟩ | hj'
      · exact hne (hsteps i j path path' step step' hi' hj' hsame)
      · rw [Path.same_comm, hgroups j i _ path hj' hi (Ne.symm hne)] at hsame
        cases hsame
    · rw [hgroups i j _ path' hi' hj hne] at hsame
      cases hsame

end NodeGraph

namespace Ninja

/-- The path that an edge makes. -/
def Edge.path (edge : Edge) : Path := ⟨edge.output⟩

/-- The path of a node's statement, as it is in the node. -/
def nodeOutput? (node : Node) : Option Path :=
  match node.kind with
  | .file path step => step.map fun _ => path
  | .group name => some ⟨name⟩

theorem path_of_statement? {p : Project} {id : NodeId} {node : Node} {statement : Option Statement}
    (h : statement? p id node = .ok statement) :
    statement.map (·.edge.path) = nodeOutput? node := by
  unfold statement? at h
  unfold nodeOutput?
  cases hkind : node.kind with
  | group name =>
      simp only [hkind, Except.ok.injEq] at h
      subst h
      simp [Edge.path, Edge.ofGroup, Node.name, hkind]
  | file path step =>
      cases step with
      | none =>
          simp only [hkind, Except.ok.injEq] at h
          subst h
          rfl
      | some step =>
          simp only [hkind, bind, Except.bind] at h
          cases hrule : Rule.ofStep p id step with
          | error e => simp [hrule] at h
          | ok rule =>
              simp only [hrule, pure, Except.pure, Except.ok.injEq] at h
              subst h
              simp [Edge.path, Edge.ofStep, Node.name, hkind]

/-- What a loop collects, when each turn that succeeds is known by a value of its own. -/
theorem filterMap_of_mapM {α β γ : Type} {f : α → Except BuildError (Option β)} {g : β → γ}
    {k : α → Option γ} (hf : ∀ a b, f a = .ok b → b.map g = k a) {as : List α}
    {bs : List (Option β)} (h : as.mapM f = .ok bs) : (bs.filterMap id).map g = as.filterMap k := by
  induction as generalizing bs with
  | nil =>
      cases h
      rfl
  | cons a as ih =>
      simp only [List.mapM_cons, bind, Except.bind] at h
      cases hfirst : f a with
      | error e => simp [hfirst] at h
      | ok b =>
          cases hrest : as.mapM f with
          | error e => simp [hfirst, hrest] at h
          | ok rest =>
              simp only [hfirst, hrest, pure, Except.pure, Except.ok.injEq] at h
              subst h
              rw [List.filterMap_cons, List.filterMap_cons, ← hf a b hfirst, ← ih hrest]
              cases b <;> rfl

theorem statements_eq (p : Project) : statements p = do
    return (← p.graph.entries.mapM fun entry => statement? p entry.1 entry.2).filterMap id := rfl

/-- The edges are those of the nodes, in order. -/
theorem paths_of_ofProject {p : Project} {file : File} (h : File.ofProject p = .ok file) :
    file.edges.map Edge.path = p.graph.nodes.toList.filterMap nodeOutput? := by
  rw [File.ofProject, statements_eq] at h
  cases hall : p.graph.entries.mapM fun entry => statement? p entry.1 entry.2 with
  | error e => simp [hall, bind, Except.bind] at h
  | ok all =>
      simp only [hall, bind, Except.bind, pure, Except.pure, Except.ok.injEq] at h
      subst h
      rw [List.map_map]
      have hpaths := filterMap_of_mapM (k := fun entry : NodeId × Node => nodeOutput? entry.2)
        (fun _ _ => path_of_statement?) hall
      refine hpaths.trans ?_
      rw [NodeGraph.entries, List.filterMap_map]
      have hfirst : p.graph.nodes.toList.zipIdx.map Prod.fst = p.graph.nodes.toList :=
        List.zipIdx_map_fst 0 _
      rw [← hfirst, List.filterMap_map, hfirst]
      rfl

theorem nodeOutput?_getElem (graph : NodeGraph) {i : Nat} (hi : i < graph.nodes.toList.length) :
    nodeOutput? graph.nodes.toList[i] = graph.output? ⟨i⟩ := by
  have hnode : graph.nodes[i]? = some graph.nodes.toList[i] := by
    rw [← Array.getElem?_toList, List.getElem?_eq_getElem hi]
  rw [nodeOutput?, NodeGraph.output?, NodeGraph.kind?, NodeGraph.node?, hnode, Option.map_some]
  cases graph.nodes.toList[i].kind with
  | group name => rfl
  | file path step => cases step <;> rfl

/-- The statements have different outputs exactly if no two nodes that are made,
or are groups, share a path. -/
theorem pairwise_paths_iff {p : Project} {file : File} (h : File.ofProject p = .ok file) :
    (file.edges.map Edge.path).Pairwise (fun a b => a.same b = false) ↔
      p.graph.UniqueProducers ∧ p.graph.GroupsApart := by
  rw [paths_of_ofProject h, List.pairwise_filterMap, List.pairwise_iff_getElem,
    ← NodeGraph.forall_output_iff]
  simp only [nodeOutput?_getElem]
  constructor
  · rintro hpairs ⟨i⟩ ⟨j⟩ path path' hi hj hsame
    have hlt : ∀ {k path}, p.graph.output? ⟨k⟩ = some path → k < p.graph.nodes.toList.length := by
      intro k path hk
      rcases NodeGraph.output?_eq_some_iff.mp hk with ⟨step, hkind⟩ | hkind
      · exact NodeGraph.lt_size_of_kind? hkind
      · exact NodeGraph.lt_size_of_kind? hkind
    rcases Nat.lt_trichotomy i j with hij | rfl | hij
    · rw [hpairs i j (hlt hi) (hlt hj) hij path hi path' hj] at hsame
      cases hsame
    · rfl
    · rw [Path.same_comm, hpairs j i (hlt hj) (hlt hi) hij path' hj path hi] at hsame
      cases hsame
  · intro hall i j hi hj hij path hpath path' hpath'
    refine Bool.eq_false_iff.mpr fun hsame => ?_
    have heq := hall ⟨i⟩ ⟨j⟩ path path' hpath hpath' hsame
    cases heq
    exact Nat.lt_irrefl _ hij

end Ninja

end BuildPlan
