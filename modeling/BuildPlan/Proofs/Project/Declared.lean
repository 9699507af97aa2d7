import BuildPlan.Proofs.Build.Outcome
import BuildPlan.Proofs.Resolve.Change

/-!
# BuildPlan.Proofs.Project.Declared

Projects that have been declared and not resolved. Whatever is declared, no
target has been given its nodes and no step makes a node, every node id that a
target holds is the id of a node, and only install targets have a plan.
-/

namespace BuildPlan

/-- A target that has not been given its nodes. -/
structure Target.Fresh (graph : NodeGraph) (t : Target) : Prop where
  unresolved : t.resolved = false
  objects : t.objects = []
  outputs : t.outputs = []
  plan : t.pending ≠ none → t.type = .install
  nodes : ∀ node ∈ t.nodes, node.index < graph.size

theorem Target.Fresh.mono {graph graph' : NodeGraph} {t : Target} (h : t.Fresh graph)
    (hsize : graph.size ≤ graph'.size) : t.Fresh graph' :=
  ⟨h.unresolved, h.objects, h.outputs, h.plan,
    fun node hnode => Nat.lt_of_lt_of_le (h.nodes node hnode) hsize⟩

namespace Project

/-- A project that has not been resolved. -/
structure Fresh (p : Project) : Prop where
  indexed : p.graph.Indexed
  unbuilt : ∀ id, p.graph.isBuilt id = false
  targets : ∀ id t, p.target? id = some t → t.Fresh p.graph

/-- A project made by declarations. A target may be edited in any way that leaves
its nodes to resolution. -/
inductive Declared : Project → Prop
  | new (name : String) (rootDir buildDir : Path) (strict : Bool) :
      Declared { name, rootDir, buildDir, strict }
  | environment {p : Project} (h : Declared p) (env : Environment) :
      Declared (p.addEnvironment env).2
  | setEnvironment {p : Project} (h : Declared p) (id : EnvironmentId)
      (change : Environment → Environment) : Declared (p.editEnvironment id change)
  | file {p : Project} (h : Declared p) (path : Path) : Declared (p.file path).2
  | depends {p : Project} (h : Declared p) (id : NodeId) {change : Node → Node}
      (hchange : ∀ node, (change node).kind = node.kind) :
      Declared { p with graph := p.graph.modify id change }
  | target {p q : Project} (h : Declared p) {t : Target} {id : TargetId}
      (ht : t.Fresh p.graph) (hadd : Build.Yields (addTarget t) p id q) : Declared q
  | edit {p : Project} (h : Declared p) (id : TargetId) {change : Target → Target}
      (hchange : ∀ t, t.Fresh p.graph → (change t).Fresh p.graph) :
      Declared (p.editTarget id change)
  | link {p q : Project} (h : Declared p) {id dep : TargetId} {u : Unit}
      (hlink : Build.Yields (link id dep) p u q) : Declared q
  | default {p : Project} (h : Declared p) (id : TargetId) : Declared (p.setDefault id)
  | group {p : Project} (h : Declared p) (name : String) (ids : List TargetId) :
      Declared (p.addGroup name ids)

variable {p q : Project} {id dep : TargetId} {t : Target} {e : BuildError} {u : Unit}

/-! ### Single declarations -/

/-- A target is declared behind the others, under a name that none of them has. -/
theorem yields_addTarget : Build.Yields (addTarget t) p id q ↔
    p.findTarget t.name = none ∧ id = ⟨p.targets.size⟩ ∧
      q = { p with targets := p.targets.push t } := by
  rw [addTarget, Build.yields_get_bind]
  split
  · next hknown =>
      have hsome := Option.isSome_iff_ne_none.mp hknown
      constructor
      · intro h
        obtain ⟨_, _, hthrow, -⟩ := Build.yields_bind.mp h
        exact absurd hthrow Build.not_yields_throw
      · exact fun h => absurd h.1 hsome
  · next hnew =>
      have hnone : p.findTarget t.name = none := by simpa using hnew
      rw [Build.yields_set_bind, Build.yields_pure, and_iff_right hnone]

theorem fails_addTarget (h : Build.Fails (addTarget t) p e q) :
    p.findTarget t.name ≠ none ∧ e = .duplicateTarget t.name ∧ q = p := by
  rw [addTarget, Build.fails_get_bind] at h
  split at h
  · next hknown =>
      refine ⟨Option.isSome_iff_ne_none.mp hknown, ?_⟩
      rcases Build.fails_bind.mp h with hthrow | ⟨_, _, hyields, -⟩
      · exact Build.fails_throw.mp hthrow
      · exact absurd hyields Build.not_yields_throw
  · rw [Build.fails_set_bind] at h
    exact absurd h Build.not_fails_pure

/-- A link adds the other target to the dependencies, unless it is there. -/
theorem link_inv (h : Build.Yields (link id dep) p u q) :
    p.target? dep ≠ none ∧ ∃ t, p.target? id = some t ∧
      q = if dep ∈ t.dependencies then p
        else p.editTarget id fun t => { t with dependencies := t.dependencies ++ [dep] } := by
  rw [link, Build.yields_get_bind] at h
  dsimp only at h
  split at h
  · obtain ⟨_, _, hthrow, -⟩ := Build.yields_bind.mp h
    exact absurd hthrow Build.not_yields_throw
  next hdep =>
  split at h
  · exact absurd h Build.not_yields_throw
  next t ht =>
  refine ⟨by simpa using hdep, t, ht, ?_⟩
  split at h
  · next hmem => rw [if_pos hmem, (Build.yields_pure.mp h).2]
  · next hnew => rw [if_neg hnew, Build.yields_set.mp h]

theorem fails_link (h : Build.Fails (link id dep) p e q) :
    (p.target? dep = none ∨ p.target? id = none) ∧ q = p := by
  rw [link, Build.fails_get_bind] at h
  dsimp only at h
  split at h
  · next hdep =>
      refine ⟨.inl (by simpa using hdep), ?_⟩
      rcases Build.fails_bind.mp h with hthrow | ⟨_, _, hyields, -⟩
      · exact (Build.fails_throw.mp hthrow).2
      · exact absurd hyields Build.not_yields_throw
  split at h
  · next hid => exact ⟨.inr hid, (Build.fails_throw.mp h).2⟩
  · split at h
    · exact absurd h Build.not_fails_pure
    · exact absurd h Build.not_fails_set

/-- Making nodes changes nothing but the graph. -/
theorem exists_graph_files (p : Project) (paths : List Path) :
    ∃ graph, (p.files paths).2 = { p with graph } := by
  induction paths generalizing p with
  | nil => exact ⟨p.graph, rfl⟩
  | cons path rest ih => exact ih (p.file path).2

/-! ### What declarations keep -/

theorem Fresh.not_made (h : Fresh p) {id : NodeId} {path : Path} {step : BuildStep} :
    p.graph.kind? id ≠ some (.file path (some step)) :=
  NodeGraph.isBuilt_eq_false_iff.mp (h.unbuilt id) path step

theorem Fresh.file (h : Fresh p) (path : Path) : Fresh (p.file path).2 := by
  refine ⟨h.indexed.file path, fun id => ?_, fun id t ht => ?_⟩
  · refine NodeGraph.isBuilt_eq_false_iff.mpr fun path' step hid => ?_
    exact h.not_made (NodeGraph.built_of_file hid)
  · exact Target.Fresh.mono (h.targets id t ht) (h.indexed.size_file path).1

theorem Fresh.depends (h : Fresh p) (id : NodeId) {change : Node → Node}
    (hchange : ∀ node, (change node).kind = node.kind) :
    Fresh { p with graph := p.graph.modify id change } := by
  refine ⟨h.indexed.modify id hchange, fun other => ?_, fun other t ht => ?_⟩
  · refine NodeGraph.isBuilt_eq_false_iff.mpr fun path step hid => ?_
    rw [NodeGraph.kind?_modify _ _ _ hchange] at hid
    exact h.not_made hid
  · exact Target.Fresh.mono (h.targets other t ht) (Nat.le_of_eq (NodeGraph.size_modify _ _ _).symm)

theorem Fresh.addTarget (h : Fresh p) (ht : t.Fresh p.graph)
    (hadd : Build.Yields (addTarget t) p id q) : Fresh q := by
  obtain ⟨-, -, rfl⟩ := yields_addTarget.mp hadd
  refine ⟨h.indexed, h.unbuilt, fun other t' ht' => ?_⟩
  rw [target?, Array.getElem?_push] at ht'
  split at ht'
  · cases ht'
    exact ht
  · exact h.targets other t' ht'

theorem Fresh.editTarget (h : Fresh p) (id : TargetId) {change : Target → Target}
    (hchange : ∀ t, t.Fresh p.graph → (change t).Fresh p.graph) :
    Fresh (p.editTarget id change) := by
  refine ⟨h.indexed, h.unbuilt, fun other t' ht' => ?_⟩
  obtain ⟨t, ht, rfl⟩ := exists_target_of_editTarget ht'
  obtain ⟨hunresolved, hobjects, houtputs, hplan, hnodes⟩ := h.targets other t ht
  -- discarding the collected requirements touches nothing that freshness is about
  have hforgotten : ({ t with collected := none } : Target).Fresh p.graph :=
    ⟨hunresolved, hobjects, houtputs, hplan, hnodes⟩
  split
  · exact hchange _ hforgotten
  · exact hforgotten

theorem Fresh.link (h : Fresh p) (hlink : Build.Yields (link id dep) p u q) : Fresh q := by
  obtain ⟨-, t, -, rfl⟩ := link_inv hlink
  split
  · exact h
  · exact h.editTarget id fun t ht => ⟨ht.unresolved, ht.objects, ht.outputs, ht.plan, ht.nodes⟩

theorem fresh_new (name : String) (rootDir buildDir : Path) (strict : Bool) :
    Fresh { name, rootDir, buildDir, strict } := by
  refine ⟨NodeGraph.indexed_empty, fun id => rfl, fun id t ht => ?_⟩
  simp [target?] at ht

theorem Fresh.withEnvironments (h : Fresh p) (environments : Array Environment) :
    Fresh { p with environments } :=
  ⟨h.indexed, h.unbuilt, h.targets⟩

theorem Fresh.withTargets (h : Fresh p) {targets : Array Target}
    (htargets : ∀ t ∈ targets, t.Fresh p.graph) : Fresh { p with targets } :=
  ⟨h.indexed, h.unbuilt, fun _ t ht => htargets t (Array.mem_of_getElem? ht)⟩

/-- What is declared is fresh. -/
theorem Declared.fresh (h : Declared p) : Fresh p := by
  induction h with
  | new name rootDir buildDir strict => exact fresh_new name rootDir buildDir strict
  | environment _ env ih => exact ih.withEnvironments _
  | setEnvironment _ id change ih => exact ih.withEnvironments _
  | file _ path ih => exact ih.file path
  | depends _ id hchange ih => exact ih.depends id hchange
  | target _ ht hadd ih => exact ih.addTarget ht hadd
  | edit _ id hchange ih => exact ih.editTarget id hchange
  | link _ hlink ih => exact ih.link hlink
  | default _ id ih => exact ⟨ih.indexed, ih.unbuilt, ih.targets⟩
  | group _ name ids ih => exact ⟨ih.indexed, ih.unbuilt, ih.targets⟩

theorem Fresh.sound (h : Fresh p) : Resolve.Sound ⟨p, [], []⟩ :=
  ⟨h.indexed, fun id t ht => (h.targets id t ht).nodes, by simp⟩

/-! ### Projects that copy -/

/-- An environment that can copy. -/
def copyTools : Environment where
  tools := [("copy", [("copycmd", .text "cp")])]

/-- An install target, which copies the first node. -/
def copyTarget (place : String) : Target where
  name := "to " ++ place
  type := .install
  env := some ⟨0⟩
  pending := some { sources := [.node ⟨0⟩], destination := .file ⟨place⟩ }

/-- A project that copies `a` to each of the places. The node of `b` has been
declared as well. -/
def copying (places : List String) : Project :=
  let p : Project := { name := "copying", environments := #[copyTools] }
  { ((p.file ⟨"a"⟩).2.file ⟨"b"⟩).2 with targets := (places.map copyTarget).toArray }

theorem fresh_copying (places : List String) : (copying places).Fresh := by
  have hnew : Fresh { name := "copying", environments := #[copyTools] } :=
    (fresh_new "copying" ⟨"."⟩ ⟨"build"⟩ false).withEnvironments _
  refine Fresh.withTargets ((hnew.file ⟨"a"⟩).file ⟨"b"⟩) fun t ht => ?_
  obtain ⟨place, -, rfl⟩ : ∃ place ∈ places, copyTarget place = t := by simpa using ht
  refine ⟨rfl, rfl, rfl, fun _ => rfl, fun node hnode => ?_⟩
  obtain rfl : node = ⟨0⟩ := by
    simpa [copyTarget, Target.nodes, InstallPlan.nodes] using hnode
  decide

/-- The project that resolving `copying places` leaves. -/
def copied (places : List String) : Project :=
  ((resolve fun _ => true).run.run (copying places)).2

theorem yields_copied {places : List String}
    (h : ((resolve fun _ => true).run.run (copying places)).1 = .ok ()) :
    Build.Yields (resolve fun _ => true) (copying places) () (copied places) :=
  Prod.ext h rfl

end Project

end BuildPlan
