import BuildPlan.Proofs.Resolve.CompileSteps

/-!
# BuildPlan.Proofs.Resolve.SharedObjects

Which sources share an object. In a run that succeeds, the objects of two sources are one
exactly if the sources belong to one target and have one normal form, and nothing is compiled
besides these objects, so no source is compiled twice and none is left out.
-/

namespace BuildPlan

namespace Resolve

open Build NodeGraph Project

variable {p q : Project} {order : List TargetId} {compiled : Project} {id : TargetId}
  {source node : NodeId} {step : BuildStep}

/-- What is compiled is the object of a source that comes first among those like it. -/
theorem Runs.exists_objectOf {expanded copied installed : Project} (hfresh : p.Fresh)
    (h : Runs p order compiled expanded copied installed q)
    (hstep : q.graph.step? node = some step) (hkind : step.kind = .compile) :
    ∃ id source, p.leader? id source = some source ∧ ObjectOf p q id source node ∧
      step.sources = [source] := by
  obtain ⟨id, source, env, tc, handler, hby⟩ :=
    (h.continues hfresh).compiledBy hfresh h.ordered h.compile hstep hkind
  obtain ⟨_, -, -, place, hcommand⟩ := hby.compiles
  have hsources : step.sources = [source] := congrArg BuildStep.sources hcommand
  obtain ⟨-, _, first, -, -, hfirst, hfrom⟩ :=
    ((h.compiledInto hfresh).objectOf_iff hfresh).mp hby.object
  obtain ⟨path, hnode⟩ := step?_eq_some_iff.mp hstep
  have hmade := hfrom.source_eq (made?_eq_some_iff.mpr ⟨path, step, hnode, rfl⟩)
  obtain rfl : source = first := List.singleton_inj.mp (hsources.symm.trans hmade)
  exact ⟨id, source, hfirst, hby.object, hsources⟩

/-- Every source that is compiled has an object, which is compiled from the first source like
it. Two sources have one object exactly if they are alike and of one target, and whatever is
compiled is such an object. Sources of one target that are not alike and have their objects in
one place stand in the way of resolution, provided that they and the first sources like them
have file names. -/
theorem objects_shared_iff_alike (hfresh : p.Fresh) :
    (∀ exist u q, Yields (Project.resolve exist) p u q →
      (∀ id source, source ∈ p.compiledSources id → ∃ node, ObjectOf p q id source node) ∧
      (∀ id source node, ObjectOf p q id source node →
        ∃ first, p.leader? id source = some first ∧ CompiledFrom p id first q.graph node) ∧
      (∀ id id' source source' node node', ObjectOf p q id source node →
        ObjectOf p q id' source' node' →
        (node = node' ↔ id = id' ∧ (p.sourceKey source).same (p.sourceKey source') = true)) ∧
      ∀ node step, q.graph.step? node = some step → step.kind = .compile →
        ∃ id source, p.leader? id source = some source ∧ ObjectOf p q id source node ∧
          step.sources = [source]) ∧
    ∀ id source source' place place', Graph.Acyclic (p.DependsOn p.targetIds) →
      source ∈ p.compiledSources id → source' ∈ p.compiledSources id →
      (∀ other, other ∈ [source, source'] ∨ p.leader? id source = some other ∨
        p.leader? id source' = some other → p.HasFileName other) →
      (p.sourceKey source).same (p.sourceKey source') = false →
      p.objectPlace? id source = some place → p.objectPlace? id source' = some place' →
      place.same place' = true →
      ∀ exist, ∃ name problem q, Fails (Project.resolve exist) p (.target name problem) q := by
  refine ⟨fun exist u q hrun => ?_, fun id source source' place place' hacyclic hsource hsource'
    hnames hunlike hplace hplace' hsame exist => ?_⟩
  · obtain ⟨order, compiled, _, _, _, hruns⟩ := yields_resolveAll_iff.mp (resolve_inv hrun)
    have hcompiled := hruns.compiledInto hfresh
    refine ⟨fun id source hsource => hcompiled.exists_objectOf hfresh hsource, ?_, ?_, ?_⟩
    · intro id source node hobject
      obtain ⟨-, _, first, -, -, hfirst, hfrom⟩ := (hcompiled.objectOf_iff hfresh).mp hobject
      exact ⟨first, hfirst, hfrom⟩
    · intro id id' source source' node node' hobject hobject'
      exact hcompiled.objectOf_eq_iff hfresh hobject hobject'
    · intro node step hstep hkind
      exact hruns.exists_objectOf hfresh hstep hkind
  · obtain ⟨first, hfirst⟩ := exists_leader? hsource
    obtain ⟨first', hfirst'⟩ := exists_leader? hsource'
    rw [objectPlace?_congr (leader?_spec hfirst).2 (hnames _ (.inl (by simp)))
      (hnames _ (.inr (.inl hfirst)))] at hplace
    rw [objectPlace?_congr (leader?_spec hfirst').2 (hnames _ (.inl (by simp)))
      (hnames _ (.inr (.inr hfirst')))] at hplace'
    exact fails_of_objectPlace hfresh hacyclic hsource hsource' hfirst hfirst' hplace hplace' hsame
      hunlike exist

/-! ### A target whose first source has no file name -/

/-- Tools that compile sources without a suffix, and have no command. -/
def anyTools : Environment where
  tools := [("c", [])]
  toolchains := [{
    name := "c", handlers := [("", { tool := "c", language := "c", objectSuffix := "" })] }]

/-- A target that compiles files of the given names. -/
def compiling (names : List String) : Project :=
  let (ids, p) := Project.files
    { name := "compiling", buildDir := ⟨"b"⟩, environments := #[anyTools] } (names.map Path.mk)
  { p with targets := #[{ name := "t", type := .object, env := some ⟨0⟩, sources := ids }] }

theorem fresh_files (h : p.Fresh) (paths : List Path) :
    (p.files paths).2.Fresh ∧
      p.graph.size ≤ (p.files paths).2.graph.size ∧
      ∀ node ∈ (p.files paths).1, node.index < (p.files paths).2.graph.size := by
  induction paths generalizing p with
  | nil => exact ⟨h, Nat.le_refl _, by simp [Project.files]⟩
  | cons path rest ih =>
      obtain ⟨hrest, hsize, hids⟩ := ih (h.file path)
      obtain ⟨hgrows, hfile⟩ := h.indexed.size_file path
      refine ⟨hrest, Nat.le_trans hgrows hsize, fun node hnode => ?_⟩
      rcases List.mem_cons.mp hnode with rfl | hnode
      · exact Nat.lt_of_lt_of_le hfile hsize
      · exact hids node hnode

theorem fresh_compiling (names : List String) : (compiling names).Fresh := by
  have hnew : Fresh { name := "compiling", buildDir := ⟨"b"⟩, environments := #[anyTools] } :=
    (fresh_new "compiling" ⟨"."⟩ ⟨"b"⟩ false).withEnvironments _
  obtain ⟨hfiles, -, hids⟩ := fresh_files hnew (names.map Path.mk)
  refine hfiles.withTargets fun t ht => ?_
  obtain rfl := Array.mem_singleton.mp ht
  refine ⟨rfl, rfl, rfl, by simp, fun node hnode => hids node ?_⟩
  simpa [Target.nodes] using hnode

theorem not_reaches_compiling (names : List String) (id dep : TargetId) :
    ¬ (compiling names).Reaches id dep := by
  intro hpath
  obtain ⟨next, ⟨hid, -, hnext⟩, -⟩ := Relation.TransGen.head'_iff.mp hpath
  obtain ⟨i⟩ := id
  obtain rfl : i = 0 := Nat.lt_one_iff.mp (mem_targetIds.mp hid)
  cases hnext

theorem gatherRequirements_compiling (names : List String) :
    (compiling names).gatherRequirements ⟨0⟩ = {} := by
  have hreached : (compiling names).reachedTargets ⟨0⟩ = [] := by
    refine List.eq_nil_iff_forall_not_mem.mpr fun dep hdep => ?_
    exact not_reaches_compiling names _ _ (mem_reachedTargets.mp hdep).2
  rw [gatherRequirements, hreached]
  rfl

/-- `f` is compiled under the name `f/x/..`, which comes first. -/
def sharing : Project := compiling ["f/x/..", "f", "g/f"]

/-- The project once the target has had its turn, after which nothing is left to do. -/
def shared : Project :=
  ((resolveTarget ⟨0⟩).run.run
    (sharing.modifyTarget ⟨0⟩ fun t => { t with collected := some {} })).2

theorem yields_shared_turn : Yields (resolveTarget ⟨0⟩) sharing ⟨⟩ shared := by
  have hreqs : sharing.gatherRequirements ⟨0⟩ = {} := gatherRequirements_compiling _
  rw [yields_resolveTarget_collected rfl rfl rfl rfl rfl hreqs]
  refine Prod.ext ?_ rfl
  decide +kernel

theorem yields_shared_commands :
    Yields (expandCommands 0) shared () shared ∧
      Yields (expandCommands shared.graph.size) shared () shared := by
  constructor <;> rfl

theorem yields_shared : Yields (Project.resolve fun _ => true) sharing () shared := by
  have hordered : sharing.buildOrder = .ok [⟨0⟩] := by decide +kernel
  have hcompile : Yields ([⟨0⟩].forM resolveTarget) sharing ⟨⟩ shared :=
    yields_bind.mpr ⟨⟨⟩, _, yields_shared_turn, yields_pure.mpr ⟨rfl, rfl⟩⟩
  obtain ⟨hexpand, hfinish⟩ := yields_shared_commands
  refine yields_resolve_of_lenient (yields_resolveAll_iff.mpr ⟨_, _, _, shared, _,
    hordered, hcompile, hexpand, ?_, ?_, hfinish⟩) rfl
  · rfl
  · rfl

/-- The two names of `f` share an object. -/
theorem objects_shared_iff_alike_sharing :
    sharing.Fresh ∧ Yields (Project.resolve fun _ => true) sharing () shared ∧
      (∃ node, ObjectOf sharing shared ⟨0⟩ ⟨0⟩ node ∧ ObjectOf sharing shared ⟨0⟩ ⟨1⟩ node) ∧
      ∃ name problem q,
        Fails (Project.resolve fun _ => true) (compiling ["f", "g/f"]) (.target name problem)
          q := by
  obtain ⟨hshared, -⟩ := objects_shared_iff_alike (fresh_compiling ["f/x/..", "f", "g/f"])
  obtain ⟨hexists, -, hiff, -⟩ := hshared _ _ _ yields_shared
  obtain ⟨node, hnode⟩ := hexists ⟨0⟩ ⟨0⟩ (by decide)
  obtain ⟨node', hnode'⟩ := hexists ⟨0⟩ ⟨1⟩ (by decide)
  have heq : node = node' := (hiff _ _ _ _ _ _ hnode hnode').mpr ⟨rfl, by decide⟩
  refine ⟨fresh_compiling _, yields_shared, ⟨node, hnode, heq ▸ hnode'⟩, ?_⟩
  obtain ⟨-, hfails⟩ := objects_shared_iff_alike (fresh_compiling ["f", "g/f"])
  refine hfails ⟨0⟩ ⟨0⟩ ⟨1⟩ ⟨"b/obj.t/f"⟩ ⟨"b/obj.t/f"⟩ (fun id => not_reaches_compiling _ id id)
    (by decide) (by decide) (fun other hother => ?_) (by decide) (by decide) (by decide)
    (by decide) _
  have hleader : (compiling ["f", "g/f"]).leader? ⟨0⟩ ⟨0⟩ = some ⟨0⟩ := by decide
  have hleader' : (compiling ["f", "g/f"]).leader? ⟨0⟩ ⟨1⟩ = some ⟨1⟩ := by decide
  have hcases : other = ⟨0⟩ ∨ other = ⟨1⟩ := by
    simpa [hleader, hleader', eq_comm, or_assoc] using hother
  rcases hcases with rfl | rfl
  · exact ⟨"f", by decide⟩
  · exact ⟨"f", by decide⟩

/-- The object of `f` is the one of `f/x/..`, so `f` and `g/f` are both compiled although
their objects have one place. -/
theorem not_forall_fails_of_objectPlace : ¬ ∀ (p : Project) (exist : Path → Bool) (id : TargetId)
    (source source' : NodeId) (place place' : Path), p.Fresh →
    Graph.Acyclic (p.DependsOn p.targetIds) → source ∈ p.compiledSources id →
    source' ∈ p.compiledSources id → p.HasFileName source → p.HasFileName source' →
    (p.sourceKey source).same (p.sourceKey source') = false →
    p.objectPlace? id source = some place → p.objectPlace? id source' = some place' →
    place.same place' = true → ∃ e q, Fails (Project.resolve exist) p e q := by
  intro hall
  obtain ⟨e, q, hfails⟩ := hall sharing (fun _ => true) ⟨0⟩ ⟨1⟩ ⟨2⟩ ⟨"b/obj.t/f"⟩ ⟨"b/obj.t/f"⟩
    (fresh_compiling _) (fun id => not_reaches_compiling _ id id) (by decide) (by decide)
    ⟨"f", by decide⟩ ⟨"f", by decide⟩ (by decide) (by decide) (by decide) (by decide)
  exact yields_shared.not_fails hfails

end Resolve

end BuildPlan
