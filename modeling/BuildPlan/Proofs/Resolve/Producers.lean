import BuildPlan.Proofs.Ninja
import BuildPlan.Proofs.Resolve.Placement

/-!
# BuildPlan.Proofs.Resolve.Producers

When a resolved project has two steps that make one path. Objects are never in the
way of each other. What decides is where the declarations put the outputs and the
copies: resolution takes no notice of two that are put at one place, or of one
that is put where an object is.
-/

namespace BuildPlan.Resolve

open Build NodeGraph Project

variable {p q : Project}

/-- No two products are put at one place, and none is put where an object is. -/
structure PlacesApart (p q : Project) : Prop where
  targets : ∀ id other node node' place place', Makes q id node → Makes q other node' →
    Puts p q.graph id node place → Puts p q.graph other node' place' →
      place.same place' = true → id = other ∧ node = node'
  objects : ∀ id node place object path step, Makes q id node → Puts p q.graph id node place →
    q.graph.kind? object = some (.file path (some step)) → step.kind = .compile →
      place.same path = false

/-- A product is made at the place where it is put. -/
theorem Ledger.exists_same (h : Ledger p ⟨q, [], []⟩) {id : TargetId} {node : NodeId} {place : Path}
    (hmakes : Makes q id node) (hputs : Puts p q.graph id node place) :
    ∃ path step, q.graph.kind? node = some (.file path (some step)) ∧ step.kind ≠ .compile ∧
      place.components = path.components := by
  obtain ⟨-, place', path, made, hputs', hmade, hsame⟩ := h.placed.outputs id node hmakes
  rw [← hputs.unique hputs', Path.same_iff] at hsame
  have hkind := hputs.kind hmade
  obtain ⟨_, step, hnode, heq⟩ := made?_eq_some_iff.mp hmade
  cases heq
  exact ⟨path, step, hnode, hkind, hsame⟩

/-- What is no object is put somewhere by the target that makes it. -/
theorem Ledger.exists_puts (h : Ledger p ⟨q, [], []⟩) {node : NodeId} {path : Path}
    {step : BuildStep} (hnode : q.graph.kind? node = some (.file path (some step)))
    (hkind : step.kind ≠ .compile) :
    ∃ id place, Makes q id node ∧ Puts p q.graph id node place ∧
      place.components = path.components := by
  have hmade := made?_eq_some_iff.mpr ⟨path, step, hnode, rfl⟩
  obtain ⟨id, hmakes⟩ := (h.placed.owner node path _ hmade hkind).resolve_left List.not_mem_nil
  obtain ⟨-, place, path', step', hputs, hmade', hsame⟩ := h.placed.outputs id node hmakes
  rw [hmade] at hmade'
  cases hmade'
  exact ⟨id, place, hmakes, hputs, Path.same_iff.mp hsame⟩

theorem Ledger.objects_apart (h : Ledger p ⟨q, [], []⟩) {i j : NodeId} {path path' : Path}
    {step step' : BuildStep} (hi : q.graph.kind? i = some (.file path (some step)))
    (hj : q.graph.kind? j = some (.file path' (some step'))) (hki : step.kind = .compile)
    (hkj : step'.kind = .compile) (hsame : path.same path' = true) : i = j :=
  h.placed.objects i j path path' _ _ (made?_eq_some_iff.mpr ⟨path, step, hi, rfl⟩)
    (made?_eq_some_iff.mpr ⟨path', step', hj, rfl⟩) hki hkj hsame

theorem placesApart_of_uniqueProducers (h : Ledger p ⟨q, [], []⟩)
    (hunique : q.graph.UniqueProducers) : PlacesApart p q := by
  refine ⟨fun id other node node' place place' hmakes hmakes' hputs hputs' hsame => ?_,
    fun id node place object path step hmakes hputs hobject hkind => ?_⟩
  · obtain ⟨path, step, hnode, -, hpath⟩ := h.exists_same hmakes hputs
    obtain ⟨path', step', hnode', -, hpath'⟩ := h.exists_same hmakes' hputs'
    have heq : node = node' := by
      refine hunique node node' path path' step step' hnode hnode' ?_
      rw [Path.same_iff, ← hpath, ← hpath', ← Path.same_iff, hsame]
    exact ⟨h.placed.unique id other node hmakes (heq ▸ hmakes'), heq⟩
  · obtain ⟨path', step', hnode, hcompile, hpath⟩ := h.exists_same hmakes hputs
    refine Bool.eq_false_iff.mpr fun hsame => ?_
    have heq : node = object := by
      refine hunique node object path' path step' step hnode hobject ?_
      rw [Path.same_iff, ← hpath, ← Path.same_iff, hsame]
    rw [heq, hobject] at hnode
    cases hnode
    exact hcompile hkind

theorem uniqueProducers_of_placesApart (h : Ledger p ⟨q, [], []⟩) (hapart : PlacesApart p q) :
    q.graph.UniqueProducers := by
  -- an object and a product of another kind never share a path
  have hmixed : ∀ i j path path' step step', q.graph.kind? i = some (.file path (some step)) →
      q.graph.kind? j = some (.file path' (some step')) → step.kind ≠ .compile →
        step'.kind = .compile → path.same path' = false := by
    intro i j path path' step step' hi hj hki hkj
    obtain ⟨id, place, hmakes, hputs, hpath⟩ := h.exists_puts hi hki
    rw [Path.same, ← hpath]
    exact hapart.objects id i place j path' step' hmakes hputs hj hkj
  intro i j path path' step step' hi hj hsame
  by_cases hki : step.kind = .compile <;> by_cases hkj : step'.kind = .compile
  · exact h.objects_apart hi hj hki hkj hsame
  · rw [Path.same_comm, hmixed j i path' path step' step hj hi hkj hki] at hsame
    cases hsame
  · rw [hmixed i j path path' step step' hi hj hki hkj] at hsame
    cases hsame
  · obtain ⟨id, place, hmakes, hputs, hpath⟩ := h.exists_puts hi hki
    obtain ⟨other, place', hmakes', hputs', hpath'⟩ := h.exists_puts hj hkj
    refine (hapart.targets id other i j place place' hmakes hmakes' hputs hputs' ?_).2
    rw [Path.same_iff, hpath, hpath', ← Path.same_iff, hsame]

/-- Every path has one producer exactly if no two outputs or copies are put at one
place, and none where an object is. The statements of the Ninja file have different
outputs exactly if, moreover, no group goes by the path of another output. -/
theorem uniqueProducers_iff {exist : Path → Bool} {u : Unit} (hfresh : p.Fresh)
    (h : Yields (Project.resolve exist) p u q) :
    (q.graph.UniqueProducers ↔ PlacesApart p q) ∧
      ∀ file, Ninja.File.ofProject q = .ok file →
        ((file.edges.map Ninja.Edge.path).Pairwise (fun a b => a.same b = false) ↔
          PlacesApart p q ∧ q.graph.GroupsApart) := by
  obtain ⟨_, _, _, hparts⟩ := resolveAll_inv hfresh.sound (resolve_inv h)
  have hledger := hparts.ledger hfresh
  have hiff : q.graph.UniqueProducers ↔ PlacesApart p q :=
    ⟨placesApart_of_uniqueProducers hledger, uniqueProducers_of_placesApart hledger⟩
  refine ⟨hiff, fun file hfile => ?_⟩
  rw [Ninja.pairwise_paths_iff hfile, hiff]

theorem yields_copied_twice : Yields (Project.resolve fun _ => true) (copying ["c", "c"]) ()
    (copied ["c", "c"]) :=
  yields_copied (by cbv)

/-- Two targets that copy to one place leave two nodes for it. -/
theorem not_uniqueProducers_copied_twice : ¬ (copied ["c", "c"]).graph.UniqueProducers := by
  intro hunique
  have hcopies : ∀ i, i = 2 ∨ i = 3 → (copied ["c", "c"]).graph.kind? ⟨i⟩ = some (.file ⟨"c"⟩
      (some { copyStep (some ⟨0⟩) ⟨0⟩ with command := some [⟨[.text "cp"]⟩] })) := by
    rintro i (rfl | rfl) <;> cbv
  cases hunique _ _ _ _ _ _ (hcopies 2 (.inl rfl)) (hcopies 3 (.inr rfl)) (Path.same_refl _)

theorem not_placesApart_copied_twice :
    (copying ["c", "c"]).Fresh ∧
      Yields (Project.resolve fun _ => true) (copying ["c", "c"]) () (copied ["c", "c"]) ∧
      ¬ PlacesApart (copying ["c", "c"]) (copied ["c", "c"]) := by
  refine ⟨fresh_copying _, yields_copied_twice, fun hapart => not_uniqueProducers_copied_twice ?_⟩
  exact (uniqueProducers_iff (fresh_copying _) yields_copied_twice).1.mpr hapart

/-- Resolution does not see to it that every path has one producer. -/
theorem not_forall_uniqueProducers : ¬ ∀ (p q : Project) (exist : Path → Bool), p.Fresh →
    Yields (Project.resolve exist) p () q → q.graph.UniqueProducers :=
  fun hall => not_uniqueProducers_copied_twice (hall _ _ _ (fresh_copying _) yields_copied_twice)

end BuildPlan.Resolve
