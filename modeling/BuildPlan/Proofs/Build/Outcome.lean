import BuildPlan.Proofs.Build

/-!
# BuildPlan.Proofs.Build.Outcome

Runs of `Build` that fail, and loops cut in two. A block fails where its first
failing step does, and what the steps before it have changed stays changed.
-/

namespace BuildPlan.Build

variable {α β γ : Type} {p q r : Project} {e : BuildError}

/-- Run on `p`, `m` fails with `e` and leaves `q`. -/
def Fails (m : Build α) (p : Project) (e : BuildError) (q : Project) : Prop :=
  m.run.run p = (.error e, q)

theorem run_get_bind {f : Project → Build β} :
    (get >>= f).run.run p = (f p).run.run p :=
  rfl

theorem run_liftState_bind {x : StateM Project α} {f : α → Build β} :
    (liftM x >>= f).run.run p = (f (x.run p).1).run.run (x.run p).2 :=
  rfl

theorem yields_or_fails (m : Build α) (p : Project) :
    (∃ a q, Yields m p a q) ∨ ∃ e q, Fails m p e q := by
  rcases hrun : m.run.run p with ⟨e | a, q⟩
  · exact .inr ⟨e, q, hrun⟩
  · exact .inl ⟨a, q, hrun⟩

theorem Yields.not_fails {m : Build α} {a : α} (h : Yields m p a q) : ¬ Fails m p e r := by
  intro hfails
  rw [Fails, h] at hfails
  cases hfails

/-- A run has one outcome. -/
theorem Fails.unique {m : Build α} {e' : BuildError} (h : Fails m p e q) (h' : Fails m p e' r) :
    e' = e ∧ r = q := by
  rw [Fails, h] at h'
  cases h'
  exact ⟨rfl, rfl⟩

theorem fails_bind {m : Build α} {f : α → Build β} :
    Fails (m >>= f) p e r ↔ Fails m p e r ∨ ∃ a q, Yields m p a q ∧ Fails (f a) q e r := by
  unfold Fails Yields
  rw [run_bind]
  rcases m.run.run p with ⟨e' | a, q⟩
  · constructor
    · intro h
      cases h
      exact .inl rfl
    · rintro (h | ⟨_, _, h, -⟩)
      · cases h
        rfl
      · cases h
  · constructor
    · intro h
      exact .inr ⟨a, q, rfl, h⟩
    · rintro (h | ⟨_, _, heq, h⟩)
      · cases h
      · cases heq
        exact h

/-! ### Single steps -/

@[simp] theorem not_fails_pure {a : α} : ¬ Fails (pure a) p e q :=
  (yields_pure.mpr ⟨rfl, rfl⟩).not_fails

@[simp] theorem not_fails_modify {f : Project → Project} : ¬ Fails (modify f) p e q :=
  (yields_modify (u := ⟨⟩) |>.mpr rfl).not_fails

@[simp] theorem not_fails_set : ¬ Fails (set r) p e q :=
  (yields_set (u := ⟨⟩) |>.mpr rfl).not_fails

@[simp] theorem fails_throw {e' : BuildError} :
    Fails (throw e' : Build α) p e q ↔ e = e' ∧ q = p := by
  constructor
  · intro h
    cases h
    exact ⟨rfl, rfl⟩
  · rintro ⟨rfl, rfl⟩
    rfl

@[simp] theorem fails_liftExcept {x : Except BuildError α} :
    Fails (liftM x : Build α) p e q ↔ x = .error e ∧ q = p := by
  cases x with
  | error e' =>
      constructor
      · intro h
        cases h
        exact ⟨rfl, rfl⟩
      · rintro ⟨h, rfl⟩
        cases h
        rfl
  | ok b =>
      constructor
      · intro h
        cases h
      · rintro ⟨h, -⟩
        cases h

/-! ### Blocks that start with a step -/

section Start

theorem fails_bind_iff_of_run {m : Build α} {f : α → Build β} {a : α}
    (h : m.run.run p = (.ok a, q)) : Fails (m >>= f) p e r ↔ Fails (f a) q e r := by
  unfold Fails
  rw [run_bind, h]

theorem fails_get_bind {f : Project → Build β} : Fails (get >>= f) p e r ↔ Fails (f p) p e r :=
  fails_bind_iff_of_run rfl

theorem fails_set_bind {f : PUnit → Build β} : Fails (set q >>= f) p e r ↔ Fails (f ⟨⟩) q e r :=
  fails_bind_iff_of_run rfl

theorem fails_modify_bind {change : Project → Project} {f : PUnit → Build β} :
    Fails (modify change >>= f) p e r ↔ Fails (f ⟨⟩) (change p) e r :=
  fails_bind_iff_of_run rfl

theorem fails_modifyGet_bind {change : Project → α × Project} {f : α → Build β} :
    Fails (modifyGet change >>= f) p e r ↔ Fails (f (change p).1) (change p).2 e r :=
  fails_bind_iff_of_run rfl

theorem fails_liftState_bind {x : StateM Project α} {f : α → Build β} :
    Fails (liftM x >>= f) p e r ↔ Fails (f (x.run p).1) (x.run p).2 e r :=
  fails_bind_iff_of_run rfl

end Start

/-! ### Loops -/

section Loops

variable {f : α → Build PUnit} {g : β → α → Build β}

theorem yields_forM_append {as bs : List α} {u : PUnit} :
    Yields ((as ++ bs).forM f) p u r ↔
      ∃ q, Yields (as.forM f) p ⟨⟩ q ∧ Yields (bs.forM f) q u r := by
  induction as generalizing p with
  | nil =>
      constructor
      · intro h
        exact ⟨p, yields_pure.mpr ⟨rfl, rfl⟩, h⟩
      · rintro ⟨q, hpure, h⟩
        obtain ⟨-, rfl⟩ := yields_pure.mp hpure
        exact h
  | cons a as ih =>
      constructor
      · intro h
        obtain ⟨_, s, hfirst, hrest⟩ := yields_bind.mp h
        obtain ⟨q, hbefore, hafter⟩ := ih.mp hrest
        exact ⟨q, yields_bind.mpr ⟨⟨⟩, s, hfirst, hbefore⟩, hafter⟩
      · rintro ⟨q, hbefore, hafter⟩
        obtain ⟨_, s, hfirst, hrest⟩ := yields_bind.mp hbefore
        exact yields_bind.mpr ⟨⟨⟩, s, hfirst, ih.mpr ⟨q, hrest, hafter⟩⟩

/-- A loop fails in the turn of one of its elements, the ones before having had theirs. -/
theorem fails_forM {as : List α} :
    Fails (as.forM f) p e r ↔ ∃ before a after q, as = before ++ a :: after ∧
      Yields (before.forM f) p ⟨⟩ q ∧ Fails (f a) q e r := by
  induction as generalizing p with
  | nil =>
      constructor
      · intro h
        exact absurd h not_fails_pure
      · rintro ⟨before, a, after, q, heq, -⟩
        simp at heq
  | cons first rest ih =>
      constructor
      · intro h
        rcases fails_bind.mp h with hfirst | ⟨_, s, hfirst, hrest⟩
        · exact ⟨[], first, rest, p, rfl, yields_pure.mpr ⟨rfl, rfl⟩, hfirst⟩
        · obtain ⟨before, a, after, q, rfl, hbefore, ha⟩ := ih.mp hrest
          exact ⟨first :: before, a, after, q, rfl,
            yields_bind.mpr ⟨⟨⟩, s, hfirst, hbefore⟩, ha⟩
      · rintro ⟨before, a, after, q, heq, hbefore, ha⟩
        refine fails_bind.mpr ?_
        cases before with
        | nil =>
            obtain ⟨-, rfl⟩ := yields_pure.mp hbefore
            cases heq
            exact .inl ha
        | cons b before =>
            cases heq
            obtain ⟨_, s, hfirst, hrest⟩ := yields_bind.mp hbefore
            exact .inr ⟨⟨⟩, s, hfirst, ih.mpr ⟨before, a, after, q, rfl, hrest, ha⟩⟩

/-- A fold fails in the turn of one of its elements. -/
theorem fails_foldlM {as : List α} {b : β} :
    Fails (as.foldlM g b) p e r ↔ ∃ before a after c q, as = before ++ a :: after ∧
      Yields (before.foldlM g b) p c q ∧ Fails (g c a) q e r := by
  induction as generalizing p b with
  | nil =>
      constructor
      · intro h
        exact absurd h not_fails_pure
      · rintro ⟨before, a, after, c, q, heq, -⟩
        simp at heq
  | cons first rest ih =>
      rw [List.foldlM_cons]
      constructor
      · intro h
        rcases fails_bind.mp h with hfirst | ⟨c, s, hfirst, hrest⟩
        · exact ⟨[], first, rest, b, p, rfl, yields_pure.mpr ⟨rfl, rfl⟩, hfirst⟩
        · obtain ⟨before, a, after, d, q, rfl, hbefore, ha⟩ := ih.mp hrest
          refine ⟨first :: before, a, after, d, q, rfl, ?_, ha⟩
          rw [List.foldlM_cons]
          exact yields_bind.mpr ⟨c, s, hfirst, hbefore⟩
      · rintro ⟨before, a, after, d, q, heq, hbefore, ha⟩
        refine fails_bind.mpr ?_
        cases before with
        | nil =>
            obtain ⟨rfl, rfl⟩ := yields_pure.mp hbefore
            cases heq
            exact .inl ha
        | cons b' before =>
            cases heq
            rw [List.foldlM_cons] at hbefore
            obtain ⟨c, s, hfirst, hrest⟩ := yields_bind.mp hbefore
            exact .inr ⟨c, s, hfirst, ih.mpr ⟨before, a, after, d, q, rfl, hrest, ha⟩⟩

/-- A loop that collects results fails in the turn of one of its elements. -/
theorem fails_mapM {f : α → Build β} {as : List α} (h : Fails (as.mapM f) p e r) :
    ∃ before a after bs q, as = before ++ a :: after ∧ Yields (before.mapM f) p bs q ∧
      Fails (f a) q e r := by
  induction as generalizing p with
  | nil =>
      rw [List.mapM_nil] at h
      exact absurd h not_fails_pure
  | cons first rest ih =>
      rw [List.mapM_cons] at h
      rcases fails_bind.mp h with hfirst | ⟨b, s, hfirst, h⟩
      · refine ⟨[], first, rest, [], p, rfl, ?_, hfirst⟩
        rw [List.mapM_nil]
        exact yields_pure.mpr ⟨rfl, rfl⟩
      rcases fails_bind.mp h with hrest | ⟨_, _, -, hpure⟩
      · obtain ⟨before, a, after, bs, q, rfl, hbefore, ha⟩ := ih hrest
        refine ⟨first :: before, a, after, b :: bs, q, rfl, ?_, ha⟩
        rw [List.mapM_cons]
        exact yields_bind.mpr ⟨b, s, hfirst,
          yields_bind.mpr ⟨bs, q, hbefore, yields_pure.mpr ⟨rfl, rfl⟩⟩⟩
      · exact absurd hpure not_fails_pure

end Loops

end BuildPlan.Build
