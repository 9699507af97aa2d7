import BuildPlan.Project

/-!
# BuildPlan.Proofs.Build

Runs of `Build` that succeed. A successful run of a `do` block decomposes into
successful runs of its steps, and each step that is no further block says what it
returns and which project it leaves.
-/

namespace BuildPlan.Build

variable {α β : Type} {p q r : Project} {e : BuildError}

/-- Run on `p`, `m` returns `a` and leaves `q`. -/
def Yields (m : Build α) (p : Project) (a : α) (q : Project) : Prop := m.run.run p = (.ok a, q)

theorem run_bind (m : Build α) (f : α → Build β) (p : Project) :
    (m >>= f).run.run p =
      match m.run.run p with
      | (.ok a, q) => (f a).run.run q
      | (.error e, q) => (.error e, q) := by
  simp only [ExceptT.run_bind, StateT.run_bind]
  rcases m.run.run p with ⟨_ | _, _⟩ <;> rfl

/-- A step that fails ends the block. -/
theorem run_bind_of_error {m : Build α} (h : m.run.run p = (.error e, q)) (f : α → Build β) :
    (m >>= f).run.run p = (.error e, q) := by
  rw [run_bind, h]

@[simp] theorem yields_bind {m : Build α} {f : α → Build β} {b : β} :
    Yields (m >>= f) p b r ↔ ∃ a q, Yields m p a q ∧ Yields (f a) q b r := by
  unfold Yields
  rw [run_bind]
  -- a step that fails yields nothing, and neither does the block
  rcases m.run.run p with ⟨e | a, q⟩
  · constructor
    · intro h
      cases h
    · rintro ⟨_, _, h, -⟩
      cases h
  · constructor
    · intro h
      exact ⟨a, q, rfl, h⟩
    · rintro ⟨_, _, heq, h⟩
      cases heq
      exact h

/-! ### Single steps -/

/-- A run whose outcome is known to be a success. -/
theorem yields_iff_of_run {m : Build α} {a b : α} (h : m.run.run p = (.ok b, r)) :
    Yields m p a q ↔ a = b ∧ q = r := by
  unfold Yields
  rw [h, Prod.mk.injEq, Except.ok.injEq, eq_comm, @eq_comm _ r]

@[simp] theorem yields_pure {a b : α} : Yields (pure a) p b q ↔ b = a ∧ q = p :=
  yields_iff_of_run rfl

@[simp] theorem not_yields_throw {a : α} : ¬ Yields (throw e) p a q := by
  intro h
  cases h

@[simp] theorem yields_get : Yields get p r q ↔ r = p ∧ q = p := yields_iff_of_run rfl

@[simp] theorem yields_set {u : PUnit} : Yields (set r) p u q ↔ q = r :=
  (yields_iff_of_run rfl).trans (and_iff_right rfl)

@[simp] theorem yields_modify {f : Project → Project} {u : PUnit} :
    Yields (modify f) p u q ↔ q = f p :=
  (yields_iff_of_run rfl).trans (and_iff_right rfl)

@[simp] theorem yields_modifyGet {f : Project → α × Project} {a : α} :
    Yields (modifyGet f) p a q ↔ a = (f p).1 ∧ q = (f p).2 :=
  yields_iff_of_run rfl

@[simp] theorem yields_liftExcept {x : Except BuildError α} {a : α} :
    Yields (liftM x) p a q ↔ x = .ok a ∧ q = p := by
  cases x with
  | error e =>
      constructor
      · intro h
        cases h
      · rintro ⟨h, -⟩
        cases h
  | ok b =>
      rw [Except.ok.injEq, @eq_comm _ b]
      exact yields_iff_of_run rfl

@[simp] theorem yields_liftState {x : StateM Project α} {a : α} :
    Yields (liftM x) p a q ↔ a = (x.run p).1 ∧ q = (x.run p).2 :=
  yields_iff_of_run rfl

/-! ### Blocks that start with a step -/

section Start

variable {b : β}

theorem yields_bind_iff_of_run {m : Build α} {f : α → Build β} {a : α}
    (h : m.run.run p = (.ok a, q)) : Yields (m >>= f) p b r ↔ Yields (f a) q b r := by
  unfold Yields
  rw [run_bind, h]

theorem yields_get_bind {f : Project → Build β} :
    Yields (get >>= f) p b r ↔ Yields (f p) p b r :=
  yields_bind_iff_of_run rfl

theorem yields_set_bind {f : PUnit → Build β} :
    Yields (set q >>= f) p b r ↔ Yields (f ⟨⟩) q b r :=
  yields_bind_iff_of_run rfl

theorem yields_modify_bind {change : Project → Project} {f : PUnit → Build β} :
    Yields (modify change >>= f) p b r ↔ Yields (f ⟨⟩) (change p) b r :=
  yields_bind_iff_of_run rfl

theorem yields_modifyGet_bind {change : Project → α × Project} {f : α → Build β} :
    Yields (modifyGet change >>= f) p b r ↔ Yields (f (change p).1) (change p).2 b r :=
  yields_bind_iff_of_run rfl

theorem yields_liftState_bind {x : StateM Project α} {f : α → Build β} :
    Yields (liftM x >>= f) p b r ↔ Yields (f (x.run p).1) (x.run p).2 b r :=
  yields_bind_iff_of_run rfl

end Start

/-! ### Loops -/

/-- If each turn of a loop is a step of a relation, the loop is a path along it. -/
theorem Yields.forM {R : Project → Project → Prop} (hrefl : ∀ p, R p p)
    (htrans : ∀ p q r, R p q → R q r → R p r) {f : α → Build PUnit} {as : List α}
    (hstep : ∀ a ∈ as, ∀ p q, Yields (f a) p ⟨⟩ q → R p q) {u : PUnit}
    (h : Yields (as.forM f) p u q) : R p q := by
  induction as generalizing p with
  | nil =>
      obtain ⟨-, rfl⟩ := yields_pure.mp h
      exact hrefl q
  | cons a as ih =>
      obtain ⟨_, r, hfirst, hrest⟩ := yields_bind.mp h
      exact htrans p r q (hstep a List.mem_cons_self p r hfirst)
        (ih (fun b hb => hstep b (List.mem_cons_of_mem a hb)) hrest)

/-! ### Two runs -/

/-- If two runs succeed, their results and the projects they leave are related. -/
def Coupled (m m' : Build α) (p p' : Project) (Q : α → α → Project → Project → Prop) : Prop :=
  ∀ a a' q q', Yields m p a q → Yields m' p' a' q' → Q a a' q q'

section Coupled

variable {m m' : Build α} {f f' : α → Build β} {p' q' : Project}
  {Q : β → β → Project → Project → Prop} {R : α → α → Project → Project → Prop}

theorem coupled_pure {a a' : α} (h : R a a' p p') : Coupled (pure a) (pure a') p p' R := by
  intro b b' q q' hyields hyields'
  obtain ⟨rfl, rfl⟩ := yields_pure.mp hyields
  obtain ⟨rfl, rfl⟩ := yields_pure.mp hyields'
  exact h

theorem Coupled.bind (h : Coupled m m' p p' R)
    (hf : ∀ a a' q q', R a a' q q' → Coupled (f a) (f' a') q q' Q) :
    Coupled (m >>= f) (m' >>= f') p p' Q := by
  intro b b' r r' hyields hyields'
  obtain ⟨a, q, hm, hrest⟩ := yields_bind.mp hyields
  obtain ⟨a', q', hm', hrest'⟩ := yields_bind.mp hyields'
  exact hf a a' q q' (h a a' q q' hm hm') b b' r r' hrest hrest'

theorem Coupled.imp {R' : α → α → Project → Project → Prop} (h : Coupled m m' p p' R)
    (himp : ∀ a a' q q', R a a' q q' → R' a a' q q') : Coupled m m' p p' R' :=
  fun a a' q q' hyields hyields' => himp a a' q q' (h a a' q q' hyields hyields')

/-- What is known of the first run alone. -/
theorem Coupled.with_left {U : α → Project → Prop} (h : Coupled m m' p p' R)
    (hleft : ∀ a q, Yields m p a q → U a q) :
    Coupled m m' p p' fun a a' q q' => U a q ∧ R a a' q q' :=
  fun a a' q q' hyields hyields' => ⟨hleft a q hyields, h a a' q q' hyields hyields'⟩

theorem coupled_get_bind {f f' : Project → Build β} (h : Coupled (f p) (f' p') p p' Q) :
    Coupled (get >>= f) (get >>= f') p p' Q :=
  fun b b' r r' hyields hyields' =>
    h b b' r r' (yields_get_bind.mp hyields) (yields_get_bind.mp hyields')

theorem coupled_set_bind {f f' : PUnit → Build β} (h : Coupled (f ⟨⟩) (f' ⟨⟩) q q' Q) :
    Coupled (set q >>= f) (set q' >>= f') p p' Q :=
  fun b b' r r' hyields hyields' =>
    h b b' r r' (yields_set_bind.mp hyields) (yields_set_bind.mp hyields')

theorem coupled_modify {change change' : Project → Project}
    {R : PUnit → PUnit → Project → Project → Prop} (h : R ⟨⟩ ⟨⟩ (change p) (change' p')) :
    Coupled (modify change) (modify change') p p' R := by
  intro _ _ q q' hyields hyields'
  rw [yields_modify.mp hyields, yields_modify.mp hyields']
  exact h

theorem coupled_modify_bind {change change' : Project → Project} {f f' : PUnit → Build β}
    (h : Coupled (f ⟨⟩) (f' ⟨⟩) (change p) (change' p') Q) :
    Coupled (modify change >>= f) (modify change' >>= f') p p' Q :=
  fun b b' r r' hyields hyields' =>
    h b b' r r' (yields_modify_bind.mp hyields) (yields_modify_bind.mp hyields')

theorem coupled_modifyGet_bind {change change' : Project → α × Project}
    (h : Coupled (f (change p).1) (f' (change' p').1) (change p).2 (change' p').2 Q) :
    Coupled (modifyGet change >>= f) (modifyGet change' >>= f') p p' Q :=
  fun b b' r r' hyields hyields' =>
    h b b' r r' (yields_modifyGet_bind.mp hyields) (yields_modifyGet_bind.mp hyields')

theorem coupled_liftState_bind {x x' : StateM Project α}
    (h : Coupled (f (x.run p).1) (f' (x'.run p').1) (x.run p).2 (x'.run p').2 Q) :
    Coupled (liftM x >>= f) (liftM x' >>= f') p p' Q :=
  fun b b' r r' hyields hyields' =>
    h b b' r r' (yields_liftState_bind.mp hyields) (yields_liftState_bind.mp hyields')

/-- A loop relates what each of its turns relates. -/
theorem coupled_forM {R : Project → Project → Prop} {f : α → Build PUnit} {as : List α}
    (h : R p p') (hstep : ∀ a ∈ as, ∀ p p', R p p' →
      Coupled (f a) (f a) p p' fun _ _ q q' => R q q') :
    Coupled (as.forM f) (as.forM f) p p' fun _ _ q q' => R q q' := by
  induction as generalizing p p' with
  | nil => exact coupled_pure h
  | cons a as ih =>
      refine (hstep a List.mem_cons_self p p' h).bind fun _ _ q q' hq => ?_
      exact ih hq fun b hb => hstep b (List.mem_cons_of_mem a hb)

theorem coupled_foldlM {γ : Type} {R : β → β → Project → Project → Prop} {f f' : β → γ → Build β}
    {cs : List γ} {b b' : β} (h : R b b' p p')
    (hstep : ∀ c ∈ cs, ∀ b b' p p', R b b' p p' → Coupled (f b c) (f' b' c) p p' R) :
    Coupled (cs.foldlM f b) (cs.foldlM f' b') p p' R := by
  induction cs generalizing b b' p p' with
  | nil => exact coupled_pure h
  | cons c cs ih =>
      rw [List.foldlM_cons, List.foldlM_cons]
      refine (hstep c List.mem_cons_self b b' p p' h).bind fun _ _ q q' hq => ?_
      exact ih hq fun c' hc => hstep c' (List.mem_cons_of_mem c hc)

end Coupled

end BuildPlan.Build
