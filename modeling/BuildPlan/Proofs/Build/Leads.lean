import BuildPlan.Proofs.Build.Outcome
import Mathlib.Order.Defs.Unbundled

/-!
# BuildPlan.Proofs.Build.Leads

What a run leaves behind, whether it succeeds or fails. A block leads along a
preorder of projects if each of its steps does, since a block that fails has taken
the steps before the one that fails.
-/

namespace BuildPlan.Build

variable {α β γ : Type} {R : Project → Project → Prop} {p q : Project}

/-- Run on `p`, `m` leaves a project that `R` relates `p` to, also if it fails. -/
def Leads (R : Project → Project → Prop) (m : Build α) (p : Project) : Prop :=
  R p (m.run.run p).2

theorem Leads.yields {m : Build α} {a : α} (h : Leads R m p) (hyields : Yields m p a q) :
    R p q := by
  rw [Leads, hyields] at h
  exact h

theorem leads_get_bind {f : Project → Build β} (h : Leads R (f p) p) : Leads R (get >>= f) p := h

theorem leads_set {r : Project} (h : R p r) : Leads R (set r) p := h

theorem leads_modify {change : Project → Project} (h : R p (change p)) :
    Leads R (modify change) p := h

/-- A step that succeeds and changes nothing. -/
theorem leads_idle_bind {m : Build α} {f : α → Build β} {a : α} (h : Yields m p a p)
    (hf : Leads R (f a) p) : Leads R (m >>= f) p := by
  rw [Leads, run_bind, h]
  exact hf

section Preorder

variable [IsPreorder Project R]

theorem leads_of_yields {m : Build α} {a : α} (h : Yields m p a p) : Leads R m p := by
  rw [Leads, h]
  exact refl p

theorem leads_pure (a : α) : Leads R (pure a) p := leads_of_yields (yields_pure.mpr ⟨rfl, rfl⟩)

theorem leads_throw (e : BuildError) : Leads R (throw e : Build α) p := refl p

theorem leads_liftExcept (x : Except BuildError α) : Leads R (liftM x : Build α) p := by
  cases x with
  | error e => exact refl p
  | ok a => exact leads_of_yields (yields_liftExcept.mpr ⟨rfl, rfl⟩)

theorem Leads.bind {m : Build α} {f : α → Build β} (h : Leads R m p)
    (hf : ∀ a q, Yields m p a q → Leads R (f a) q) : Leads R (m >>= f) p := by
  unfold Leads at h ⊢
  rw [run_bind]
  rcases hrun : m.run.run p with ⟨e | a, q⟩
  · rwa [hrun] at h
  · rw [hrun] at h
    exact IsTrans.trans _ _ _ h (hf a q hrun)

theorem leads_set_bind {r : Project} {f : PUnit → Build β} (h : R p r)
    (hf : Leads R (f ⟨⟩) r) : Leads R (set r >>= f) p :=
  IsTrans.trans _ _ _ h hf

theorem leads_modify_bind {change : Project → Project} {f : PUnit → Build β}
    (h : R p (change p)) (hf : Leads R (f ⟨⟩) (change p)) : Leads R (modify change >>= f) p :=
  IsTrans.trans _ _ _ h hf

theorem leads_modifyGet_bind {change : Project → α × Project} {f : α → Build β}
    (h : R p (change p).2) (hf : Leads R (f (change p).1) (change p).2) :
    Leads R (modifyGet change >>= f) p :=
  IsTrans.trans _ _ _ h hf

theorem leads_liftState_bind {x : StateM Project α} {f : α → Build β} (h : R p (x.run p).2)
    (hf : Leads R (f (x.run p).1) (x.run p).2) : Leads R (liftM x >>= f) p :=
  IsTrans.trans _ _ _ h hf

/-! ### Loops -/

theorem leads_forM {f : α → Build PUnit} (hf : ∀ a p, Leads R (f a) p) (as : List α) :
    Leads R (as.forM f) p := by
  induction as generalizing p with
  | nil => exact leads_pure PUnit.unit
  | cons a as ih => exact (hf a p).bind fun _ q _ => ih

theorem leads_foldlM {f : β → α → Build β} (hf : ∀ b a p, Leads R (f b a) p) (as : List α)
    (b : β) : Leads R (as.foldlM f b) p := by
  induction as generalizing b p with
  | nil => exact leads_pure b
  | cons a as ih =>
      rw [List.foldlM_cons]
      exact (hf b a p).bind fun b' q _ => ih b'

theorem leads_mapM {f : α → Build β} (hf : ∀ a p, Leads R (f a) p) (as : List α) :
    Leads R (as.mapM f) p := by
  induction as generalizing p with
  | nil =>
      rw [List.mapM_nil]
      exact leads_pure []
  | cons a as ih =>
      rw [List.mapM_cons]
      exact (hf a p).bind fun b q _ => ih.bind fun bs r _ => leads_pure (b :: bs)

/-- What the turn of an element brings about is there after the loop if later turns keep it. -/
theorem Yields.forM_brings {P : α → Project → Prop} {f : α → Build PUnit} {as : List α}
    (hleads : ∀ a p q, Yields (f a) p ⟨⟩ q → R p q)
    (hturn : ∀ a r s, R p r → Yields (f a) r ⟨⟩ s → P a s)
    (hkeep : ∀ a r s, R r s → P a r → P a s) (h : Yields (as.forM f) p ⟨⟩ q) :
    ∀ a ∈ as, P a q := by
  have hloop : ∀ (bs : List α) r s, Yields (bs.forM f) r ⟨⟩ s → R r s := fun bs r s hyields =>
    Yields.forM (fun p => refl p) IsTrans.trans (fun b _ => hleads b) hyields
  intro a ha
  obtain ⟨before, after, rfl⟩ := List.append_of_mem ha
  obtain ⟨r, hbefore, hrest⟩ := yields_forM_append.mp h
  obtain ⟨_, s, hfirst, hafter⟩ := yields_bind.mp hrest
  exact hkeep a s q (hloop after s q hafter) (hturn a r s (hloop before p r hbefore) hfirst)

end Preorder

end BuildPlan.Build
