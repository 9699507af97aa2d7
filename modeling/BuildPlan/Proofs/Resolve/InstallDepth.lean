import BuildPlan.Proofs.Resolve.Advance
import Mathlib.Data.Finset.Card

/-!
# BuildPlan.Proofs.Resolve.InstallDepth

How far install targets are followed. Each step down takes a plan, and plans are not
made, so there are fewer steps than plans, also where targets name each other in a
circle. What is done at the bottom is never reached when the depth exceeds the plans.
-/

namespace BuildPlan

open Build

/-- The targets that have a plan left. -/
def Project.planned (p : Project) : Finset Nat :=
  (Finset.range p.targets.size).filter fun i => (p.plan? ⟨i⟩).isSome

namespace Resolve

open Project

variable {p q : Project} {id : TargetId} {stop : Build Unit} {depth : Nat}

/-- Carry out the plan of an install target, if it has one, with `install` for the targets
that it names. -/
def installNext (install : TargetId → Build Unit) (id : TargetId) : Build Unit := do
  let p ← get
  match p.target? id with
  | none => return ()
  | some target =>
    match target.pending with
    | none => return ()
    | some plan =>
      set (p.modifyTarget id fun target => { target with pending := none })
      let sources ← plan.sources.foldlM (findSource install) []
      let outputs ← copyAll target.name target.env sources plan.destination
      modify (·.modifyTarget id fun target => { target with outputs, resolved := true })

/-- Install as deep as it goes, and do something else at the bottom. -/
def installOr (stop : Build Unit) : Nat → TargetId → Build Unit
  | 0, _ => stop
  | depth + 1, id => installNext (installOr stop depth) id

theorem installOr_pure (depth : Nat) (id : TargetId) :
    installOr (pure ()) depth id = installWithin depth id := by
  induction depth generalizing id with
  | zero => rfl
  | succ depth ih =>
      rw [installOr, funext ih]
      rfl

/-! ### Plans run out -/

theorem mem_planned {i : Nat} : i ∈ p.planned ↔ ∃ plan, p.plan? ⟨i⟩ = some plan := by
  rw [Project.planned, Finset.mem_filter, Option.isSome_iff_exists, and_iff_right_of_imp]
  rintro ⟨plan, hplan⟩
  obtain ⟨t, ht, -⟩ := Option.bind_eq_some_iff.mp hplan
  exact Finset.mem_range.mpr (Array.getElem?_eq_some_iff.mp ht).1

theorem Advances.planned (h : Advances p q) : q.planned ⊆ p.planned := by
  intro i hi
  rw [mem_planned] at hi ⊢
  obtain ⟨plan, hplan⟩ := hi
  refine Option.ne_none_iff_exists'.mp fun hnone => ?_
  rw [h.plans ⟨i⟩ hnone] at hplan
  cases hplan

theorem card_planned_le (p : Project) : p.planned.card ≤ p.targets.size :=
  (Finset.card_filter_le _ _).trans_eq (Finset.card_range _)

theorem card_planned_take {plan : InstallPlan} (hplan : p.plan? id = some plan) :
    (p.modifyTarget id fun t => { t with pending := none }).planned.card < p.planned.card := by
  refine Finset.card_lt_card (Finset.ssubset_iff_of_subset (advances_take p id).planned |>.mpr ?_)
  refine ⟨id.index, mem_planned.mpr ⟨plan, hplan⟩, fun hmem => ?_⟩
  obtain ⟨plan', hplan'⟩ := mem_planned.mp hmem
  rw [plan?_taken p id] at hplan'
  cases hplan'

/-! ### The bottom is not reached -/

/-- Sources are found alike if the targets among them are installed alike. -/
theorem run_findSources {install install' : TargetId → Build Unit} {n : Nat}
    (hinstall : ∀ id p, p.planned.card < n → (install id).run.run p = (install' id).run.run p)
    (hadvances : ∀ id p, Leads Advances (install' id) p) (hcard : p.planned.card < n)
    (sources : List InstallSource) (found : List NodeId) :
    (sources.foldlM (findSource install) found).run.run p =
      (sources.foldlM (findSource install') found).run.run p := by
  induction sources generalizing p found with
  | nil => rfl
  | cons source rest ih =>
      have hfirst : (findSource install found source).run.run p =
          (findSource install' found source).run.run p := by
        cases source with
        | target dep =>
            rw [findSource, findSource, run_bind, run_bind, hinstall dep p hcard]
        | node | path => rfl
      rw [List.foldlM_cons, List.foldlM_cons, run_bind, run_bind, hfirst]
      have hle := advances_findSource hadvances found source p
      unfold Leads at hle
      rcases hrun : (findSource install' found source).run.run p with ⟨e | found', r⟩
      · rfl
      · rw [hrun] at hle
        exact ih ((Finset.card_le_card hle.planned).trans_lt hcard) found'

/-- A target is installed alike if those that it names are, once its plan has been taken. -/
theorem run_installNext {install install' : TargetId → Build Unit}
    (hinstall : ∀ dep r, r.planned.card < p.planned.card →
      (install dep).run.run r = (install' dep).run.run r)
    (hadvances : ∀ id p, Leads Advances (install' id) p) :
    (installNext install id).run.run p = (installNext install' id).run.run p := by
  unfold installNext
  rw [run_get_bind, run_get_bind]
  cases ht : p.target? id with
  | none => rfl
  | some t =>
      cases hpending : t.pending with
      | none => simp only [hpending]
      | some plan =>
          have hplan : p.plan? id = some plan := by
            rw [Project.plan?, ht, Option.bind_some, hpending]
          simp only [hpending]
          have htaken : ∀ f : PUnit → Build Unit,
              (set (p.modifyTarget id fun t => { t with pending := none }) >>= f).run.run p =
                (f ⟨⟩).run.run (p.modifyTarget id fun t => { t with pending := none }) :=
            fun _ => rfl
          rw [htaken, htaken, run_bind, run_bind,
            run_findSources hinstall hadvances (card_planned_take hplan)]

/-- With more steps than plans, neither the depth nor what is done at the bottom counts. -/
theorem run_installOr {depth' : Nat} (hdepth : p.planned.card < depth)
    (hdepth' : p.planned.card < depth') :
    (installOr stop depth id).run.run p = (installWithin depth' id).run.run p := by
  induction depth generalizing p id depth' with
  | zero => exact absurd hdepth (Nat.not_lt_zero _)
  | succ depth ih =>
      obtain ⟨depth', rfl⟩ := Nat.exists_eq_add_one_of_ne_zero (Nat.ne_zero_of_lt hdepth')
      refine run_installNext (fun dep r hr => ih ?_ ?_) (advances_installWithin depth')
      · omega
      · omega

/-- The depth at which targets are installed is never used up. -/
theorem run_installOr_eq_install (stop : Build Unit) (id : TargetId)
    (hdepth : p.targets.size < depth) :
    (installOr stop depth id).run.run p = (install id).run.run p := by
  rw [install, run_get_bind]
  have hcard := card_planned_le p
  exact run_installOr (by omega) (by omega)

/-- Each target that is named is installed in the same way, with no bound to how far they
are followed. -/
theorem run_install (p : Project) (id : TargetId) :
    (install id).run.run p = (installNext install id).run.run p := by
  conv => lhs; rw [install, run_get_bind]
  have hcard := card_planned_le p
  refine run_installNext (fun dep r hr => ?_) advances_install
  conv => rhs; rw [install, run_get_bind]
  have hcard' := card_planned_le r
  rw [← installOr_pure]
  exact run_installOr (by omega) (by omega)

end Resolve

end BuildPlan
