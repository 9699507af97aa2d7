import BuildPlan.Proofs.Graph.Postorder
import BuildPlan.Proofs.Project.Usage
import BuildPlan.Resolve
import Mathlib.Tactic.IntervalCases

/-!
# BuildPlan.Proofs.Project.Reached

The targets that a target reaches along its links, in the orders in which
resolution looks at them: dependencies first, and for linking dependents first.
A dependency comes before one that it is linked to only where both lie on a cycle.
-/

namespace BuildPlan

open BuildPlan.Graph

namespace Project

variable {p q : Project} {id dep below : TargetId}

/-- One target depends on another one, directly or not. -/
abbrev Reaches (p : Project) : TargetId → TargetId → Prop :=
  Relation.TransGen (p.DependsOn p.targetIds)

/-! ### The transitive dependencies -/

theorem mem_transitiveDependencies :
    dep ∈ p.transitiveDependencies id ↔ dep ≠ id ∧ p.Reaches id dep := by
  rw [transitiveDependencies, mem_postorder_iff, leaves_enterAll, entries_enterAll,
    ← reachedTargets,
    mem_reachedTargets, or_iff_right List.not_mem_nil]

theorem nodup_transitiveDependencies (p : Project) (id : TargetId) :
    (p.transitiveDependencies id).Nodup :=
  nodup_postorder _ ((nodup_targetIds p).erase id) _

/-- A dependency comes after each target it depends on that does not depend on it as well. -/
theorem idxOf_lt_of_dependsOn (hdep : dep ∈ p.transitiveDependencies id)
    (hedge : p.DependsOn p.targetIds dep below) (hback : ¬ p.Reaches below dep) :
    (p.transitiveDependencies id).idxOf below < (p.transitiveDependencies id).idxOf dep := by
  obtain ⟨hne, hreached⟩ := mem_transitiveDependencies.mp hdep
  -- an edge back to `id` would lie on a cycle, since `id` leads to where it starts
  have hbelow : below ≠ id := by
    intro heq
    exact hback (heq ▸ hreached)
  have hdomain : (p.targetIds.erase id).Nodup := (nodup_targetIds p).erase id
  rcases left_before_or_leads_back hdomain hdep (hedge.erase hne hbelow) with hsub | hpath
  · exact idxOf_lt_of_sublist hsub (nodup_transitiveDependencies p id)
  · exact absurd (transGen_of_erase hpath) hback

/-- Where no cycle is reached, it comes after all targets that it leads to. -/
theorem idxOf_lt_of_reaches (hacyclic : ∀ v, p.Reaches id v → ¬ p.Reaches v v)
    (hdep : dep ∈ p.transitiveDependencies id) (hpath : p.Reaches dep below) :
    (p.transitiveDependencies id).idxOf below < (p.transitiveDependencies id).idxOf dep := by
  have hreached : p.Reaches id dep := (mem_transitiveDependencies.mp hdep).2
  induction hpath with
  | single hedge =>
      refine idxOf_lt_of_dependsOn hdep hedge ?_
      intro hback
      exact hacyclic dep hreached (.head hedge hback)
  | @tail middle below hpath hedge ih =>
      have hmiddle : middle ∈ p.transitiveDependencies id :=
        List.idxOf_lt_length_iff.mp (ih.trans (List.idxOf_lt_length_of_mem hdep))
      refine (idxOf_lt_of_dependsOn hmiddle hedge ?_).trans ih
      intro hback
      exact hacyclic middle (hreached.trans hpath) (.head hedge hback)

/-- No dependency comes before one that it depends on itself. -/
theorem pairwise_transitiveDependencies (hacyclic : Acyclic (p.DependsOn p.targetIds))
    (id : TargetId) :
    (p.transitiveDependencies id).Pairwise fun a b => ¬ p.Reaches a b := by
  have hnodup := nodup_transitiveDependencies p id
  rw [List.pairwise_iff_getElem]
  intro i j hi hj hlt hpath
  have hback := idxOf_lt_of_reaches (fun v _ => hacyclic v) (List.getElem_mem hi) hpath
  rw [hnodup.idxOf_getElem i hi, hnodup.idxOf_getElem j hj] at hback
  omega

/-- The transitive dependencies of a target, whatever cycles there are. The search by recursion
from the target, which counts as seen, comes to an end and finds this list and no other. It
holds the other targets that the target reaches, each once. A dependency comes after each target
it depends on that does not lead back to it, and after all that it depends on, directly or not,
where no cycle is reached. -/
theorem transitiveDependencies_exact (p : Project) (id : TargetId) :
    (∀ found, (∃ left, Searches p.dependenciesOf (p.targetIds.erase id) (p.dependenciesOf id)
        found left) ↔ found = p.transitiveDependencies id) ∧
    (p.transitiveDependencies id).Nodup ∧
    (∀ dep, dep ∈ p.transitiveDependencies id ↔ dep ≠ id ∧ p.Reaches id dep) ∧
    (∀ dep ∈ p.transitiveDependencies id, ∀ below, p.DependsOn p.targetIds dep below →
      ¬ p.Reaches below dep →
      (p.transitiveDependencies id).idxOf below < (p.transitiveDependencies id).idxOf dep) ∧
    ((∀ v, p.Reaches id v → ¬ p.Reaches v v) →
      ∀ dep ∈ p.transitiveDependencies id, ∀ below, p.Reaches dep below →
      (p.transitiveDependencies id).idxOf below < (p.transitiveDependencies id).idxOf dep) := by
  refine ⟨?_, nodup_transitiveDependencies p id, ?_, ?_, ?_⟩
  · intro found
    exact exists_searches_iff
  · intro dep
    exact mem_transitiveDependencies
  · intro dep hdep below hedge hback
    exact idxOf_lt_of_dependsOn hdep hedge hback
  · intro hacyclic dep hdep below hpath
    exact idxOf_lt_of_reaches hacyclic hdep hpath

/-- Three targets that lead down to each other, and two on a cycle above them. -/
def belowCycle : Project where
  name := "below"
  targets := #[{ name := "base", type := .staticLibrary },
    { name := "lib", type := .staticLibrary, dependencies := [⟨0⟩] },
    { name := "app", type := .program, dependencies := [⟨1⟩, ⟨0⟩] },
    { name := "left", type := .program, dependencies := [⟨4⟩] },
    { name := "right", type := .program, dependencies := [⟨3⟩, ⟨2⟩] }]

theorem transitiveDependencies_exact_belowCycle :
    (∀ v, belowCycle.Reaches ⟨2⟩ v → ¬ belowCycle.Reaches v v) ∧
      ⟨1⟩ ∈ belowCycle.transitiveDependencies ⟨2⟩ ∧ belowCycle.Reaches ⟨1⟩ ⟨0⟩ ∧
      (belowCycle.transitiveDependencies ⟨2⟩).idxOf ⟨0⟩ <
        (belowCycle.transitiveDependencies ⟨2⟩).idxOf ⟨1⟩ := by
  have hedge : ∀ a b, belowCycle.DependsOn belowCycle.targetIds a b → a.index < 3 →
      b.index < a.index := by
    intro a b h hlt
    obtain ⟨i⟩ := a
    have hmem := h.2.2
    simp only at hlt
    interval_cases i <;> simp [dependenciesOf, target?, belowCycle] at hmem ⊢ <;> grind
  -- below the cycle every step leads to a smaller index
  have hdown : ∀ a b, belowCycle.Reaches a b → a.index < 3 → b.index < a.index := by
    intro a b hpath hlt
    induction hpath with
    | single h => exact hedge _ _ h hlt
    | tail _ h ih => exact (hedge _ _ h (by omega)).trans ih
  have hacyclic : ∀ v, belowCycle.Reaches ⟨2⟩ v → ¬ belowCycle.Reaches v v := by
    intro v hv hback
    have hlt : v.index < 2 := hdown _ _ hv (by decide)
    exact Nat.lt_irrefl _ (hdown v v hback (by omega))
  have hlib : (⟨1⟩ : TargetId) ∈ belowCycle.transitiveDependencies ⟨2⟩ := by
    rw [mem_transitiveDependencies]
    refine ⟨by decide, .single ⟨?_, ?_, ?_⟩⟩ <;> simp [dependenciesOf, target?, belowCycle]
  have hbase : belowCycle.Reaches ⟨1⟩ ⟨0⟩ := by
    refine .single ⟨?_, ?_, ?_⟩ <;> simp [dependenciesOf, target?, belowCycle]
  exact ⟨hacyclic, hlib, hbase,
    (transitiveDependencies_exact belowCycle ⟨2⟩).2.2.2.2 hacyclic ⟨1⟩ hlib ⟨0⟩ hbase⟩

example : mutualPair.transitiveDependencies ⟨0⟩ = [⟨1⟩] := by cbv

/-! ### The order of linking -/

/-- The targets of certain types that a target reaches, each once and before those
that it depends on itself. -/
structure LinkOrder (p : Project) (id : TargetId) (types : TargetType → Prop)
    (deps : List TargetId) : Prop where
  nodup : deps.Nodup
  mem : ∀ dep, dep ∈ deps ↔
    p.Reaches id dep ∧ ∃ t, p.target? dep = some t ∧ types t.type
  sorted : ∀ a ∈ deps, ∀ b ∈ deps, p.Reaches a b → deps.idxOf a < deps.idxOf b

theorem LinkOrder.of_iff {types types' : TargetType → Prop} {deps : List TargetId}
    (h : LinkOrder p id types deps) (htypes : ∀ type, types type ↔ types' type) :
    LinkOrder p id types' deps := by
  obtain rfl : types = types' := funext fun type => propext (htypes type)
  exact h

theorem idxOf_lt_of_pairwise {α : Type} [DecidableEq α] {l : List α} {R : α → α → Prop} {a b : α}
    (hpairwise : l.Pairwise fun x y => ¬ R y x) (hirrefl : ∀ x, ¬ R x x) (ha : a ∈ l) (hb : b ∈ l)
    (h : R a b) : l.idxOf a < l.idxOf b := by
  refine Nat.lt_of_not_le fun hle => ?_
  have hia := List.idxOf_lt_length_of_mem ha
  have hib := List.idxOf_lt_length_of_mem hb
  rcases Nat.lt_or_eq_of_le hle with hlt | heq
  · have hnot := List.pairwise_iff_getElem.mp hpairwise _ _ hib hia hlt
    rw [List.getElem_idxOf, List.getElem_idxOf] at hnot
    exact hnot h
  · rw [(List.idxOf_inj hb).mp heq] at h
    exact hirrefl a h

theorem linkOrder_filter (hacyclic : Acyclic (p.DependsOn p.targetIds)) (id : TargetId)
    (test : TargetType → Bool) :
    LinkOrder p id (fun type => test type = true)
      ((p.transitiveDependencies id).reverse.filter fun dep =>
        (p.target? dep).any fun t => test t.type) := by
  have hpairwise : (p.transitiveDependencies id).reverse.Pairwise fun a b => ¬ p.Reaches b a :=
    List.pairwise_reverse.mpr (pairwise_transitiveDependencies hacyclic id)
  refine ⟨?_, fun dep => ?_, fun a ha b hb hpath => ?_⟩
  · exact (List.nodup_reverse.mpr (nodup_transitiveDependencies p id)).filter _
  · rw [List.mem_filter, List.mem_reverse, mem_transitiveDependencies, Option.any_eq_true]
    refine and_congr_left fun _ => and_iff_right_of_imp fun hpath heq => ?_
    exact hacyclic id (heq ▸ hpath)
  · exact idxOf_lt_of_pairwise (hpairwise.filter _) hacyclic ha hb hpath

end Project

namespace Resolve

open Project

variable {p : Project}

/-- On the link line of a target, objects come before libraries. -/
theorem linkedTargets_ordered (hacyclic : Acyclic (p.DependsOn p.targetIds)) (id : TargetId) :
    ∃ objects libraries, linkedTargets p id = objects ++ libraries ∧
      LinkOrder p id (· = .object) objects ∧
      LinkOrder p id (fun type => type = .staticLibrary ∨ type = .sharedLibrary) libraries := by
  -- two tests of a target are one test
  have hboth : ∀ (first second : Target → Bool) dep,
      ((p.target? dep).any first && (p.target? dep).any second) =
        (p.target? dep).any fun t => first t && second t := by
    intro first second dep
    cases p.target? dep <;> rfl
  have hobjects := linkOrder_filter hacyclic id fun type =>
    decide (type = .object) && type.linksIntoDependents
  have hlibraries := linkOrder_filter hacyclic id fun type =>
    decide (type ≠ .object) && type.linksIntoDependents
  refine ⟨_, _, ?_, hobjects.of_iff fun type => ?_, hlibraries.of_iff fun type => ?_⟩
  · rw [linkedTargets, List.filter_filter, List.filter_filter]
    simp only [hboth]
  · cases type <;> simp [TargetType.linksIntoDependents]
  · cases type <;> simp [TargetType.linksIntoDependents]

end Resolve

end BuildPlan
