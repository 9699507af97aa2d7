import BuildPlan.Proofs.Flag
import BuildPlan.Requirements

/-!
# BuildPlan.Proofs.Requirements

Merging the same requirements twice. Entries other than flags are compared one by one,
so merging them again changes nothing. Flags are compared by units, which are read off the
merged list anew: a flag that lacked its argument has one now if anything was added.
-/

namespace BuildPlan.Requirements

/-- Merging the same requirements again changes nothing exactly if their flags have settled. -/
theorem merge_again_iff (separated : SeparatedFlags) (reqs other : Requirements) :
    (reqs.merge separated other).merge separated other = reqs.merge separated other ↔
      Flag.Settles separated reqs.compileFlags other.compileFlags ∧
        Flag.Settles separated reqs.linkFlags other.linkFlags := by
  have htext : ∀ x : String, (x == x) = true := fun _ => beq_self_eq_true _
  rw [← Flag.merge_merge_iff, ← Flag.merge_merge_iff, Requirements.mk.injEq]
  simp only [merge, Flag.mergeUnique, Flag.appendNew_appendNew Path.same_refl,
    Flag.appendNew_appendNew htext, true_and]

/-- `-framework` lacks its argument until `Cocoa` is added, which is then a flag no more. -/
theorem not_forall_merge_again : ¬ ∀ (separated : SeparatedFlags) (reqs other : Requirements),
    (reqs.merge separated other).merge separated other = reqs.merge separated other := by
  intro hall
  have hagain := hall ⟨["-framework"]⟩ { compileFlags := ["-framework"] }
    { compileFlags := ["Cocoa"] }
  exact absurd (congrArg compileFlags hagain) (by decide)

end BuildPlan.Requirements
