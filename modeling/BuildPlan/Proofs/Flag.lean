import BuildPlan.Flag
import Mathlib.Data.List.Basic

/-!
# BuildPlan.Proofs.Flag

Units of flags under merging. How a word is grouped depends on all the words before
it, so the units of a concatenation are those of its parts unless the first part ends
in a flag that lacks its argument. A merge into a list without such an end adds units
and leaves the ones that are there alone.
-/

namespace BuildPlan

namespace FlagUnit

variable {separated : SeparatedFlags} {flag argument : String} {words rest base extra : List String}
  {unit : FlagUnit} {units : List FlagUnit}

@[simp] theorem flags_nil : flags [] = [] := rfl

@[simp] theorem flags_cons (unit : FlagUnit) (units : List FlagUnit) :
    flags (unit :: units) = unit.words ++ flags units := rfl

theorem flags_eq_nil_iff : flags units = [] ↔ units = [] := by
  cases units with
  | nil => simp
  | cons unit rest => cases unit <;> simp [FlagUnit.words]

/-! ### Grouping words -/

theorem ofFlags_cons_of_takes (h : separated.takesArgument flag = true) :
    ofFlags separated (flag :: argument :: rest) =
      pair flag argument :: ofFlags separated rest := by
  simp [ofFlags, h]

theorem ofFlags_cons_of_not_takes (h : separated.takesArgument flag = false) :
    ofFlags separated (flag :: rest) = single flag :: ofFlags separated rest := by
  cases rest <;> simp [ofFlags, h]

/-- A flag that takes an argument and has none. -/
def LacksArgument (separated : SeparatedFlags) : FlagUnit → Prop
  | single flag => separated.takesArgument flag = true
  | pair _ _ => False

/-- The last unit of the words is no flag that lacks its argument. -/
def EndsWhole (separated : SeparatedFlags) (words : List String) : Prop :=
  ∀ unit, (ofFlags separated words).getLast? = some unit → ¬ unit.LacksArgument separated

theorem endsWhole_nil (separated : SeparatedFlags) : EndsWhole separated [] := by
  intro unit hlast
  cases hlast

theorem endsWhole_singleton_iff :
    EndsWhole separated [flag] ↔ separated.takesArgument flag = false := by
  simp [EndsWhole, ofFlags, LacksArgument]

/-- Words end as they do behind their first unit. -/
theorem endsWhole_iff_of_units (hunits : ofFlags separated words = unit :: ofFlags separated rest)
    (hwhole : ¬ unit.LacksArgument separated) :
    EndsWhole separated words ↔ EndsWhole separated rest := by
  unfold EndsWhole
  rw [hunits, List.getLast?_cons]
  cases (ofFlags separated rest).getLast? with
  | none => simpa using hwhole
  | some last => simp

theorem endsWhole_cons_of_takes (h : separated.takesArgument flag = true) :
    EndsWhole separated (flag :: argument :: rest) ↔ EndsWhole separated rest :=
  endsWhole_iff_of_units (ofFlags_cons_of_takes h) id

theorem endsWhole_cons_of_not_takes (h : separated.takesArgument flag = false) :
    EndsWhole separated (flag :: rest) ↔ EndsWhole separated rest :=
  endsWhole_iff_of_units (ofFlags_cons_of_not_takes h) (by simp [LacksArgument, h])

/-- Behind words that end whole, grouping starts anew. -/
theorem ofFlags_append (h : EndsWhole separated base) :
    ofFlags separated (base ++ extra) = ofFlags separated base ++ ofFlags separated extra := by
  fun_induction ofFlags separated base with
  | case1 => rfl
  | case2 flag =>
      rw [List.singleton_append, ofFlags_cons_of_not_takes (endsWhole_singleton_iff.mp h)]
      rfl
  | case3 flag argument rest htakes ih =>
      rw [List.cons_append, List.cons_append, ofFlags_cons_of_takes htakes,
        ih ((endsWhole_cons_of_takes htakes).mp h)]
      rfl
  | case4 flag argument rest htakes ih =>
      have hfree : separated.takesArgument flag = false := by simpa using htakes
      rw [List.cons_append, ofFlags_cons_of_not_takes hfree,
        ih ((endsWhole_cons_of_not_takes hfree).mp h)]
      rfl

theorem not_endsWhole_append (h : EndsWhole separated base)
    (htakes : separated.takesArgument flag = true) : ¬ EndsWhole separated (base ++ [flag]) := by
  intro hwhole
  have hlast : (ofFlags separated (base ++ [flag])).getLast? = some (single flag) := by
    simp [ofFlags_append h, ofFlags]
  exact hwhole _ hlast htakes

/-- Words end whole, or in a flag that lacks its argument. -/
theorem endsWhole_or_open (separated : SeparatedFlags) (words : List String) :
    EndsWhole separated words ∨ ∃ before flag, words = before ++ [flag] ∧
      separated.takesArgument flag = true ∧ EndsWhole separated before := by
  fun_induction ofFlags separated words with
  | case1 => exact .inl (endsWhole_nil separated)
  | case2 flag =>
      cases htakes : separated.takesArgument flag with
      | true => exact .inr ⟨[], flag, rfl, htakes, endsWhole_nil separated⟩
      | false => exact .inl (endsWhole_singleton_iff.mpr htakes)
  | case3 flag argument rest htakes ih =>
      rcases ih with hwhole | ⟨before, last, rfl, hlast, hbefore⟩
      · exact .inl ((endsWhole_cons_of_takes htakes).mpr hwhole)
      · exact .inr ⟨flag :: argument :: before, last, rfl, hlast,
          (endsWhole_cons_of_takes htakes).mpr hbefore⟩
  | case4 flag argument rest htakes ih =>
      have hfree : separated.takesArgument flag = false := by simpa using htakes
      rcases ih with hwhole | ⟨before, last, heq, hlast, hbefore⟩
      · exact .inl ((endsWhole_cons_of_not_takes hfree).mpr hwhole)
      · exact .inr ⟨flag :: before, last, by rw [heq]; rfl, hlast,
          (endsWhole_cons_of_not_takes hfree).mpr hbefore⟩

/-- Units of some words, in their order, stay the units of their words. Only the last
of them can lack its argument. -/
theorem ofFlags_flags (h : units.Sublist (ofFlags separated words)) :
    ofFlags separated (flags units) = units := by
  fun_induction ofFlags separated words generalizing units with
  | case1 =>
      obtain rfl := List.sublist_nil.mp h
      rfl
  | case2 flag =>
      rcases List.sublist_singleton.mp h with rfl | rfl
      · rfl
      · rfl
  | case3 flag argument rest htakes ih =>
      cases h with
      | cons _ h => exact ih h
      | cons_cons _ h =>
          rw [flags_cons, FlagUnit.words, List.cons_append, List.singleton_append,
            ofFlags_cons_of_takes htakes, ih h]
  | case4 flag argument rest htakes ih =>
      have hfree : separated.takesArgument flag = false := by simpa using htakes
      cases h with
      | cons _ h => exact ih h
      | cons_cons _ h =>
          rw [flags_cons, FlagUnit.words, List.singleton_append, ofFlags_cons_of_not_takes hfree,
            ih h]

end FlagUnit

namespace Flag

open FlagUnit

variable {separated : SeparatedFlags} {flag argument : String} {words base extra : List String}
  {unit : FlagUnit} {seen units : List FlagUnit}

/-! ### Units that are new -/

/-- New units are those that have not been seen, each at its first occurrence. -/
theorem newUnits_eq (seen units : List FlagUnit) :
    newUnits seen units = (units.filter (· ∉ seen)).eraseDups := by
  fun_induction newUnits seen units with
  | case1 seen => rfl
  | case2 seen unit rest hmem ih => rw [ih, List.filter_cons_of_neg (by simpa using hmem)]
  | case3 seen unit rest hnew ih =>
      rw [ih, List.filter_cons_of_pos (by simpa using hnew), List.eraseDups_cons,
        List.filter_filter]
      congr 2
      refine List.filter_congr fun other _ => ?_
      by_cases heq : other = unit <;> simp [heq]

theorem mem_newUnits : unit ∈ newUnits seen units ↔ unit ∈ units ∧ unit ∉ seen := by
  simp [newUnits_eq]

theorem newUnits_sublist (seen units : List FlagUnit) : (newUnits seen units).Sublist units := by
  fun_induction newUnits seen units with
  | case1 => exact .slnil
  | case2 seen unit rest hmem ih => exact .cons _ ih
  | case3 seen unit rest hnew ih => exact .cons_cons _ ih

theorem nodup_newUnits (seen units : List FlagUnit) : (newUnits seen units).Nodup := by
  fun_induction newUnits seen units with
  | case1 => exact .nil
  | case2 seen unit rest hmem ih => exact ih
  | case3 seen unit rest hnew ih =>
      exact List.nodup_cons.mpr ⟨fun hmem => (mem_newUnits.mp hmem).2 List.mem_cons_self, ih⟩

/-- Units without repetition of which none has been seen are all new. -/
theorem newUnits_eq_self (hnodup : units.Nodup) (hnew : ∀ unit ∈ units, unit ∉ seen) :
    newUnits seen units = units := by
  induction units generalizing seen with
  | nil => rfl
  | cons unit rest ih =>
      obtain ⟨hfirst, hrest⟩ := List.nodup_cons.mp hnodup
      rw [newUnits, if_neg (hnew unit List.mem_cons_self), ih hrest]
      intro other hother hmem
      rcases List.mem_cons.mp hmem with rfl | hmem
      · exact hfirst hother
      · exact hnew other (List.mem_cons_of_mem _ hother) hmem

theorem newUnits_eq_nil_iff : newUnits seen units = [] ↔ ∀ unit ∈ units, unit ∈ seen := by
  simp [List.eq_nil_iff_forall_not_mem, mem_newUnits]

/-! ### Merging -/

theorem ofFlags_flags_newUnits (separated : SeparatedFlags) (seen : List FlagUnit)
    (words : List String) :
    ofFlags separated (FlagUnit.flags (newUnits seen (ofFlags separated words))) =
      newUnits seen (ofFlags separated words) :=
  ofFlags_flags (newUnits_sublist _ _)

/-- A merge into flags that end whole adds the new units behind the old ones. -/
theorem ofFlags_merge (h : EndsWhole separated base) :
    ofFlags separated (merge separated base extra) = ofFlags separated base ++
      newUnits (ofFlags separated base) (ofFlags separated extra) := by
  rw [merge, ofFlags_append h, ofFlags_flags_newUnits]

theorem ofFlags_deduplicate (separated : SeparatedFlags) (words : List String) :
    ofFlags separated (deduplicate separated words) = newUnits [] (ofFlags separated words) :=
  ofFlags_merge (endsWhole_nil separated)

theorem deduplicate_deduplicate (separated : SeparatedFlags) (words : List String) :
    deduplicate separated (deduplicate separated words) = deduplicate separated words := by
  have hunits := ofFlags_deduplicate separated words
  conv_lhs => rw [deduplicate, merge, hunits]
  rw [ofFlags, newUnits_eq_self (nodup_newUnits _ _) (by simp)]
  rfl

/-- Units of flags are merged whole. Where the flags that are merged into end in no flag
that lacks its argument, the others add the first occurrences of their units that are not
there. Of the units of any flags, deduplication keeps the first occurrence of each. -/
theorem units_merged_whole (separated : SeparatedFlags) :
    (∀ base extra, EndsWhole separated base →
      base <+: merge separated base extra ∧
        ofFlags separated (merge separated base extra) = ofFlags separated base ++
          ((ofFlags separated extra).filter (· ∉ ofFlags separated base)).eraseDups) ∧
    ∀ words, ofFlags separated (deduplicate separated words) =
        (ofFlags separated words).eraseDups ∧
      deduplicate separated (deduplicate separated words) = deduplicate separated words := by
  refine ⟨fun base extra hwhole => ⟨List.prefix_append _ _, ?_⟩, fun words => ⟨?_, ?_⟩⟩
  · rw [ofFlags_merge hwhole, newUnits_eq]
  · rw [ofFlags_deduplicate, newUnits_eq, List.filter_eq_self.mpr (by simp)]
  · exact deduplicate_deduplicate separated words

/-- `Cocoa` stands for itself where no flag takes it, and a flag at the end stays alone. -/
theorem units_merged_whole_framework :
    EndsWhole ⟨["-framework"]⟩ ["-g", "-framework", "Cocoa"] ∧
      ofFlags ⟨["-framework"]⟩ (merge ⟨["-framework"]⟩ ["-g", "-framework", "Cocoa"]
          ["Cocoa", "-framework", "Metal", "-framework", "Cocoa", "Cocoa", "-framework"]) =
        [single "-g", pair "-framework" "Cocoa", single "Cocoa", pair "-framework" "Metal",
          single "-framework"] := by
  have hwhole : EndsWhole ⟨["-framework"]⟩ ["-g", "-framework", "Cocoa"] := by
    intro unit hlast
    cases hlast
    exact id
  refine ⟨hwhole, ((units_merged_whole ⟨["-framework"]⟩).1 _ _ hwhole).2.trans ?_⟩
  cbv

/-! ### Merging the same flags again -/

theorem merge_eq_self_iff : merge separated base extra = base ↔
    ∀ unit ∈ ofFlags separated extra, unit ∈ ofFlags separated base := by
  rw [merge, List.append_right_eq_self, flags_eq_nil_iff, newUnits_eq_nil_iff]

/-- The units of `extra` are all there once `extra` has been merged into `base`. This is in
question only if `base` ends in a flag that lacks its argument: the flag takes the first word
that is added, which may group the other ones differently. -/
def Settles (separated : SeparatedFlags) (base extra : List String) : Prop :=
  ∀ before flag, base = before ++ [flag] → EndsWhole separated before →
    separated.takesArgument flag = true → ∀ unit ∈ ofFlags separated extra,
      unit ∈ ofFlags separated before ∨ unit ∈ ofFlags separated
        (flag :: FlagUnit.flags (newUnits (ofFlags separated base) (ofFlags separated extra)))

theorem settles_of_endsWhole (h : EndsWhole separated base) : Settles separated base extra := by
  rintro before flag rfl hbefore htakes
  exact absurd h (not_endsWhole_append hbefore htakes)

/-- Merging the same flags again changes nothing exactly if they have settled. -/
theorem merge_merge_iff (separated : SeparatedFlags) (base extra : List String) :
    merge separated (merge separated base extra) extra = merge separated base extra ↔
      Settles separated base extra := by
  rw [merge_eq_self_iff]
  rcases endsWhole_or_open separated base with hwhole | ⟨before, flag, rfl, htakes, hbefore⟩
  · refine iff_of_true (fun unit hunit => ?_) (settles_of_endsWhole hwhole)
    rw [ofFlags_merge hwhole, List.mem_append, mem_newUnits]
    by_cases hmem : unit ∈ ofFlags separated base
    · exact .inl hmem
    · exact .inr ⟨hunit, hmem⟩
  · have hunits : ∀ unit, unit ∈ ofFlags separated (merge separated (before ++ [flag]) extra) ↔
        unit ∈ ofFlags separated before ∨ unit ∈ ofFlags separated (flag :: FlagUnit.flags
          (newUnits (ofFlags separated (before ++ [flag])) (ofFlags separated extra))) := by
      intro unit
      rw [merge, List.append_assoc, ofFlags_append hbefore, List.mem_append]
      rfl
    simp only [hunits]
    refine ⟨fun hall before' flag' heq _ _ => ?_, fun h => h before flag rfl hbefore htakes⟩
    obtain ⟨rfl, hflag⟩ := List.append_inj' heq rfl
    obtain rfl := List.singleton_inj.mp hflag
    exact hall

/-- A single flag that is added behind a flag without argument becomes its argument, and is
added again. -/
theorem not_settles_of_single {before : List String} (hbefore : EndsWhole separated before)
    (htakes : separated.takesArgument flag = true)
    (hnew : newUnits (ofFlags separated (before ++ [flag])) (ofFlags separated extra) =
      single argument :: units) :
    ¬ Settles separated (before ++ [flag]) extra := by
  intro hsettles
  have hsub := newUnits_sublist (ofFlags separated (before ++ [flag])) (ofFlags separated extra)
  have hnodup := nodup_newUnits (ofFlags separated (before ++ [flag])) (ofFlags separated extra)
  have hfirst : single argument ∈ newUnits (ofFlags separated (before ++ [flag]))
      (ofFlags separated extra) := hnew ▸ List.mem_cons_self
  obtain ⟨hextra, hbase⟩ := mem_newUnits.mp hfirst
  rw [ofFlags_append hbefore] at hbase
  rw [hnew] at hsub hnodup
  rcases hsettles before flag rfl hbefore htakes _ hextra with hmem | hmem
  · exact hbase (List.mem_append_left _ hmem)
  · -- the rest of what is added is grouped as before
    rw [hnew, flags_cons, FlagUnit.words, List.singleton_append, ofFlags_cons_of_takes htakes,
      ofFlags_flags ((List.sublist_cons_self _ _).trans hsub), List.mem_cons] at hmem
    exact (List.nodup_cons.mp hnodup).1 (hmem.resolve_left (by simp))

/-! ### Merging entries -/

section Entries

variable {α : Type} {same : α → α → Bool} {known offered : List α} {x : α}

theorem appendNew_eq_self (h : ∀ x ∈ offered, known.any (same x) = true) :
    appendNew same known offered = known := by
  induction offered with
  | nil => rfl
  | cons first rest ih =>
      rw [appendNew, List.foldl_cons, if_pos (h first List.mem_cons_self)]
      exact ih fun x hx => h x (List.mem_cons_of_mem _ hx)

/-- What was there or has been offered is there. -/
theorem any_appendNew (hrefl : ∀ x, same x x = true)
    (h : x ∈ offered ∨ known.any (same x) = true) :
    (appendNew same known offered).any (same x) = true := by
  induction offered generalizing known with
  | nil => exact h.resolve_left List.not_mem_nil
  | cons first rest ih =>
      have hoffered : x = first ∨ x ∈ rest ∨ known.any (same x) = true := by
        rwa [List.mem_cons, or_assoc] at h
      rw [appendNew, List.foldl_cons]
      split
      · next hfirst =>
          refine ih ?_
          rcases hoffered with rfl | hrest
          · exact .inr hfirst
          · exact hrest
      · refine ih ?_
        rcases hoffered with rfl | hmem | hknown
        · exact .inr (by simp [hrefl])
        · exact .inl hmem
        · exact .inr (by simp [hknown])

/-- Offering the same entries again changes nothing. -/
theorem appendNew_appendNew (hrefl : ∀ x, same x x = true) (known offered : List α) :
    appendNew same (appendNew same known offered) offered = appendNew same known offered :=
  appendNew_eq_self fun _ hx => any_appendNew hrefl (.inl hx)

end Entries

end Flag

end BuildPlan
