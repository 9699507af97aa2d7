import BuildPlan.Text.Replace
import Mathlib.Data.List.Induction

/-!
# BuildPlan.Proofs.Text.Replace

Replacing several patterns one after the other. If every pattern starts with one and the
same character, which occurs nowhere else in the patterns and is kept by the replacements,
then no replacement touches the result of an earlier one, and all of them can be made at
once, from left to right.
-/

namespace BuildPlan.Text

/-- A text in which what follows a mark is replaced by a table, all in one pass. Of the
entries that fit, the first one is taken. -/
def replaceMarked (mark : Char) (table : List (List Char × List Char)) : List Char → List Char
  | [] => []
  | c :: rest =>
    if c = mark then
      match table.find? fun entry => entry.1.isPrefixOf rest with
      | some (pattern, replacement) =>
        mark :: (replacement ++ replaceMarked mark table (rest.drop pattern.length))
      | none => mark :: replaceMarked mark table rest
    else c :: replaceMarked mark table rest
termination_by text => text.length
decreasing_by
  · simp only [List.length_drop, List.length_cons]
    omega
  · simp
  · simp

variable {mark : Char} {table : List (List Char × List Char)}
  {pattern replacement left rest text : List Char}

theorem replaceMarked_cons {c : Char} (h : c ≠ mark) (rest : List Char) :
    replaceMarked mark table (c :: rest) = c :: replaceMarked mark table rest := by
  rw [replaceMarked, if_neg h]

theorem replaceMarked_append (h : mark ∉ left) (rest : List Char) :
    replaceMarked mark table (left ++ rest) = left ++ replaceMarked mark table rest := by
  induction left with
  | nil => rfl
  | cons c left ih =>
      rw [List.mem_cons, not_or] at h
      rw [List.cons_append, replaceMarked_cons (Ne.symm h.1), ih h.2, List.cons_append]

theorem replaceMarked_found
    (h : (table.find? fun entry => entry.1.isPrefixOf rest) = some (pattern, replacement)) :
    replaceMarked mark table (mark :: rest) =
      mark :: (replacement ++ replaceMarked mark table (rest.drop pattern.length)) := by
  rw [replaceMarked, if_pos rfl, h]

theorem replaceMarked_not_found (h : (table.find? fun entry => entry.1.isPrefixOf rest) = none) :
    replaceMarked mark table (mark :: rest) = mark :: replaceMarked mark table rest := by
  rw [replaceMarked, if_pos rfl, h]

theorem replaceMarked_of_nil (mark : Char) (text : List Char) :
    replaceMarked mark [] text = text := by
  induction text with
  | nil => rw [replaceMarked]
  | cons c rest ih =>
      by_cases hc : c = mark
      · rw [hc, replaceMarked_not_found rfl, ih]
      · rw [replaceMarked_cons hc, ih]

/-- A pattern without the mark is found at the start of the result where it was found before. -/
theorem prefix_replaceMarked_iff (h : mark ∉ pattern) :
    pattern <+: replaceMarked mark table text ↔ pattern <+: text := by
  induction pattern generalizing text with
  | nil => simp
  | cons c pattern ih =>
      rw [List.mem_cons, not_or] at h
      cases text with
      | nil => rw [replaceMarked]
      | cons d rest =>
          by_cases hd : d = mark
          · -- the mark stands at the start of both
            have hstart : ∃ others, replaceMarked mark table (d :: rest) = mark :: others := by
              rw [hd, replaceMarked, if_pos rfl]
              split
              · exact ⟨_, rfl⟩
              · exact ⟨_, rfl⟩
            obtain ⟨others, hothers⟩ := hstart
            rw [hothers, hd, List.cons_prefix_cons, List.cons_prefix_cons]
            simp [Ne.symm h.1]
          · rw [replaceMarked_cons hd, List.cons_prefix_cons, List.cons_prefix_cons, ih h.2]

theorem replaceChars_cons {c : Char} (h : c ≠ mark) (rest : List Char) :
    replaceChars (mark :: pattern) replacement (c :: rest) =
      c :: replaceChars (mark :: pattern) replacement rest := by
  have hc : (mark == c) = false := beq_false_of_ne h.symm
  rw [replaceChars]
  simp only [List.isPrefixOf, hc, Bool.false_and, Bool.false_eq_true, if_false]

theorem replaceChars_append (h : mark ∉ left) (rest : List Char) :
    replaceChars (mark :: pattern) replacement (left ++ rest) =
      left ++ replaceChars (mark :: pattern) replacement rest := by
  induction left with
  | nil => rfl
  | cons c left ih =>
      rw [List.mem_cons, not_or] at h
      rw [List.cons_append, replaceChars_cons (Ne.symm h.1), ih h.2, List.cons_append]

theorem replaceChars_mark (pattern replacement rest : List Char) :
    replaceChars (mark :: pattern) replacement (mark :: rest) =
      if pattern <+: rest then
        replacement ++ replaceChars (mark :: pattern) replacement (rest.drop pattern.length)
      else mark :: replaceChars (mark :: pattern) replacement rest := by
  rw [replaceChars]
  simp only [List.isPrefixOf, beq_self_eq_true, Bool.true_and, List.isPrefixOf_iff_prefix]

/-- One more replacement is one more entry at the end of the table, if no entry before it
writes anything that it would find. -/
theorem replaceChars_replaceMarked (hpattern : mark ∉ pattern)
    (htable : ∀ entry ∈ table, mark ∉ entry.2 ∧ ∀ rest, ¬ pattern <+: entry.2 ++ rest)
    (replacement text : List Char) :
    replaceChars (mark :: pattern) (mark :: replacement) (replaceMarked mark table text) =
      replaceMarked mark (table ++ [(pattern, replacement)]) text := by
  fun_induction replaceMarked mark table text with
  | case1 => rw [replaceMarked, replaceChars]
  | case2 rest known written hfound ih =>
      obtain ⟨hmark, hnot⟩ := htable _ (List.mem_of_find?_eq_some hfound)
      have hstill : ((table ++ [(pattern, replacement)]).find? fun entry =>
          entry.1.isPrefixOf rest) = some (known, written) := by
        rw [List.find?_append, hfound, Option.some_or]
      rw [replaceChars_mark, if_neg (hnot _), replaceChars_append hmark, ih,
        replaceMarked_found hstill]
  | case3 rest hnone ih =>
      have hfind : ((table ++ [(pattern, replacement)]).find? fun entry =>
          entry.1.isPrefixOf rest) =
            if pattern <+: rest then some (pattern, replacement) else none := by
        rw [List.find?_append, hnone, Option.none_or, List.find?_singleton]
        simp only [List.isPrefixOf_iff_prefix]
      rw [replaceChars_mark]
      by_cases hprefix : pattern <+: rest
      · rw [if_pos hprefix] at hfind
        rw [if_pos ((prefix_replaceMarked_iff hpattern).mpr hprefix), replaceMarked_found hfind]
        obtain ⟨after, rfl⟩ := hprefix
        rw [replaceMarked_append hpattern, replaceChars_append hpattern,
          replaceMarked_append hpattern] at ih
        rw [replaceMarked_append hpattern, List.drop_left, List.drop_left,
          List.append_cancel_left ih, List.cons_append]
      · rw [if_neg hprefix] at hfind
        rw [if_neg (mt (prefix_replaceMarked_iff hpattern).mp hprefix), ih,
          replaceMarked_not_found hfind]
  | case4 c rest hc ih => rw [replaceChars_cons hc, ih, replaceMarked_cons hc]

/-- Replacing one after the other is replacing all at once, if no replacement begins like a
pattern. -/
theorem foldl_replaceChars (hmark : ∀ entry ∈ table, mark ∉ entry.1 ∧ mark ∉ entry.2)
    (hapart : ∀ entry ∈ table, ∀ known ∈ table, ∀ rest, ¬ entry.1 <+: known.2 ++ rest)
    (text : List Char) :
    table.foldl (fun text entry => replaceChars (mark :: entry.1) (mark :: entry.2) text) text =
      replaceMarked mark table text := by
  induction table using List.reverseRecOn with
  | nil => rw [replaceMarked_of_nil, List.foldl_nil]
  | append_singleton table entry ih =>
      have hlast : entry ∈ table ++ [entry] := List.mem_append_right _ List.mem_cons_self
      have hearlier : ∀ known ∈ table, known ∈ table ++ [entry] :=
        fun known hknown => List.mem_append_left _ hknown
      rw [List.foldl_append, List.foldl_cons, List.foldl_nil,
        ih (fun known hknown => hmark known (hearlier known hknown))
          fun later hlater known hknown => hapart later (hearlier later hlater) known
            (hearlier known hknown)]
      refine replaceChars_replaceMarked (hmark entry hlast).1 ?_ _ _
      intro known hknown
      exact ⟨(hmark known (hearlier known hknown)).2,
        hapart entry hlast known (hearlier known hknown)⟩

/-- A replacement that is shorter than its pattern makes the text shorter. -/
theorem length_replaceMarked_lt
    (hfound : (table.find? fun entry => entry.1.isPrefixOf rest) = some (pattern, replacement))
    (hpattern : mark ∉ pattern) (hshorter : replacement.length < pattern.length) :
    (replaceMarked mark table (mark :: rest)).length <
      (mark :: replaceMarked mark table rest).length := by
  have hprefix : pattern.isPrefixOf rest = true := by simpa using List.find?_some hfound
  obtain ⟨after, rfl⟩ := List.isPrefixOf_iff_prefix.mp hprefix
  rw [replaceMarked_found hfound, replaceMarked_append hpattern, List.drop_left]
  simp only [List.length_cons, List.length_append]
  omega

end BuildPlan.Text
