import BuildPlan.Text.Blank

/-!
# BuildPlan.Proofs.Text.Words

The words between the blanks of a text.
-/

namespace BuildPlan.Text

/-- A text has no blanks, or one of them cuts it in two. -/
@[elab_as_elim]
theorem induction_on_blanks {P : List Char → Prop} (text : List Char)
    (unbroken : ∀ text, (∀ c ∈ text, isBlank c = false) → P text)
    (broken : ∀ left c right, isBlank c = true → P left → P right → P (left ++ c :: right)) :
    P text := by
  by_cases hblank : ∃ c ∈ text, isBlank c = true
  · obtain ⟨c, hc, hblank⟩ := hblank
    obtain ⟨left, right, heq⟩ := List.append_of_mem hc
    rw [heq]
    exact broken left c right hblank (induction_on_blanks left unbroken broken)
      (induction_on_blanks right unbroken broken)
  · exact unbroken text (by simpa using hblank)
termination_by text.length
decreasing_by
  · rw [heq, List.length_append, List.length_cons]
    omega
  · rw [heq, List.length_append, List.length_cons]
    omega

/-- A text without blanks is a word. -/
theorem words_of_unbroken {text : List Char} (h : ∀ c ∈ text, isBlank c = false)
    (hne : text ≠ []) : words text = [text] := by
  have hsplit : text.splitOnP isBlank = [text] := List.splitOnP_eq_singleton (by simpa using h)
  rw [words, hsplit, List.filter_cons_of_pos (by simpa using hne), List.filter_nil]

/-- The characters of words are those of the text that are not blank. -/
theorem of_mem_words {text word : List Char} (h : word ∈ words text) {c : Char} (hc : c ∈ word) :
    c ∈ text ∧ isBlank c = false := by
  induction text using induction_on_blanks with
  | unbroken text hunbroken =>
      by_cases htext : text = []
      · rw [htext] at h
        cases h
      · rw [words_of_unbroken hunbroken htext, List.mem_singleton] at h
        exact ⟨h ▸ hc, hunbroken c (h ▸ hc)⟩
  | broken left d right hblank ihleft ihright =>
      rw [words_append_blank _ _ hblank, List.mem_append] at h
      rcases h with h | h
      · exact ⟨List.mem_append_left _ (ihleft h).1, (ihleft h).2⟩
      · exact ⟨List.mem_append_right _ (List.mem_cons_of_mem _ (ihright h).1), (ihright h).2⟩

theorem toList_intercalate_blank (text next : String) (rest : List String) :
    (" ".intercalate (text :: next :: rest)).toList =
      text.toList ++ ' ' :: (" ".intercalate (next :: rest)).toList := by
  rw [String.intercalate_cons_of_ne_nil (List.cons_ne_nil _ _)]
  simp

/-- The blanks between texts keep their words apart. -/
theorem words_intercalate (texts : List String) :
    words (" ".intercalate texts).toList = texts.flatMap fun text => words text.toList := by
  induction texts with
  | nil => rfl
  | cons text rest ih =>
      cases rest with
      | nil => rw [String.intercalate_singleton, List.flatMap_singleton]
      | cons next rest =>
          rw [toList_intercalate_blank, words_append_blank _ _ (by decide), ih]
          simp only [List.flatMap_cons]

end BuildPlan.Text
