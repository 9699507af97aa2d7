/-!
# BuildPlan.Text.Blank

Blank characters and the words between them. Blank means the Unicode property
White_Space, so the separators U+001C to U+001F and the zero-width characters
U+200B and U+FEFF are ordinary text. A word is a maximal run of characters
that are not blank.
-/

namespace BuildPlan.Text

/-- Does the character have the Unicode property White_Space? -/
def isBlank (c : Char) : Bool :=
  (0x09 ≤ c.val && c.val ≤ 0x0D) || c.val == 0x20 || c.val == 0x85 || c.val == 0xA0
    || c.val == 0x1680 || (0x2000 ≤ c.val && c.val ≤ 0x200A) || c.val == 0x2028
    || c.val == 0x2029 || c.val == 0x202F || c.val == 0x205F || c.val == 0x3000

/-- The words of a text, in order: what blanks separate, empty runs left out. -/
def words (text : List Char) : List (List Char) :=
  (text.splitOnP isBlank).filter (!·.isEmpty)

/-- A text without the blanks at its two ends. -/
def trim (text : List Char) : List Char :=
  ((text.dropWhile isBlank).reverse.dropWhile isBlank).reverse

theorem words_nil : words [] = [] := rfl

/-- A blank separates: the words on its two sides do not touch. -/
theorem words_append_blank (left right : List Char) {c : Char} (h : isBlank c = true) :
    words (left ++ c :: right) = words left ++ words right := by
  rw [words, List.splitOnP_append_cons _ _ h, List.filter_append]
  rfl

/-- No word is empty. -/
theorem ne_nil_of_mem_words {text word : List Char} (h : word ∈ words text) : word ≠ [] := by
  simpa using (List.mem_filter.mp h).2

end BuildPlan.Text
