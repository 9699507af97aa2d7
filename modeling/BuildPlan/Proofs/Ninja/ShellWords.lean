import BuildPlan.Proofs.Ninja.Evaluation
import BuildPlan.Proofs.Text.Words

/-!
# BuildPlan.Proofs.Ninja.ShellWords

What the shell makes of a command line that Ninja has read. The words of a command pass
through two encodings, quotes for the shell and doubled dollars for Ninja. Quotes are
opened and closed in the middle of a word, so the reader of words and the quoting are
followed character by character, in step with each other; the blank between two words is
then the only one that the shell finds outside quotes.
-/

namespace BuildPlan

namespace Shell

/-! ### Words of a command line -/

/-- Blanks separate words. -/
def isBlank (c : Char) : Bool := c == ' ' || c == '\t'

/-- Characters that mean something to the shell where they are not quoted: the operators and
the end of a line, and what starts an expansion, a pattern, a comment or a reserved word. -/
def specials : List Char := "|&;<>()$\x60\"*?[]#~\x7b\x7d!\n".toList

/-- Where the shell stands in a command line. -/
inductive Quoting
  /-- Outside quotes. -/
  | plain
  /-- Between single quotes. -/
  | single
  /-- Right behind a backslash. -/
  | backslash

/-- The words of a line. `word` is the one that has begun, if any. A line with an open quote
or with a special character outside quotes is more than words and has no meaning here. -/
def readWords : Quoting → Option (List Char) → List Char → Option (List (List Char))
  | .plain, word, [] => some word.toList
  | .plain, word, c :: rest =>
    if c = '\'' then readWords .single (some (word.getD [])) rest
    else if c = '\\' then readWords .backslash (some (word.getD [])) rest
    else if isBlank c then (readWords .plain none rest).map (word.toList ++ ·)
    else if c ∈ specials then none
    else readWords .plain (some (word.getD [] ++ [c])) rest
  | .single, _, [] => none
  | .single, word, c :: rest =>
    if c = '\'' then readWords .plain word rest
    else readWords .single (some (word.getD [] ++ [c])) rest
  | .backslash, _, [] => none
  | .backslash, word, c :: rest =>
    if c = '\n' then none else readWords .plain (some (word.getD [] ++ [c])) rest

/-- The words that a shell cuts a command line into. -/
def words (line : List Char) : Option (List String) :=
  (readWords .plain none line).map fun words => words.map String.ofList

variable {word text rest : List Char} {c : Char}

/-- Does the character stand for itself outside quotes? -/
def isOrdinary (c : Char) : Bool :=
  !isBlank c && c != '\'' && c != '\\' && !specials.contains c

theorem readWords_ordinary (h : isOrdinary c = true) (word rest : List Char) :
    readWords .plain (some word) (c :: rest) = readWords .plain (some (word ++ [c])) rest := by
  simp only [isOrdinary, Bool.and_eq_true, Bool.not_eq_true', bne_iff_ne, List.contains_eq_mem,
    decide_eq_false_iff_not] at h
  obtain ⟨⟨⟨hblank, hquote⟩, hbackslash⟩, hspecial⟩ := h
  simp [readWords, hblank, hquote, hbackslash, hspecial]

theorem readWords_quoted (h : c ≠ '\'') (word rest : List Char) :
    readWords .single (some word) (c :: rest) = readWords .single (some (word ++ [c])) rest := by
  simp [readWords, h]

/-- Whatever is not a blank begins a word. -/
theorem readWords_start (h : isBlank c = false) (rest : List Char) :
    readWords .plain none (c :: rest) = readWords .plain (some []) (c :: rest) := by
  simp [readWords, h]

/-! ### Quoting -/

/-- Characters among which no blank, no quote and no special one is stand for themselves. -/
theorem isOrdinary_of {p : Char → Bool}
    (hp : (' ' :: '\t' :: '\'' :: '\\' :: specials).all (fun d => !p d) = true)
    (h : p c = true) : isOrdinary c = true := by
  have hnot : c ∉ ' ' :: '\t' :: '\'' :: '\\' :: specials := by
    intro hmem
    have hc := List.all_eq_true.mp hp c hmem
    rw [h] at hc
    cases hc
  simp only [List.mem_cons, not_or] at hnot
  obtain ⟨hspace, htab, hquote, hbackslash, hspecial⟩ := hnot
  simp [isOrdinary, isBlank, hspace, htab, hquote, hbackslash, hspecial]

theorem isBlank_of_isOrdinary (h : isOrdinary c = true) : isBlank c = false := by
  simp only [isOrdinary, Bool.and_eq_true, Bool.not_eq_true'] at h
  exact h.1.1.1

theorem isOrdinary_of_isShellInert (h : Text.isShellInert c = true) : isOrdinary c = true :=
  isOrdinary_of rfl h

theorem isOrdinary_of_isShellSafe (h : Text.isShellSafe c = true) : isOrdinary c = true :=
  isOrdinary_of rfl h

/-- What is written of a text while a quote is open or not is read as the text. -/
theorem readWords_quoteChars (inside : Bool) (word text rest : List Char) :
    readWords (if inside then .single else .plain) (some word)
        (Text.quoteChars inside text ++ rest) =
      readWords .plain (some (word ++ text)) rest := by
  induction text generalizing inside word with
  | nil => cases inside <;> simp [Text.quoteChars, readWords]
  | cons c text ih =>
      have hword : word ++ c :: text = (word ++ [c]) ++ text := by simp
      rw [Text.quoteChars, hword]
      by_cases hinert : Text.isShellInert c = true
      · rw [if_pos hinert, List.cons_append, ← ih inside]
        have hordinary := isOrdinary_of_isShellInert hinert
        cases inside with
        | true =>
            refine readWords_quoted ?_ word _
            rintro rfl
            cases hordinary
        | false => exact readWords_ordinary hordinary word _
      rw [if_neg hinert]
      by_cases hquote : c = '\''
      · -- the quote is closed, if one is open, and the character stands behind a backslash
        subst hquote
        rw [if_pos rfl, ← ih false]
        cases inside <;> simp [readWords]
      · rw [if_neg hquote, ← ih true]
        cases inside <;> simp [readWords, hquote]

theorem readWords_ordinaries (h : ∀ c ∈ text, isOrdinary c = true) (word rest : List Char) :
    readWords .plain (some word) (text ++ rest) = readWords .plain (some (word ++ text)) rest := by
  induction text generalizing word with
  | nil => simp
  | cons c text ih =>
      rw [List.cons_append, readWords_ordinary (h c List.mem_cons_self),
        ih fun d hd => h d (List.mem_cons_of_mem _ hd), List.append_assoc]
      rfl

/-- The first character of a quoted word is no blank. -/
theorem exists_cons_shellWord (text : String) :
    ∃ c rest, (Text.shellWord text).toList = c :: rest ∧ isBlank c = false := by
  unfold Text.shellWord
  split
  · exact ⟨'\'', ['\''], rfl, rfl⟩
  next hnonempty =>
  have hne : text.toList ≠ [] := by simpa using hnonempty
  obtain ⟨c, rest, hchars⟩ := List.exists_cons_of_ne_nil hne
  split
  · next hsafe =>
      refine ⟨c, rest, hchars, ?_⟩
      have hfirst := List.all_eq_true.mp hsafe c (hchars ▸ List.mem_cons_self)
      exact isBlank_of_isOrdinary (isOrdinary_of_isShellSafe hfirst)
  · rw [String.toList_ofList, hchars, Text.quoteChars]
    split
    · next hinert =>
        exact ⟨c, _, rfl, isBlank_of_isOrdinary (isOrdinary_of_isShellInert hinert)⟩
    · split
      · exact ⟨'\\', _, rfl, rfl⟩
      · exact ⟨'\'', _, rfl, rfl⟩

/-- A quoted word is read as its text. -/
theorem readWords_shellWord (text : String) (rest : List Char) :
    readWords .plain none ((Text.shellWord text).toList ++ rest) =
      readWords .plain (some text.toList) rest := by
  obtain ⟨c, others, hchars, hblank⟩ := exists_cons_shellWord text
  have hstart : readWords .plain none ((Text.shellWord text).toList ++ rest) =
      readWords .plain (some []) ((Text.shellWord text).toList ++ rest) := by
    rw [hchars]
    exact readWords_start hblank _
  rw [hstart]
  unfold Text.shellWord
  split
  · next hempty =>
      obtain rfl : text = "" := by simpa using hempty
      rfl
  split
  · next hsafe =>
      exact readWords_ordinaries
        (fun c hc => isOrdinary_of_isShellSafe (List.all_eq_true.mp hsafe c hc)) [] rest
  · rw [String.toList_ofList]
    exact readWords_quoteChars false [] text.toList rest

/-- Quoted words with a blank between any two are read as their texts. -/
theorem words_shellWords (texts : List String) :
    words (" ".intercalate (texts.map Text.shellWord)).toList = some texts := by
  have hread : readWords .plain none (" ".intercalate (texts.map Text.shellWord)).toList =
      some (texts.map String.toList) := by
    induction texts with
    | nil => rfl
    | cons text rest ih =>
        cases rest with
        | nil =>
            have hword := readWords_shellWord text []
            rw [List.append_nil] at hword
            rw [List.map_singleton, String.intercalate_singleton, hword]
            rfl
        | cons next rest =>
            have hblank : ∀ line, readWords .plain (some text.toList) (' ' :: line) =
                (readWords .plain none line).map (text.toList :: ·) := fun line => rfl
            rw [List.map_cons, List.map_cons, Text.toList_intercalate_blank,
              readWords_shellWord, hblank, ← List.map_cons, ih]
            rfl
  rw [words, hread]
  simp [Function.comp_def]

example : words "-DMSG'=hello world' it\\'s".toList = some ["-DMSG=hello world", "it's"] := rfl

end Shell

namespace Ninja

/-- Ninja undoes the doubling of the dollars in a line of texts. -/
theorem evaluate_commandLine (paths : StepPaths) (texts : List String) :
    evaluate paths (commandLine (texts.map Token.ofText)).toList =
      some (" ".intercalate (texts.map Text.shellWord)).toList := by
  have htoken : ∀ text, (commandToken (Token.ofText text)).toList =
      (Text.shellWord text).toList.flatMap fun c => if c = '$' then ['$', '$'] else [c] := by
    intro text
    rw [toList_commandToken]
    simp [Token.ofText, lowered, commandText, Text.doubleDollars]
  unfold commandLine
  induction texts with
  | nil => rw [List.map_nil, List.map_nil, List.map_nil]; exact evaluate.eq_1 paths
  | cons text rest ih =>
      cases rest with
      | nil =>
          have hword : evaluate paths _ = _ := evaluate_doubled (Text.shellWord text).toList []
          rw [List.append_nil] at hword
          simp only [List.map_singleton, String.intercalate_singleton]
          rw [htoken, hword, evaluate]
          simp
      | cons next rest =>
          simp only [List.map_cons] at ih ⊢
          rw [Text.toList_intercalate_blank, Text.toList_intercalate_blank, htoken,
            evaluate_doubled, evaluate_cons (by decide), ih]
          rfl

/-- Command lines survive. A command that is a list of texts comes out of Ninja as a line that
the shell cuts into these texts, whatever their characters. -/
theorem words_of_commandLine (paths : StepPaths) (texts : List String) :
    (evaluate paths (commandLine (texts.map Token.ofText)).toList).bind Shell.words =
      some texts := by
  rw [evaluate_commandLine, Option.bind_some, Shell.words_shellWords]

end Ninja

end BuildPlan
