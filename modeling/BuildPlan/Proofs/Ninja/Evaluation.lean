import BuildPlan.Ninja.Text
import Mathlib.Data.List.Infix

/-!
# BuildPlan.Proofs.Ninja.Evaluation

What Ninja makes of a command token. Two dollars are a dollar, and a dollar and the
longest name that follows are a variable. The variable of a marker is written without
braces, so the name goes on into a text that follows the marker and looks like more of
it. Apart from that a token comes out as it is meant.
-/

namespace BuildPlan.Ninja

/-! ### Evaluation -/

/-- May the character be part of a variable's name? -/
def isVariableChar (c : Char) : Bool := Text.isAlphanumeric c || c == '_' || c == '-'

/-- The paths of a build step, as its commands see them. -/
structure StepPaths where
  inputs : List Char
  outputs : List Char

/-- The value of a variable. Apart from the paths none is bound, and these are empty. -/
def StepPaths.value (paths : StepPaths) (name : List Char) : List Char :=
  if name = "in".toList then paths.inputs
  else if name = "out".toList then paths.outputs
  else []

/-- A command as Ninja runs it. A dollar that starts neither an escaped dollar nor a variable
has no meaning here. -/
def evaluate (paths : StepPaths) : List Char → Option (List Char)
  | [] => some []
  | '$' :: '$' :: rest => (evaluate paths rest).map ('$' :: ·)
  | '$' :: rest =>
    match rest.takeWhile isVariableChar with
    | [] => none
    | name => (evaluate paths (rest.dropWhile isVariableChar)).map (paths.value name ++ ·)
  | c :: rest => (evaluate paths rest).map (c :: ·)
termination_by text => text.length
decreasing_by
  · simp only [List.length_cons]
    omega
  · have := (List.dropWhile_suffix isVariableChar (l := rest)).length_le
    simp only [List.length_cons]
    omega
  · simp

/-- The paths that a marker stands for. -/
def StepPaths.ofMarker (paths : StepPaths) (m : Marker) : List Char :=
  if m.isInput then paths.inputs else paths.outputs

/-- What a part of a token means: its paths, or its text as one word of the shell. -/
def StepPaths.meaning (paths : StepPaths) : TokenPart → List Char
  | .text text => (Text.shellWord text).toList
  | .marker m => paths.ofMarker m

variable {paths : StepPaths} {text rest run : List Char} {parts : List TokenPart}

theorem evaluate_cons {c : Char} (h : c ≠ '$') (rest : List Char) :
    evaluate paths (c :: rest) = (evaluate paths rest).map (c :: ·) := by
  rw [evaluate]
  · exact fun _ heq _ => h heq
  · exact h

theorem ne_dollar_of_isVariableChar {c : Char} (h : isVariableChar c = true) : c ≠ '$' := by
  rintro rfl
  exact absurd h (by decide)

/-- Text with its dollars doubled comes out as it was. -/
theorem evaluate_doubled (text rest : List Char) :
    evaluate paths ((text.flatMap fun c => if c = '$' then ['$', '$'] else [c]) ++ rest) =
      (evaluate paths rest).map (text ++ ·) := by
  induction text with
  | nil =>
      rw [List.flatMap_nil, List.nil_append]
      exact Option.map_id'.symm
  | cons c text ih =>
      rw [List.flatMap_cons, List.append_assoc]
      by_cases hc : c = '$'
      · subst hc
        rw [if_pos rfl, List.cons_append, List.cons_append, List.nil_append, evaluate, ih,
          Option.map_map]
        rfl
      · rw [if_neg hc, List.cons_append, List.nil_append, evaluate_cons hc, ih, Option.map_map]
        rfl

/-- So does a run of characters that a name could have. -/
theorem evaluate_run (h : ∀ c ∈ run, isVariableChar c = true) (rest : List Char) :
    evaluate paths (run ++ rest) = (evaluate paths rest).map (run ++ ·) := by
  induction run with
  | nil => exact Option.map_id'.symm
  | cons c run ih =>
      have hc := ne_dollar_of_isVariableChar (h c List.mem_cons_self)
      rw [List.cons_append, evaluate_cons hc,
        ih fun other hother => h other (List.mem_cons_of_mem _ hother), Option.map_map]
      rfl

/-- Without the characters at its start that a name could have, a text comes out shorter. -/
theorem exists_evaluate_dropWhile {read : List Char} (h : evaluate paths text = some read)
    (hstarts : text.head?.any isVariableChar = true) :
    ∃ rest, evaluate paths (text.dropWhile isVariableChar) = some rest ∧
      rest.length < read.length := by
  have hrun : ∀ c ∈ text.takeWhile isVariableChar, isVariableChar c = true :=
    fun c hc => List.all_eq_true.mp List.all_takeWhile c hc
  have hsplit : evaluate paths _ = _ := evaluate_run hrun (text.dropWhile isVariableChar)
  rw [List.takeWhile_append_dropWhile, h] at hsplit
  obtain ⟨rest, hrest, rfl⟩ := Option.map_eq_some_iff.mp hsplit.symm
  refine ⟨rest, hrest, ?_⟩
  cases text with
  | nil => cases hstarts
  | cons c text =>
      have hc : isVariableChar c = true := by simpa using hstarts
      rw [List.takeWhile_cons_of_pos hc, List.length_append, List.length_cons]
      omega

/-- A variable takes in everything behind it that its name could have. -/
theorem evaluate_variable (hname : run ≠ []) (h : ∀ c ∈ run, isVariableChar c = true)
    (rest : List Char) :
    evaluate paths ('$' :: (run ++ rest)) =
      (evaluate paths (rest.dropWhile isVariableChar)).map
        (paths.value (run ++ rest.takeWhile isVariableChar) ++ ·) := by
  obtain ⟨c, name, rfl⟩ := List.exists_cons_of_ne_nil hname
  rw [evaluate]
  · simp only [List.dropWhile_append_of_pos h, List.takeWhile_append_of_pos h]
    rfl
  · intro other heq
    cases heq
    exact ne_dollar_of_isVariableChar (h '$' List.mem_cons_self) rfl

/-! ### Where texts begin -/

theorem shellWord_ne_nil (text : String) : (Text.shellWord text).toList ≠ [] := by
  unfold Text.shellWord
  split
  · decide
  next hnonempty =>
  have htext : text.toList ≠ [] := by simpa using hnonempty
  split
  · exact htext
  · obtain ⟨c, rest, heq⟩ := List.exists_cons_of_ne_nil htext
    rw [String.toList_ofList, heq, Text.quoteChars]
    split
    · simp
    · split <;> simp

/-- A text begins as its word of the shell does, as far as names are concerned. -/
theorem startsName_shellWord (text : String) :
    (Text.shellWord text).toList.head?.any isVariableChar =
      text.toList.head?.any isVariableChar := by
  have hinert : ∀ c, isVariableChar c = true → Text.isShellInert c = true := by
    intro c hc
    simp only [isVariableChar, Bool.or_eq_true, beq_iff_eq] at hc
    rcases hc with (hc | rfl) | rfl
    · simp [Text.isShellInert, hc]
    · decide
    · decide
  unfold Text.shellWord
  split
  · next hempty =>
      obtain rfl : text = "" := by simpa using hempty
      decide
  split
  · rfl
  · rw [String.toList_ofList]
    cases htext : text.toList with
    | nil => rfl
    | cons c rest =>
        rw [Text.quoteChars]
        split
        · rfl
        next hquoted =>
        -- a quote or a backslash comes first, and the text begins with no name either
        have hc : isVariableChar c = false := by
          rw [Bool.eq_false_iff]
          exact fun hc => hquoted (hinert c hc)
        split <;> simp [hc] <;> decide

/-- Does the first part begin as a name could go on? -/
def startsName : List TokenPart → Bool
  | .text text :: _ => text.toList.head?.any isVariableChar
  | _ => false

/-- A part of a token as the file spells it. -/
def lowered : TokenPart → List Char
  | .text text => (commandText text).toList
  | .marker m => (markerVariable m).toList

theorem toList_commandToken (t : Token) : (commandToken t).toList = t.parts.flatMap lowered := by
  rw [commandToken, Token.lower, String.toList_join, List.flatMap_map]
  refine List.flatMap_congr fun part _ => ?_
  cases part <;> rfl

theorem startsName_lowered (parts : List TokenPart) :
    (parts.flatMap lowered).head?.any isVariableChar = startsName parts := by
  match parts with
  | [] => rfl
  | .marker m :: rest =>
      rw [List.flatMap_cons]
      cases m <;> rfl
  | .text text :: rest =>
      have hword := startsName_shellWord text
      rw [List.flatMap_cons, startsName, ← hword, lowered, commandText, Text.doubleDollars,
        String.toList_ofList]
      obtain ⟨c, word, hchars⟩ := List.exists_cons_of_ne_nil (shellWord_ne_nil text)
      rw [hchars, List.flatMap_cons]
      split
      · next hc => subst hc; rfl
      · rfl

/-! ### Tokens -/

/-- What the parts of a token mean, one after the other. -/
def StepPaths.spelled (paths : StepPaths) (parts : List TokenPart) : List Char :=
  parts.flatMap paths.meaning

/-- A marker stands right before a text that begins as its variable's name could go on. -/
def RunsOn (parts : List TokenPart) : Prop :=
  ∃ m text, [.marker m, .text text] <:+: parts ∧ text.toList.head?.any isVariableChar = true

theorem runsOn_text (text : String) : RunsOn (.text text :: parts) ↔ RunsOn parts := by
  simp [RunsOn, List.infix_cons_iff, List.cons_prefix_cons]

theorem runsOn_marker (m : Marker) :
    RunsOn (.marker m :: parts) ↔ startsName parts = true ∨ RunsOn parts := by
  have hfirst : (∃ m' text, [.marker m', .text text] <+: .marker m :: parts ∧
      text.toList.head?.any isVariableChar = true) ↔ startsName parts = true := by
    match parts with
    | [] => simp [startsName]
    | .marker _ :: rest => simp [startsName, List.cons_prefix_cons]
    | .text text :: rest => simp [startsName, List.cons_prefix_cons]
  simp only [RunsOn, List.infix_cons_iff, or_and_right, exists_or]
  exact or_congr_left hfirst

/-- The variable of a marker has no value if its name goes on. -/
theorem evaluate_marker (m : Marker) (rest : List Char) :
    evaluate paths ((markerVariable m).toList ++ rest) =
      if rest.head?.any isVariableChar then evaluate paths (rest.dropWhile isVariableChar)
      else (evaluate paths rest).map (paths.ofMarker m ++ ·) := by
  obtain ⟨name, hvariable, hname, hchars, hvalue, hlonger⟩ : ∃ name : List Char,
      (markerVariable m).toList = '$' :: name ∧ name ≠ [] ∧
        (∀ c ∈ name, isVariableChar c = true) ∧ paths.value name = paths.ofMarker m ∧
        ∀ run, run ≠ [] → paths.value (name ++ run) = [] := by
    unfold markerVariable StepPaths.ofMarker
    cases m.isInput with
    | true =>
        refine ⟨['i', 'n'], rfl, by simp, List.all_eq_true.mp rfl, rfl, fun run hrun => ?_⟩
        obtain ⟨c, run, rfl⟩ := List.exists_cons_of_ne_nil hrun
        simp [StepPaths.value]
    | false =>
        refine ⟨['o', 'u', 't'], rfl, by simp, List.all_eq_true.mp rfl, rfl, fun run hrun => ?_⟩
        obtain ⟨c, run, rfl⟩ := List.exists_cons_of_ne_nil hrun
        simp [StepPaths.value]
  rw [hvariable, List.cons_append, evaluate_variable hname hchars]
  cases rest with
  | nil => simp [hvalue]
  | cons c rest =>
      cases hc : isVariableChar c with
      | true =>
          rw [List.takeWhile_cons_of_pos hc, hlonger _ (List.cons_ne_nil _ _)]
          simp [hc]
      | false =>
          have hstop : ¬ isVariableChar c = true := by simp [hc]
          rw [List.takeWhile_cons_of_neg hstop, List.dropWhile_cons_of_neg hstop, List.append_nil,
            hvalue]
          simp [hc]

/-- A token has a reading, which lacks something exactly if a variable's name runs on. -/
theorem exists_evaluate (paths : StepPaths) (parts : List TokenPart) :
    ∃ read, evaluate paths (parts.flatMap lowered) = some read ∧
      (RunsOn parts → read.length < (paths.spelled parts).length) ∧
      (¬ RunsOn parts → read = paths.spelled parts) := by
  induction parts with
  | nil =>
      refine ⟨[], by rw [List.flatMap_nil, evaluate], fun h => ?_, fun _ => rfl⟩
      simp [RunsOn] at h
  | cons part parts ih =>
      obtain ⟨read, hread, hshort, hexact⟩ := ih
      have hle : read.length ≤ (paths.spelled parts).length := by
        by_cases h : RunsOn parts
        · exact Nat.le_of_lt (hshort h)
        · exact Nat.le_of_eq (congrArg List.length (hexact h))
      have hspelled : paths.spelled (part :: parts) = paths.meaning part ++ paths.spelled parts :=
        List.flatMap_cons
      rw [List.flatMap_cons, hspelled]
      cases part with
      | text text =>
          rw [runsOn_text]
          refine ⟨(Text.shellWord text).toList ++ read, ?_, fun h => ?_, fun h => ?_⟩
          · rw [lowered, commandText, Text.doubleDollars, String.toList_ofList, evaluate_doubled,
              hread]
            rfl
          · have := hshort h
            simp only [StepPaths.meaning, List.length_append]
            omega
          · rw [hexact h]
            rfl
      | marker m =>
          rw [runsOn_marker, lowered, evaluate_marker, startsName_lowered]
          cases hstarts : startsName parts with
          | true =>
              -- the name takes the first characters of what follows, and the paths are lost
              rw [← startsName_lowered] at hstarts
              obtain ⟨rest, hrest, hlt⟩ := exists_evaluate_dropWhile hread hstarts
              refine ⟨rest, by simpa using hrest, fun _ => ?_, fun h => absurd (.inl rfl) h⟩
              rw [List.length_append]
              omega
          | false =>
              refine ⟨paths.ofMarker m ++ read, by simp [hread], fun h => ?_, fun h => ?_⟩
              · have := hshort (h.resolve_left (by simp))
                simp only [StepPaths.meaning, List.length_append]
                omega
              · rw [hexact (fun hruns => h (.inr hruns))]
                rfl

theorem evaluate_lowered_iff (paths : StepPaths) (parts : List TokenPart) :
    evaluate paths (parts.flatMap lowered) = some (paths.spelled parts) ↔ ¬ RunsOn parts := by
  obtain ⟨read, hread, hshort, hexact⟩ := exists_evaluate paths parts
  rw [hread, Option.some.injEq]
  refine ⟨fun heq hruns => ?_, hexact⟩
  have hlt := hshort hruns
  rw [heq] at hlt
  exact Nat.lt_irrefl _ hlt

/-- Mixed tokens. Ninja reads a token as it is meant exactly if no marker stands right before
a text that begins with a letter, a digit, `_` or `-`. -/
theorem evaluate_commandToken (paths : StepPaths) (t : Token) :
    evaluate paths (commandToken t).toList = some (paths.spelled t.parts) ↔
      ¬ RunsOn t.parts := by
  rw [toList_commandToken, evaluate_lowered_iff]

/-- The output followed by `x` is read as a variable that is not bound. -/
theorem not_forall_evaluate_commandToken : ¬ ∀ (paths : StepPaths) (t : Token),
    t.hasMarker = true →
      evaluate paths (commandToken t).toList = some (paths.spelled t.parts) := by
  intro hall
  have hread := hall ⟨"x.c".toList, "x.o".toList⟩ ⟨[.marker .target, .text "x"]⟩ rfl
  rw [toList_commandToken, evaluate_lowered_iff] at hread
  exact hread ⟨.target, "x", List.infix_rfl, by decide⟩

end BuildPlan.Ninja
