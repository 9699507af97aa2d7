import BuildPlan.Proofs.Template.Pieces
import Mathlib.Logic.Relation

/-!
# BuildPlan.Proofs.Template.Positions

Templates read by positions. `pieceAt` looks at single characters of a text and moves on by
the bytes of a name; `Scans` goes on like this until no character is left. The positions stay
between the characters because every character of a name has one byte. What stands at a
position is what the grammar (`FirstPiece`) says of the text from there on, so both ways of
reading come to the same pieces, and a text that is recognised as one reference is one piece.
-/

namespace BuildPlan.Template

/-- The name that starts at a position of a text. -/
def nameAt (text : List Char) (pos : Nat) : Option String :=
  (leadingName (text.drop pos)).map fun found => .ofList found.1

/-- The escape or reference whose dollar stands in front of a position, and the position
behind it. -/
def dollarAt (text : List Char) (pos : Nat) : Option (Piece × Nat) :=
  if text[pos]? = some '$' then some (.dollar, pos + 1)
  else if text[pos]? = some '{' then
    match nameAt text (pos + 1) with
    | some name =>
      if text[pos + (1 + name.utf8ByteSize)]? = some '}' then
        some (.reference name true, pos + (name.utf8ByteSize + 2))
      else none
    | none => none
  else (nameAt text pos).map fun name => (.reference name false, pos + name.utf8ByteSize)

/-- The piece at a position of a text, and the position behind it. -/
def pieceAt (text : List Char) (pos : Nat) : Option (Piece × Nat) :=
  text[pos]?.map fun c =>
    if c = '$' then (dollarAt text (pos + 1)).getD (.char '$', pos + 1) else (.char c, pos + 1)

/-- Reading a text from a position on, until no character is left. -/
inductive Scans (text : List Char) : Nat → List Piece → Prop
  | stop {pos : Nat} (hend : pieceAt text pos = none) : Scans text pos []
  | step {pos behind : Nat} {piece : Piece} {ps : List Piece}
      (hread : pieceAt text pos = some (piece, behind)) (hrest : Scans text behind ps) :
      Scans text pos (piece :: ps)

/-- A single move of the reader. -/
def Moves (text : List Char) (pos behind : Nat) : Prop :=
  ∃ piece, pieceAt text pos = some (piece, behind)

variable {text after name : List Char} {piece : Piece} {ps : List Piece} {pos behind : Nat}

/-! ### The bytes of a name -/

theorem utf8Size_of_isNameChar {c : Char} (h : isNameChar c = true) : c.utf8Size = 1 := by
  rw [Char.utf8Size_eq_one_iff, UInt32.le_iff_toNat_le]
  show c.toNat ≤ 127
  simp only [isNameChar, isNameStart, Bool.or_eq_true, Bool.and_eq_true, decide_eq_true_eq,
    beq_iff_eq, Char.le_def, UInt32.le_iff_toNat_le] at h
  rcases h with (((h | h) | rfl) | h) | rfl
  · exact h.2.trans (by decide)
  · exact h.2.trans (by decide)
  · decide
  · exact h.2.trans (by decide)
  · decide

theorem utf8ByteSize_of_all (h : name.all isNameChar = true) :
    (String.ofList name).utf8ByteSize = name.length := by
  induction name with
  | nil => rfl
  | cons c name ih =>
      rw [List.all_cons, Bool.and_eq_true] at h
      rw [String.ofList_cons, String.utf8ByteSize_append, String.utf8ByteSize_singleton,
        utf8Size_of_isNameChar h.1, ih h.2, List.length_cons]
      omega

/-- A name has as many bytes as characters. -/
theorem utf8ByteSize_of_isName (h : isName name = true) :
    (String.ofList name).utf8ByteSize = name.length := by
  refine utf8ByteSize_of_all ?_
  obtain ⟨c, rest, rfl, hstart⟩ := exists_cons_of_isName h
  rw [isName, Bool.and_eq_true] at h
  rw [List.all_cons, h.2, isNameChar, hstart]
  rfl

/-! ### Reading behind other characters -/

theorem getElem?_behind (front text : List Char) (pos : Nat) :
    (front ++ text)[front.length + pos]? = text[pos]? := by
  rw [List.getElem?_append_right (Nat.le_add_right _ _), Nat.add_sub_cancel_left]

theorem nameAt_behind (front text : List Char) (pos : Nat) :
    nameAt (front ++ text) (front.length + pos) = nameAt text pos := by
  rw [nameAt, nameAt, List.drop_length_add_append]

/-- The position behind a piece, counted from a place further in front. -/
def shift (count : Nat) (found : Piece × Nat) : Piece × Nat := (found.1, count + found.2)

theorem dollarAt_behind (front text : List Char) (pos : Nat) :
    dollarAt (front ++ text) (front.length + pos) =
      (dollarAt text pos).map (shift front.length) := by
  unfold dollarAt
  simp only [Nat.add_assoc, getElem?_behind, nameAt_behind]
  split
  · rfl
  · split
    · cases nameAt text (pos + 1) with
      | none => rfl
      | some name =>
          dsimp only
          split <;> rfl
    · cases nameAt text pos <;> rfl

theorem pieceAt_behind (front text : List Char) (pos : Nat) :
    pieceAt (front ++ text) (front.length + pos) =
      (pieceAt text pos).map (shift front.length) := by
  unfold pieceAt
  rw [Nat.add_assoc, getElem?_behind, dollarAt_behind]
  cases text[pos]? with
  | none => rfl
  | some c =>
      simp only [Option.map_some]
      split
      · cases dollarAt text (pos + 1) <;> rfl
      · rfl

/-! ### What stands at a position -/

theorem nameAt_zero (hname : isName name = true) (hend : ∀ c ∈ after.head?, isNameChar c = false) :
    nameAt (name ++ after) 0 = some (.ofList name) := by
  rw [nameAt, List.drop_zero, leadingName_name hname hend]
  rfl

theorem dollarAt_braced (hname : isName name = true) (after : List Char) :
    dollarAt ('{' :: (name ++ '}' :: after)) 0 =
      some (.reference (.ofList name) true, name.length + 2) := by
  have hclosed : ∀ c ∈ ('}' :: after).head?, isNameChar c = false := by
    intro c hc
    cases hc
    decide
  have hnameAt : nameAt ('{' :: (name ++ '}' :: after)) 1 = some (.ofList name) :=
    (nameAt_behind ['{'] _ 0).trans (nameAt_zero hname hclosed)
  have hbrace : ('{' :: (name ++ '}' :: after))[1 + name.length]? = some '}' := by
    simp [Nat.add_comm 1]
  simp [dollarAt, hnameAt, utf8ByteSize_of_isName hname, hbrace]

theorem dollarAt_bare (hname : isName name = true)
    (hend : ∀ c ∈ after.head?, isNameChar c = false) :
    dollarAt (name ++ after) 0 = some (.reference (.ofList name) false, name.length) := by
  have hfirst : (name ++ after)[0]? ≠ some '$' ∧ (name ++ after)[0]? ≠ some '{' := by
    obtain ⟨c, rest, rfl, hstart⟩ := exists_cons_of_isName hname
    simpa using ne_dollar_brace_of_isNameStart hstart
  rw [dollarAt, if_neg hfirst.1, if_neg hfirst.2, nameAt_zero hname hend, Option.map_some,
    utf8ByteSize_of_isName hname, Nat.zero_add]

theorem dollarAt_brace_eq_none {rest : List Char}
    (hbraced : ∀ name after, isName name = true → rest ≠ name ++ '}' :: after) :
    dollarAt ('{' :: rest) 0 = none := by
  cases hleads : leadingName rest with
  | none => simp [dollarAt, nameAt, hleads]
  | some found =>
      obtain ⟨name, after⟩ := found
      obtain ⟨rfl, hname, -⟩ := of_leadingName hleads
      have hopen : ('{' :: (name ++ after))[1 + name.length]? ≠ some '}' := by
        intro hclosed
        rw [Nat.add_comm, List.getElem?_cons_succ] at hclosed
        have hafter : after.head? = some '}' := by
          rw [List.head?_eq_getElem?, ← getElem?_behind name after 0]
          exact hclosed
        obtain ⟨rest, rfl⟩ := List.head?_eq_some_iff.mp hafter
        exact hbraced name rest hname rfl
      simp [dollarAt, nameAt, hleads, utf8ByteSize_of_isName hname, hopen]

/-- A dollar that starts nothing else. -/
theorem dollarAt_eq_none (hescape : ∀ after, text ≠ '$' :: after)
    (hbare : ∀ name after, isName name = true → text ≠ name ++ after)
    (hbraced : ∀ name after, isName name = true → text ≠ '{' :: (name ++ '}' :: after)) :
    dollarAt text 0 = none := by
  cases text with
  | nil => rfl
  | cons c rest =>
      by_cases hbrace : c = '{'
      · subst hbrace
        refine dollarAt_brace_eq_none ?_
        intro name after hname heq
        exact hbraced name after hname (heq ▸ rfl)
      · have hdollar : c ≠ '$' := by
          intro heq
          exact hescape rest (heq ▸ rfl)
        have hleads : leadingName (c :: rest) = none := by
          cases hfound : leadingName (c :: rest) with
          | none => rfl
          | some found =>
              obtain ⟨heq, hname, -⟩ := of_leadingName hfound
              exact absurd heq (hbare found.1 found.2 hname)
        simp [dollarAt, hdollar, hbrace, nameAt, hleads]

/-- A dollar and what follows it. -/
theorem pieceAt_dollar (rest : List Char) :
    pieceAt ('$' :: rest) 0 = some (((dollarAt rest 0).map (shift 1)).getD (.char '$', 1)) := by
  have hbehind : dollarAt ('$' :: rest) 1 = (dollarAt rest 0).map (shift 1) :=
    dollarAt_behind ['$'] rest 0
  simp [pieceAt, hbehind]

/-- The reader finds the piece that a text begins with, and goes on behind it. -/
theorem pieceAt_zero (h : FirstPiece text piece after) :
    pieceAt text 0 = some (piece, piece.written.length) := by
  cases h with
  | char hc => simp [pieceAt, hc, Piece.written]
  | dollar => simp [pieceAt_dollar, dollarAt, shift, Piece.written]
  | braced hname =>
      rw [pieceAt_dollar, dollarAt_braced hname]
      simp [shift, Piece.written, Nat.add_comm 1]
  | bare hname hend =>
      rw [pieceAt_dollar, dollarAt_bare hname hend]
      simp [shift, Piece.written, Nat.add_comm 1]
  | alone hescape hbare hbraced =>
      rw [pieceAt_dollar, dollarAt_eq_none hescape hbare hbraced]
      rfl

/-- So it does behind other characters. -/
theorem pieceAt_of_firstPiece (front : List Char) (h : FirstPiece text piece after) :
    pieceAt (front ++ text) front.length = some (piece, front.length + piece.written.length) := by
  have hbehind := pieceAt_behind front text 0
  rw [pieceAt_zero h] at hbehind
  exact hbehind

theorem pieceAt_eq_none_iff : pieceAt text pos = none ↔ text.length ≤ pos := by
  rw [pieceAt, Option.map_eq_none_iff, List.getElem?_eq_none_iff]

theorem pieceAt_front_eq_some_iff (front text : List Char) :
    pieceAt (front ++ text) front.length = some (piece, behind) ↔
      ∃ after, FirstPiece text piece after ∧ behind = front.length + piece.written.length := by
  constructor
  · intro hread
    cases text with
    | nil =>
        have hend : pieceAt (front ++ []) front.length = none := pieceAt_eq_none_iff.mpr (by simp)
        rw [hend] at hread
        cases hread
    | cons c rest =>
        have hfirst := firstPiece_nextPiece c rest
        rw [pieceAt_of_firstPiece front hfirst, Option.some.injEq, Prod.mk.injEq] at hread
        obtain ⟨rfl, rfl⟩ := hread
        exact ⟨_, hfirst, rfl⟩
  · intro h
    obtain ⟨after, hfirst, rfl⟩ := h
    exact pieceAt_of_firstPiece front hfirst

/-- At every position of a text, the reader finds what the grammar allows there. -/
theorem pieceAt_eq_some_iff (hpos : pos ≤ text.length) :
    pieceAt text pos = some (piece, behind) ↔
      behind ≤ text.length ∧ FirstPiece (text.drop pos) piece (text.drop behind) := by
  have hcut : text.take pos ++ text.drop pos = text := List.take_append_drop pos text
  have hlength : (text.take pos).length = pos := List.length_take_of_le hpos
  have hread : pieceAt text pos = some (piece, behind) ↔
      ∃ after, FirstPiece (text.drop pos) piece after ∧ behind = pos + piece.written.length := by
    have hfront : pieceAt (text.take pos ++ text.drop pos) (text.take pos).length =
        some (piece, behind) ↔ _ := pieceAt_front_eq_some_iff _ _
    rwa [hcut, hlength] at hfront
  rw [hread]
  constructor
  · intro h
    obtain ⟨after, hfirst, rfl⟩ := h
    have hwhole := hfirst.written_append
    have hafter : text.drop (pos + piece.written.length) = after := by
      rw [← List.drop_drop, ← hwhole, List.drop_left]
    have hlengths := congrArg List.length hwhole
    rw [List.length_append, List.length_drop] at hlengths
    exact ⟨by omega, hafter ▸ hfirst⟩
  · intro h
    obtain ⟨hbehind, hfirst⟩ := h
    have hlengths := congrArg List.length hfirst.written_append
    rw [List.length_append, List.length_drop, List.length_drop] at hlengths
    exact ⟨_, hfirst, by omega⟩

/-! ### Reading to the end -/

/-- Reading by positions comes to the pieces of what is left. -/
theorem scans_iff (front text : List Char) :
    Scans (front ++ text) front.length ps ↔ ps = pieces text := by
  fun_induction pieces text generalizing front ps with
  | case1 =>
      have hend : pieceAt (front ++ []) front.length = none := pieceAt_eq_none_iff.mpr (by simp)
      constructor
      · intro h
        cases h with
        | stop => rfl
        | step hread =>
            rw [hend] at hread
            cases hread
      · intro h
        exact h ▸ .stop hend
  | case2 c rest ih =>
      have hfirst := firstPiece_nextPiece c rest
      have hread := pieceAt_of_firstPiece front hfirst
      have hrest : ∀ {ps}, Scans (front ++ c :: rest)
          (front.length + (nextPiece c rest).1.written.length) ps ↔
            ps = pieces (nextPiece c rest).2 := by
        intro ps
        rw [← ih (front ++ (nextPiece c rest).1.written), List.append_assoc,
          hfirst.written_append, List.length_append]
      constructor
      · intro h
        cases h with
        | stop hend =>
            rw [hend] at hread
            cases hread
        | step hread' hscan =>
            rw [hread, Option.some.injEq, Prod.mk.injEq] at hread'
            obtain ⟨rfl, rfl⟩ := hread'
            rw [hrest.mp hscan]
      · intro h
        exact h ▸ .step hread (hrest.mpr rfl)

/-- No move leads past the end. -/
theorem le_length_of_moves (h : Relation.ReflTransGen (Moves text) 0 pos) : pos ≤ text.length := by
  induction h with
  | refl => exact Nat.zero_le _
  | tail _ hmove ih =>
      obtain ⟨piece, hread⟩ := hmove
      exact ((pieceAt_eq_some_iff ih).mp hread).1

/-- A text is recognised as one reference exactly if it is read as this reference alone. Reading
by positions comes to the same pieces, which spell the text from end to end. It passes no
position behind the end and stops there only; and what it finds at a position is the one piece
that the grammar allows there. -/
theorem readings_agree (text : String) :
    (∀ name, wholeReference text = some name ↔
      ∃ braced, pieces text.toList = [.reference name braced]) ∧
    (∀ ps, Scans text.toList 0 ps ↔ ps = pieces text.toList) ∧
    (pieces text.toList).flatMap Piece.written = text.toList ∧
    ∀ pos, Relation.ReflTransGen (Moves text.toList) 0 pos →
      pos ≤ text.toList.length ∧
      (pieceAt text.toList pos = none ↔ pos = text.toList.length) ∧
      ∀ piece behind, pieceAt text.toList pos = some (piece, behind) ↔
        behind ≤ text.toList.length ∧
          FirstPiece (text.toList.drop pos) piece (text.toList.drop behind) := by
  refine ⟨?_, ?_, flatMap_written_pieces _, ?_⟩
  · intro name
    exact wholeReference_iff_pieces
  · intro ps
    exact scans_iff [] text.toList
  · intro pos hmoves
    have hpos := le_length_of_moves hmoves
    refine ⟨hpos, ?_, ?_⟩
    · rw [pieceAt_eq_none_iff]
      omega
    · intro piece behind
      exact pieceAt_eq_some_iff hpos

example : pieces ['$', '$', '$', '{', 'a', '}', '$', 'b', '.', 'c', '$', '{', 'd'] =
    [.dollar, .reference "a" true, .reference "b.c" false, .char '$', .char '{', .char 'd'] := by
  cbv

end BuildPlan.Template
