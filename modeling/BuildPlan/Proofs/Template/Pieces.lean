import BuildPlan.Template.Reference
import Mathlib.Data.List.TakeWhile

/-!
# BuildPlan.Proofs.Template.Pieces

How texts fall into pieces. No piece spans a blank, so the pieces on its two sides can be
read apart. `FirstPiece` says what each kind of piece is written as and where it ends. A text
is recognised as one reference exactly if it is read as this reference alone.
-/

namespace BuildPlan.Template

/-! ### Names -/

theorem ne_dollar_brace_of_isNameStart {c : Char} (h : isNameStart c = true) :
    c ≠ '$' ∧ c ≠ '{' := by
  constructor <;>
  · rintro rfl
    exact absurd h (by decide)

/-- The name at the start of a text ends where no character of a name follows. -/
theorem leadingName_append {c : Char} (hc : isNameChar c = false) (first rest : List Char) :
    leadingName (first ++ c :: rest) =
      (leadingName first).map fun found => (found.1, found.2 ++ c :: rest) := by
  have hstop : ¬ isNameChar c = true := by simp [hc]
  have hsplit : ∀ text : List Char,
      (text ++ c :: rest).takeWhile isNameChar = text.takeWhile isNameChar ∧
        (text ++ c :: rest).dropWhile isNameChar = text.dropWhile isNameChar ++ c :: rest := by
    intro text
    induction text with
    | nil => simp [hc]
    | cons d text ih =>
        rw [List.cons_append, List.takeWhile_cons, List.takeWhile_cons, List.dropWhile_cons,
          List.dropWhile_cons, ih.1, ih.2]
        split
        · exact ⟨rfl, rfl⟩
        · exact ⟨rfl, rfl⟩
  cases first with
  | nil =>
      have hstart : ¬ isNameStart c = true := by
        intro hstart
        simp [isNameChar, hstart] at hc
      simp [leadingName, hstart]
  | cons d first =>
      rw [List.cons_append, leadingName, leadingName, (hsplit first).1, (hsplit first).2]
      split <;> rfl

theorem leadingName_of_isName {text : List Char} (h : isName text = true) :
    leadingName text = some (text, []) := by
  cases text with
  | nil => cases h
  | cons c rest =>
      rw [isName, Bool.and_eq_true, List.all_eq_true] at h
      rw [leadingName, if_pos h.1, List.takeWhile_eq_self_iff.mpr h.2,
        List.dropWhile_eq_nil_iff.mpr h.2]

theorem leadingName_name_append {c : Char} (hc : isNameChar c = false) {name : List Char}
    (hname : isName name = true) (rest : List Char) :
    leadingName (name ++ c :: rest) = some (name, c :: rest) := by
  rw [leadingName_append hc, leadingName_of_isName hname]
  rfl

/-- The name at the start of a text is the longest one. -/
theorem leadingName_name {name after : List Char} (hname : isName name = true)
    (hend : ∀ c ∈ after.head?, isNameChar c = false) :
    leadingName (name ++ after) = some (name, after) := by
  cases after with
  | nil => rw [List.append_nil, leadingName_of_isName hname]
  | cons c after => exact leadingName_name_append (hend c rfl) hname after

/-! ### Blanks -/

theorem afterDollar_of_ne {c : Char} (h : c ≠ '$' ∧ c ≠ '{') (rest : List Char) :
    afterDollar (c :: rest) = (leadingName (c :: rest)).map fun found =>
      (.reference (.ofList found.1) false, found.2) := by
  rw [afterDollar]
  · cases leadingName (c :: rest) <;> rfl
  · exact fun _ heq => h.1 (List.cons.inj heq).1
  · exact fun _ heq => h.2 (List.cons.inj heq).1

theorem afterDollar_append_blank (first rest : List Char) :
    afterDollar (first ++ ' ' :: rest) =
      (afterDollar first).map fun found => (found.1, found.2 ++ ' ' :: rest) := by
  have hblank : isNameChar ' ' = false := by decide
  match first with
  | [] => rfl
  | c :: first =>
      by_cases hdollar : c = '$'
      · subst hdollar
        rfl
      by_cases hbrace : c = '{'
      · subst hbrace
        rw [List.cons_append, afterDollar, afterDollar, leadingName_append hblank]
        cases leadingName first with
        | none => rfl
        | some found =>
            obtain ⟨name, after⟩ := found
            cases after with
            | nil => rfl
            | cons d after =>
                by_cases hclosed : d = '}'
                · subst hclosed
                  rfl
                · simp [hclosed]
      · rw [List.cons_append, afterDollar_of_ne ⟨hdollar, hbrace⟩,
          afterDollar_of_ne ⟨hdollar, hbrace⟩, ← List.cons_append, leadingName_append hblank,
          Option.map_map, Option.map_map]
        rfl

theorem nextPiece_append_blank (c : Char) (first rest : List Char) :
    nextPiece c (first ++ ' ' :: rest) =
      ((nextPiece c first).1, (nextPiece c first).2 ++ ' ' :: rest) := by
  unfold nextPiece
  split
  · rw [afterDollar_append_blank]
    cases afterDollar first <;> rfl
  · rfl

/-- A blank is a piece of its own. -/
theorem pieces_append_blank (first rest : List Char) :
    pieces (first ++ ' ' :: rest) = pieces first ++ .char ' ' :: pieces rest := by
  fun_induction pieces first with
  | case1 =>
      rw [List.nil_append, pieces]
      rfl
  | case2 c first ih =>
      rw [List.cons_append, pieces, nextPiece_append_blank, ih, List.cons_append]

/-! ### References -/

theorem exists_cons_of_isName {text : List Char} (h : isName text = true) :
    ∃ c rest, text = c :: rest ∧ isNameStart c = true := by
  cases text with
  | nil => cases h
  | cons c rest =>
      rw [isName, Bool.and_eq_true] at h
      exact ⟨c, rest, rfl, h.1⟩

theorem pieces_dollar {text : List Char} (h : isName text = true) :
    pieces ('$' :: text) = [.reference (.ofList text) false] := by
  obtain ⟨c, rest, rfl, hstart⟩ := exists_cons_of_isName h
  have hnext : nextPiece '$' (c :: rest) = (.reference (.ofList (c :: rest)) false, []) := by
    rw [nextPiece, if_pos rfl, afterDollar_of_ne (ne_dollar_brace_of_isNameStart hstart),
      leadingName_of_isName h, Option.map_some, Option.getD_some]
  rw [pieces, hnext, pieces]

theorem pieces_dollar_brace {text : List Char} (h : isName text = true) :
    pieces ('$' :: '{' :: (text ++ ['}'])) = [.reference (.ofList text) true] := by
  have hclosed : isNameChar '}' = false := by decide
  have hnext : nextPiece '$' ('{' :: (text ++ ['}'])) = (.reference (.ofList text) true, []) := by
    rw [nextPiece, if_pos rfl, afterDollar, leadingName_append hclosed, leadingName_of_isName h]
    rfl
  rw [pieces, hnext, pieces]

/-- The text `$name` is one reference. -/
theorem pieces_reference {name : String} (h : isName name.toList = true) :
    pieces ("$" ++ name).toList = [.reference name false] := by
  have hchars : ("$" ++ name).toList = '$' :: name.toList := by simp
  rw [hchars, pieces_dollar h, String.ofList_toList]

theorem unbrace_eq_some_iff {text body : List Char} :
    unbrace text = some body ↔ text = '{' :: (body ++ ['}']) := by
  unfold unbrace
  split
  · next inner =>
      rw [List.cons.injEq, and_iff_right rfl]
      constructor
      · intro h
        split at h
        · next hlast =>
            cases h
            obtain ⟨body, rfl⟩ := List.getLast?_eq_some_iff.mp hlast
            rw [List.dropLast_concat]
        · cases h
      · rintro rfl
        rw [List.getLast?_concat, if_pos rfl, List.dropLast_concat]
  · next hother =>
      constructor
      · intro h
        cases h
      · intro h
        exact absurd h (hother _)

theorem unbrace_of_isName {text : List Char} (h : isName text = true) : unbrace text = none := by
  cases hbody : unbrace text with
  | none => rfl
  | some body =>
      obtain ⟨c, rest, heq, hstart⟩ := exists_cons_of_isName h
      rw [unbrace_eq_some_iff.mp hbody] at heq
      exact absurd (List.cons.inj heq).1.symm (ne_dollar_brace_of_isNameStart hstart).2

/-- A text is recognised as one reference if it is written as one. -/
theorem wholeReference_eq_some_iff {text name : String} :
    wholeReference text = some name ↔ isName name.toList = true ∧
      ∃ braced, text.toList = (Piece.reference name braced).written := by
  constructor
  · intro h
    unfold wholeReference at h
    split at h
    · next inner hinner =>
        rw [hinner]
        cases hbody : unbrace inner with
        | none =>
            simp only [hbody, Option.getD_none, Option.ite_none_right_eq_some,
              Option.some.injEq] at h
            obtain ⟨hname, rfl⟩ := h
            refine ⟨by rwa [String.toList_ofList], false, ?_⟩
            rw [Piece.written, String.toList_ofList]
        | some body =>
            simp only [hbody, Option.getD_some, Option.ite_none_right_eq_some,
              Option.some.injEq] at h
            obtain ⟨hname, rfl⟩ := h
            refine ⟨by rwa [String.toList_ofList], true, ?_⟩
            rw [Piece.written, String.toList_ofList, unbrace_eq_some_iff.mp hbody]
            rfl
    · cases h
  · intro h
    obtain ⟨hname, braced, htext⟩ := h
    cases braced with
    | false =>
        rw [Piece.written] at htext
        simp [wholeReference, htext, unbrace_of_isName hname, hname]
    | true =>
        have hbody : unbrace ('{' :: (name.toList ++ ['}'])) = some name.toList :=
          unbrace_eq_some_iff.mpr rfl
        rw [Piece.written, List.cons_append, List.cons_append] at htext
        simp [wholeReference, htext, hbody, hname]

/-- A reference that stands alone is read as one. -/
theorem pieces_written_reference {name : String} (h : isName name.toList = true) (braced : Bool) :
    pieces (Piece.reference name braced).written = [.reference name braced] := by
  cases braced with
  | false => rw [Piece.written, pieces_dollar h, String.ofList_toList]
  | true =>
      rw [Piece.written, List.cons_append, List.cons_append, pieces_dollar_brace h,
        String.ofList_toList]

/-! ### What a piece is written as -/

/-- What the name at the start of a text is: no name that starts there is longer. -/
theorem of_leadingName {text name after : List Char} (h : leadingName text = some (name, after)) :
    text = name ++ after ∧ isName name = true ∧ ∀ c ∈ after.head?, isNameChar c = false := by
  cases text with
  | nil => cases h
  | cons c rest =>
      rw [leadingName] at h
      split at h
      · next hstart =>
          cases h
          refine ⟨?_, ?_, ?_⟩
          · rw [List.cons_append, List.takeWhile_append_dropWhile]
          · rw [isName, hstart, Bool.true_and]
            exact List.all_takeWhile
          · intro d hd
            have hstop := List.head?_dropWhile_not isNameChar rest
            rw [Option.mem_def.mp hd] at hstop
            simpa using hstop
      · cases h

theorem not_isName_of_leadingName {text : List Char} (h : leadingName text = none)
    (name after : List Char) (hname : isName name = true) : text ≠ name ++ after := by
  rintro rfl
  obtain ⟨c, rest, rfl, hstart⟩ := exists_cons_of_isName hname
  rw [List.cons_append, leadingName, if_pos hstart] at h
  cases h

/-- The text begins with the piece, and the rest is behind it. A dollar stands for itself only
where it starts nothing else. -/
inductive FirstPiece : List Char → Piece → List Char → Prop
  | char {c rest} (h : c ≠ '$') : FirstPiece (c :: rest) (.char c) rest
  | dollar {rest} : FirstPiece ('$' :: '$' :: rest) .dollar rest
  | braced {name rest} (hname : isName name = true) :
      FirstPiece ('$' :: '{' :: (name ++ '}' :: rest)) (.reference (.ofList name) true) rest
  | bare {name rest} (hname : isName name = true)
      (hend : ∀ c ∈ rest.head?, isNameChar c = false) :
      FirstPiece ('$' :: (name ++ rest)) (.reference (.ofList name) false) rest
  | alone {rest} (hescape : ∀ after, rest ≠ '$' :: after)
      (hbare : ∀ name after, isName name = true → rest ≠ name ++ after)
      (hbraced : ∀ name after, isName name = true → rest ≠ '{' :: (name ++ '}' :: after)) :
      FirstPiece ('$' :: rest) (.char '$') rest

theorem firstPiece_afterDollar (rest : List Char) :
    FirstPiece ('$' :: rest) (nextPiece '$' rest).1 (nextPiece '$' rest).2 := by
  rw [nextPiece, if_pos rfl]
  match rest with
  | [] =>
      refine .alone ?_ ?_ ?_
      · intro after heq
        cases heq
      · intro name after hname heq
        obtain ⟨c, text, rfl, -⟩ := exists_cons_of_isName hname
        cases heq
      · intro name after hname heq
        cases heq
  | c :: rest =>
      by_cases hdollar : c = '$'
      · subst hdollar
        exact .dollar
      by_cases hbrace : c = '{'
      · subst hbrace
        rw [afterDollar]
        split
        · next name after hleads =>
            obtain ⟨rfl, hname, -⟩ := of_leadingName hleads
            exact .braced hname
        · next hleads =>
            refine .alone ?_ ?_ ?_
            · intro after heq
              exact hdollar (List.cons.inj heq).1
            · intro name after hname heq
              obtain ⟨d, text, rfl, hstart⟩ := exists_cons_of_isName hname
              exact (ne_dollar_brace_of_isNameStart hstart).2 (List.cons.inj heq).1.symm
            · intro name after hname heq
              have hclosed : isNameChar '}' = false := by decide
              refine hleads name after ?_
              rw [(List.cons.inj heq).2, leadingName_name_append hclosed hname]
      · rw [afterDollar_of_ne ⟨hdollar, hbrace⟩]
        cases hleads : leadingName (c :: rest) with
        | none =>
            refine .alone ?_ (not_isName_of_leadingName hleads) ?_
            · intro after heq
              exact hdollar (List.cons.inj heq).1
            · intro name after _ heq
              exact hbrace (List.cons.inj heq).1
        | some found =>
            obtain ⟨name, after⟩ := found
            obtain ⟨heq, hname, hend⟩ := of_leadingName hleads
            rw [heq]
            exact .bare hname hend

theorem firstPiece_nextPiece (c : Char) (rest : List Char) :
    FirstPiece (c :: rest) (nextPiece c rest).1 (nextPiece c rest).2 := by
  by_cases hc : c = '$'
  · subst hc
    exact firstPiece_afterDollar rest
  · rw [nextPiece, if_neg hc]
    exact .char hc

theorem FirstPiece.written_append {text after : List Char} {piece : Piece}
    (h : FirstPiece text piece after) : piece.written ++ after = text := by
  cases h <;> simp [Piece.written]

/-- The pieces are the whole text. -/
theorem flatMap_written_pieces (text : List Char) :
    (pieces text).flatMap Piece.written = text := by
  fun_induction pieces text with
  | case1 => rfl
  | case2 c rest ih =>
      rw [List.flatMap_cons, ih, (firstPiece_nextPiece c rest).written_append]

theorem FirstPiece.isName_reference {text after : List Char} {name : String} {braced : Bool}
    (h : FirstPiece text (.reference name braced) after) : isName name.toList = true := by
  cases h with
  | braced hname => rwa [String.toList_ofList]
  | bare hname _ => rwa [String.toList_ofList]

/-- A text is recognised as one reference exactly if it is read as one. -/
theorem wholeReference_iff_pieces {text name : String} :
    wholeReference text = some name ↔
      ∃ braced, pieces text.toList = [.reference name braced] := by
  rw [wholeReference_eq_some_iff]
  constructor
  · intro h
    obtain ⟨hname, braced, htext⟩ := h
    exact ⟨braced, by rw [htext, pieces_written_reference hname]⟩
  · intro h
    obtain ⟨braced, hpieces⟩ := h
    have hwritten := flatMap_written_pieces text.toList
    rw [hpieces, List.flatMap_singleton] at hwritten
    refine ⟨?_, braced, hwritten.symm⟩
    cases htext : text.toList with
    | nil =>
        rw [htext, pieces] at hpieces
        cases hpieces
    | cons c rest =>
        rw [htext, pieces] at hpieces
        have hfirst := firstPiece_nextPiece c rest
        rw [(List.cons.inj hpieces).1] at hfirst
        exact hfirst.isName_reference

end BuildPlan.Template
