import BuildPlan.Template.Token
import Mathlib.Data.List.Flatten
import Mathlib.Data.List.Chain

/-!
# BuildPlan.Proofs.Template.Token

Arguments cut at their markers. Cutting loses nothing, and it leaves no cut open: texts are
as long as they can be, so no two of them stand side by side, and none is empty unless the
argument is. A list of parts of this form can therefore be read off the argument that it
spells, wherever its markers and texts stand.
-/

namespace BuildPlan

/-! ### What parts are cut from -/

namespace Template

/-- What a part of a token is cut from. -/
def partChars : TokenPart → List Char
  | .text text => text.toList
  | .marker m => [m.sentinel]

theorem flatMap_partChars_pendingText (pending : List Char) :
    (Token.pendingText pending).flatMap partChars = pending.reverse := by
  cases pending with
  | nil => rfl
  | cons c rest => simp [Token.pendingText, partChars]

/-- Cutting loses nothing. -/
theorem flatMap_partChars_cut (pending chars : List Char) :
    (Token.cut pending chars).flatMap partChars = pending.reverse ++ chars := by
  induction chars generalizing pending with
  | nil => rw [Token.cut, flatMap_partChars_pendingText, List.append_nil]
  | cons c rest ih =>
      rw [Token.cut]
      split
      · next m hm =>
          rw [List.flatMap_append, flatMap_partChars_pendingText, List.flatMap_cons, ih, partChars,
            Marker.sentinel_of_ofSentinel? hm]
          rfl
      · rw [ih, List.reverse_cons, List.append_assoc]
        rfl

theorem flatMap_partChars_parse (argument : String) :
    (Token.parse argument).parts.flatMap partChars = argument.toList := by
  have hcut := flatMap_partChars_cut [] argument.toList
  rw [Token.parse]
  split
  · next hnone =>
      rw [hnone] at hcut
      exact hcut
  · exact hcut

end Template

namespace Token

open Template

variable {argument text : String} {pending chars : List Char} {parts rest : List TokenPart}
  {m : Marker}

/-- The argument that a token is cut from: its texts as they are, and for each marker the
character that stands for it. -/
def written (t : Token) : String := t.lower id fun m => .singleton m.sentinel

theorem toList_written (t : Token) : t.written.toList = t.parts.flatMap partChars := by
  rw [written, lower, String.toList_join, List.flatMap_map]
  refine List.flatMap_congr fun part _ => ?_
  cases part with
  | text text => rfl
  | marker m => exact String.toList_singleton m.sentinel

theorem written_ofText (text : String) : (ofText text).written = text :=
  String.toList_injective ((toList_written _).trans (List.flatMap_singleton _ _))

theorem written_parse (argument : String) : (parse argument).written = argument :=
  String.toList_injective ((toList_written _).trans (flatMap_partChars_parse argument))

/-! ### The form of the parts -/

/-- Is the part a text? -/
def isText : TokenPart → Bool
  | .text _ => true
  | .marker _ => false

/-- No character of the text stands for a marker. -/
def Unmarked (text : List Char) : Prop := ∀ m : Marker, m.sentinel ∉ text

theorem unmarked_iff : Unmarked chars ↔ ∀ c ∈ chars, Marker.ofSentinel? c = none := by
  constructor
  · intro h c hc
    cases hm : Marker.ofSentinel? c with
    | none => rfl
    | some m => exact absurd (Marker.sentinel_of_ofSentinel? hm ▸ hc) (h m)
  · intro h m hmem
    have hnone := h _ hmem
    rw [Marker.ofSentinel?_sentinel] at hnone
    cases hnone

/-- Parts as they are cut out of an argument: no text follows another one, no text has a marker
in it, and an empty text stands alone. -/
structure Canonical (parts : List TokenPart) : Prop where
  apart : parts.IsChain fun first second => ¬ (isText first ∧ isText second)
  unmarked : ∀ text, .text text ∈ parts → Unmarked text.toList
  lone : .text "" ∈ parts → parts = [.text ""]

/-- Parts of this form none of which is empty. -/
structure Solid (parts : List TokenPart) : Prop where
  apart : parts.IsChain fun first second => ¬ (isText first ∧ isText second)
  texts : ∀ text, .text text ∈ parts → Unmarked text.toList ∧ text ≠ ""

theorem canonical_text (h : Unmarked text.toList) : Canonical [.text text] where
  apart := .singleton _
  unmarked := fun other hother => by
    cases List.mem_singleton.mp hother
    exact h
  lone := fun hempty => by rw [List.mem_singleton.mp hempty]

theorem canonical_iff : Canonical parts ↔ Solid parts ∨ parts = [.text ""] := by
  constructor
  · intro h
    by_cases hempty : .text "" ∈ parts
    · exact .inr (h.lone hempty)
    · exact .inl ⟨h.apart, fun text htext => ⟨h.unmarked text htext, fun heq =>
        hempty (heq ▸ htext)⟩⟩
  · rintro (h | rfl)
    · exact ⟨h.apart, fun text htext => (h.texts text htext).1, fun hempty =>
        absurd rfl (h.texts "" hempty).2⟩
    · exact canonical_text fun _ hm => by cases hm

theorem solid_nil : Solid [] := ⟨.nil, fun _ h => by cases h⟩

theorem solid_marker_cons : Solid (.marker m :: rest) ↔ Solid rest := by
  constructor
  · intro h
    exact ⟨(List.isChain_cons.mp h.apart).2, fun text htext =>
      h.texts text (List.mem_cons_of_mem _ htext)⟩
  · intro h
    refine ⟨List.isChain_cons.mpr ⟨fun _ _ hboth => Bool.noConfusion hboth.1, h.apart⟩,
      fun text htext => ?_⟩
    rcases List.mem_cons.mp htext with heq | htext
    · cases heq
    · exact h.texts text htext

theorem solid_text_cons : Solid (.text text :: rest) ↔
    (Unmarked text.toList ∧ text ≠ "") ∧ (∀ next ∈ rest.head?, isText next = false) ∧
      Solid rest := by
  constructor
  · intro h
    obtain ⟨hnext, hrest⟩ := List.isChain_cons.mp h.apart
    refine ⟨h.texts text List.mem_cons_self, fun next hmem => ?_, hrest, fun other hother =>
      h.texts other (List.mem_cons_of_mem _ hother)⟩
    simpa using fun htext => hnext next hmem ⟨rfl, htext⟩
  · rintro ⟨htext, hnext, h⟩
    refine ⟨List.isChain_cons.mpr ⟨fun next hmem hboth => ?_, h.apart⟩, fun other hother => ?_⟩
    · rw [hnext next hmem] at hboth
      cases hboth.2
    · rcases List.mem_cons.mp hother with heq | hother
      · cases heq
        exact htext
      · exact h.texts other hother

/-! ### Cutting -/

/-- The text that is pending when a marker or the end comes is a part, unless it is empty. -/
theorem solid_pendingText_append (hpending : Unmarked pending) (h : Solid rest)
    (hnext : ∀ next ∈ rest.head?, isText next = false) : Solid (pendingText pending ++ rest) := by
  cases pending with
  | nil => exact h
  | cons c pending =>
      refine solid_text_cons.mpr ⟨⟨fun m hm => ?_, ?_⟩, hnext, h⟩
      · rw [String.toList_ofList, List.mem_reverse] at hm
        exact hpending m hm
      · simp

theorem solid_cut (hpending : Unmarked pending) : Solid (cut pending chars) := by
  induction chars generalizing pending with
  | nil =>
      rw [cut, ← List.append_nil (pendingText pending)]
      exact solid_pendingText_append hpending solid_nil (by simp)
  | cons c rest ih =>
      rw [cut]
      split
      · next m hm =>
          refine solid_pendingText_append hpending (solid_marker_cons.mpr (ih ?_)) ?_
          · exact fun _ => List.not_mem_nil
          · intro next hnext
            cases hnext
            rfl
      · next hnone =>
          refine ih (unmarked_iff.mpr fun d hd => ?_)
          rcases List.mem_cons.mp hd with rfl | hd
          · exact hnone
          · exact unmarked_iff.mp hpending d hd

/-- A text without markers is read up to its end. -/
theorem cut_append (h : Unmarked chars) (pending rest : List Char) :
    cut pending (chars ++ rest) = cut (chars.reverse ++ pending) rest := by
  rw [unmarked_iff] at h
  induction chars generalizing pending with
  | nil => rfl
  | cons c chars ih =>
      rw [List.cons_append, cut, h c List.mem_cons_self, List.reverse_cons, List.append_assoc]
      exact ih (fun d hd => h d (List.mem_cons_of_mem _ hd)) _

theorem cut_marker (pending : List Char) (m : Marker) (chars : List Char) :
    cut pending (m.sentinel :: chars) = pendingText pending ++ .marker m :: cut [] chars := by
  rw [cut, Marker.ofSentinel?_sentinel]

theorem pendingText_reverse (h : text ≠ "") : pendingText text.toList.reverse = [.text text] := by
  rw [pendingText, List.reverse_reverse, String.ofList_toList]
  simpa using h

/-- What such parts are written as is cut into these parts. -/
theorem cut_flatMap_partChars (h : Solid parts) : cut [] (parts.flatMap partChars) = parts := by
  induction parts with
  | nil => rfl
  | cons part rest ih =>
      rw [List.flatMap_cons]
      cases part with
      | marker m =>
          rw [partChars, List.singleton_append, cut_marker, ih (solid_marker_cons.mp h)]
          rfl
      | text text =>
          obtain ⟨⟨hunmarked, hne⟩, hnext, hrest⟩ := solid_text_cons.mp h
          rw [partChars, cut_append hunmarked, List.append_nil]
          cases rest with
          | nil => exact pendingText_reverse hne
          | cons next rest =>
              -- a text is closed by the marker behind it
              cases next with
              | text other => cases hnext _ rfl
              | marker m =>
                  have hcut := ih hrest
                  rw [List.flatMap_cons, partChars, List.singleton_append, cut_marker] at hcut ⊢
                  rw [pendingText_reverse hne, List.singleton_append]
                  exact congrArg _ hcut

/-! ### Tokens -/

theorem parse_of_cut (h : parts ≠ []) (hcut : cut [] argument.toList = parts) :
    parse argument = ⟨parts⟩ := by
  rw [parse, hcut]
  split
  · exact absurd rfl h
  · rfl

/-- A token whose parts are in this form is read off what it is written as. -/
theorem parse_written {t : Token} (h : Canonical t.parts) (hne : t.parts ≠ []) :
    parse t.written = t := by
  rcases canonical_iff.mp h with hsolid | hlone
  · refine parse_of_cut hne ?_
    rw [toList_written, cut_flatMap_partChars hsolid]
  · have hwritten : t.written = "" := by
      rw [written, lower, hlone]
      rfl
    rw [hwritten]
    exact congrArg Token.mk hlone.symm

/-- A text without markers is a token of its own. -/
theorem parse_of_unmarked (h : Unmarked text.toList) : parse text = ofText text := by
  have hparse := parse_written (t := ofText text) (canonical_text h) (List.cons_ne_nil _ _)
  rwa [written_ofText] at hparse

theorem canonical_parse (argument : String) :
    Canonical (parse argument).parts ∧ (parse argument).parts ≠ [] := by
  have hsolid : Solid (cut [] argument.toList) := solid_cut fun _ => List.not_mem_nil
  rw [parse]
  split
  · exact ⟨canonical_iff.mpr (.inr rfl), List.cons_ne_nil _ _⟩
  · next hsome => exact ⟨canonical_iff.mpr (.inl hsolid), hsome⟩

/-- Cutting an argument gives the one token that is written as the argument and whose parts, of
which there are some, are in this form. -/
theorem parse_eq_iff_canonical {t : Token} :
    parse argument = t ↔ t.written = argument ∧ Canonical t.parts ∧ t.parts ≠ [] := by
  constructor
  · rintro rfl
    exact ⟨written_parse argument, canonical_parse argument⟩
  · rintro ⟨rfl, hcanonical, hne⟩
    exact parse_written hcanonical hne

/-- No parts at all are in this form too, but the empty argument has an empty text. -/
theorem not_forall_parse_written :
    ¬ ∀ parts, Canonical parts → parse (written ⟨parts⟩) = ⟨parts⟩ := by
  intro hall
  exact absurd (hall [] (canonical_iff.mpr (.inl solid_nil))) (by decide)

end Token

end BuildPlan
