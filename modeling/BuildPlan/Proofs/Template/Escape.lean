import BuildPlan.Proofs.Template.Literal
import BuildPlan.Proofs.Template.Pieces
import BuildPlan.Proofs.Template.References

/-!
# BuildPlan.Proofs.Template.Escape

Escaped texts. Every dollar of an escaped text is written twice, so the text is read as
escapes and characters, and no reference starts in it. An escape comes to the dollar's
stand-in, which is not read again in the text that it is put into, and the dollars are put
back once, when everything has been expanded. So it makes no difference through how many
variables an escaped text is reached.
-/

namespace BuildPlan.Template

variable {ns : Namespace} {chain rest : List String} {name first text template : String}

/-! ### Reading an escaped text -/

/-- What an escaped character is read as. -/
def escapedPiece (c : Char) : Piece := if c = '$' then .dollar else .char c

theorem pieces_escape (text : String) :
    pieces (escape text).toList = text.toList.map escapedPiece := by
  rw [escape, Text.doubleDollars, String.toList_ofList]
  induction text.toList with
  | nil => rw [List.flatMap_nil, pieces, List.map_nil]
  | cons c rest ih =>
      rw [List.flatMap_cons, List.map_cons, ← ih, escapedPiece]
      by_cases hc : c = '$'
      · rw [if_pos hc, if_pos hc, List.cons_append, List.singleton_append, pieces]
        rfl
      · rw [if_neg hc, if_neg hc, List.singleton_append, pieces, nextPiece, if_neg hc]

/-- No dollar of an escaped text is part of a reference. -/
theorem references_escape (text : String) : references (pieces (escape text).toList) = [] := by
  rw [pieces_escape, references, List.filterMap_map, List.filterMap_eq_nil_iff]
  intro c _
  rw [Function.comp_apply, escapedPiece]
  by_cases hc : c = '$'
  · rw [if_pos hc]
  · rw [if_neg hc]

/-- The text with its dollars replaced by what travels for them. -/
def withStandIns (text : String) : String :=
  .ofList (text.toList.map fun c => if c = '$' then dollarStandIn else c)

theorem expandPieces_escape (ns : Namespace) (chain : List String) (text : String) :
    expandPieces ns chain (pieces (escape text).toList) = .ok (withStandIns text) := by
  rw [pieces_escape, withStandIns]
  induction text.toList with
  | nil => rw [List.map_nil, expandPieces, List.map_nil, String.ofList_nil]
  | cons c rest ih =>
      rw [List.map_cons, List.map_cons, String.ofList_cons, escapedPiece]
      split
      · rw [expandPieces, ih]
        rfl
      · rw [expandPieces, ih]
        rfl

/-- The dollars are put back, and whatever else looks like one of their stand-ins. -/
theorem restoreDollars_withStandIns (text : String) :
    restoreDollars (withStandIns text) = restoreDollars text := by
  rw [restoreDollars, withStandIns, String.toList_ofList, List.map_map, restoreDollars]
  congr 1
  refine List.map_congr_left fun c _ => ?_
  by_cases hc : c = '$'
  · subst hc
    rfl
  · rw [Function.comp_apply, if_neg hc]

/-! ### Variables that lead to a text -/

/-- The template that refers to the variable in braces. -/
def braced (name : String) : String := .ofList (Piece.reference name true).written

theorem pieces_braced (h : isName name.toList = true) :
    pieces (braced name).toList = [.reference name true] := by
  rw [braced, String.toList_ofList]
  exact (pieces_dollar_brace h).trans (by rw [String.ofList_toList])

/-- A variable stands for a reference to another one, that one for a reference to the next, and
the last one for the text. -/
inductive Relays (ns : Namespace) (text : String) : String → List String → Prop
  | last {name : String} (hname : isName name.toList = true)
      (hget : ns.get name = some (.text text)) : Relays ns text name []
  | next {name other : String} {rest : List String} (hname : isName name.toList = true)
      (hget : ns.get name = some (.text (braced other))) (h : Relays ns text other rest) :
      Relays ns text name (other :: rest)

theorem expandPieces_braced (hname : isName first.toList = true)
    (hget : ns.get first = some (.text text)) (hnodup : (chain ++ first :: rest).Nodup) :
    expandPieces ns chain (pieces (braced first).toList) =
      expandPieces ns (chain ++ [first]) (pieces text.toList) := by
  have hnew : first ∉ chain := fun hmem =>
    List.disjoint_of_nodup_append hnodup hmem List.mem_cons_self
  rw [pieces_braced hname]
  exact expandPieces_alone (referenceText_eq_ok_iff.mpr ⟨hnew, _, hget, rfl⟩)

/-- A reference to the first variable comes to what the text comes to behind the last one. -/
theorem expandPieces_of_relays (h : Relays ns text first rest)
    (hnodup : (chain ++ first :: rest).Nodup) :
    expandPieces ns chain (pieces (braced first).toList) =
      expandPieces ns (chain ++ first :: rest) (pieces text.toList) := by
  induction h generalizing chain with
  | last hname hget => exact expandPieces_braced hname hget hnodup
  | @next name other rest hname hget _ ih =>
      rw [expandPieces_braced hname hget hnodup]
      rw [List.append_cons chain name (other :: rest)] at hnodup ⊢
      exact ih hnodup

theorem subst_of_expandPieces {expanded : String}
    (h : expandPieces ns [] (pieces template.toList) = .ok expanded) :
    subst template ns = .ok (restoreDollars expanded) := by
  rw [subst, expand_eq, h]
  rfl

/-- Escaped text is not read again: it has no references, its expansion is the text, and so is
that of a reference which leads to it through any number of variables. -/
theorem subst_escape_exact (h : dollarStandIn ∉ text.toList) (ns : Namespace) :
    references (pieces (escape text).toList) = [] ∧ subst (escape text) ns = .ok text ∧
      ∀ first rest, (first :: rest).Nodup → Relays ns (escape text) first rest →
        subst (braced first) ns = .ok text := by
  have hrestored : restoreDollars (withStandIns text) = text := by
    rw [restoreDollars_withStandIns, restoreDollars_of_not_mem h]
  refine ⟨references_escape text, ?_, fun first rest hnodup hrelays => ?_⟩
  · rw [subst_of_expandPieces (expandPieces_escape ns [] text), hrestored]
  · have hexpanded : expandPieces ns [] (pieces (braced first).toList) = .ok (withStandIns text) :=
      (expandPieces_of_relays hrelays hnodup).trans (expandPieces_escape ns _ text)
    rw [subst_of_expandPieces hexpanded, hrestored]

/-- A text with dollars that would be read as escapes and as references. -/
def dollars : String := "$" ++ braced "last" ++ "$$$first$"

/-- Three variables, the last of which stands for the text. -/
def relayed : Namespace :=
  .ofPairs [("first", .text (braced "next")), ("next", .text (braced "last")),
    ("last", .text (escape dollars))]

theorem subst_escape_relayed :
    dollarStandIn ∉ dollars.toList ∧ ["first", "next", "last"].Nodup ∧
      Relays relayed (escape dollars) "first" ["next", "last"] ∧
      subst (braced "first") relayed = .ok dollars := by
  have hdollars : dollarStandIn ∉ dollars.toList := by decide
  have hnodup : ["first", "next", "last"].Nodup := by decide
  have hrelays : Relays relayed (escape dollars) "first" ["next", "last"] :=
    .next (by decide) rfl (.next (by decide) rfl (.last (by decide) rfl))
  exact ⟨hdollars, hnodup, hrelays,
    (subst_escape_exact hdollars relayed).2.2 "first" ["next", "last"] hnodup hrelays⟩

end BuildPlan.Template
