import BuildPlan.Ninja.Rule
import BuildPlan.Proofs.Template.Pieces
import BuildPlan.Proofs.Text.Replace
import Mathlib.Data.List.Basic

/-!
# BuildPlan.Proofs.Ninja.Fallback

The command of a step that has not been expanded. The template's references to markers are
to be spelled as the file spells them, but what is replaced are texts, one after the other,
and nothing is read by the grammar of templates. The two come to the same unless a marker's
name stands where the grammar reads no reference to it: behind an escaped dollar, or as the
beginning of a longer name.
-/

namespace BuildPlan.Ninja

open Template

/-! ### References to markers -/

/-- The marker that a reference is about. -/
def marker? (name : String) : Option Marker := Marker.all.find? fun m => m.name = name

/-- A piece of a template, with a reference to a marker spelled as the file spells it. -/
def respelled : Piece → List Char
  | .reference name braced =>
    match marker? name with
    | some m => (markerVariable m).toList
    | none => (Piece.reference name braced).written
  | piece => piece.written

/-- The template in which the references to markers are spelled as the file spells them, and
nothing else is changed. -/
def respell (template : String) : String :=
  .ofList ((pieces template.toList).flatMap respelled)

/-- A marker's name in braces. -/
def bracedName (m : Marker) : List Char := '{' :: (m.name.toList ++ ['}'])

/-- Behind a dollar, the text would be replaced. -/
def StartsWithMarker (text : List Char) : Prop :=
  ∃ m : Marker, bracedName m <+: text ∨ m.name.toList <+: text

/-- At a piece and the text behind it, a text is replaced that is no reference to a marker. -/
def MisreadAt (after : List Char) : Piece → Prop
  | .dollar => StartsWithMarker after
  | .reference name false => marker? name = none ∧ ∃ m : Marker, m.name.toList <+: name.toList
  | _ => False

def Misread : List Piece → Prop
  | [] => False
  | piece :: rest => MisreadAt (rest.flatMap Piece.written) piece ∨ Misread rest

variable {m : Marker} {text rest name after : List Char}

theorem marker?_eq_some_iff {name : String} : marker? name = some m ↔ m.name = name := by
  constructor
  · intro h
    simpa using List.find?_some h
  · rintro rfl
    cases m <;> decide

theorem marker?_ofList_eq_some_iff :
    marker? (.ofList name) = some m ↔ m.name.toList = name := by
  rw [marker?_eq_some_iff]
  constructor
  · intro h
    rw [h, String.toList_ofList]
  · rintro rfl
    rw [String.ofList_toList]

theorem isName_name (m : Marker) : isName m.name.toList = true := by
  cases m <;> decide

theorem isNameChar_dollar : isNameChar '$' = false := by decide

theorem isNameChar_of_isName (h : isName text = true) : ∀ c ∈ text, isNameChar c = true := by
  obtain ⟨c, rest, rfl, hstart⟩ := exists_cons_of_isName h
  rw [isName, Bool.and_eq_true, List.all_eq_true] at h
  intro d hd
  cases hd with
  | head => rw [isNameChar, hstart, Bool.true_or, Bool.true_or]
  | tail _ hd => exact h.2 d hd

theorem notMem_of_isName {c : Char} (h : isName text = true) (hc : isNameChar c = false) :
    c ∉ text := by
  intro hmem
  rw [isNameChar_of_isName h c hmem] at hc
  cases hc

/-! ### Where a text is replaced -/

theorem not_startsWithMarker_dollar (rest : List Char) : ¬ StartsWithMarker ('$' :: rest) := by
  rintro ⟨m, h | h⟩
  · exact absurd (List.cons_prefix_cons.mp h).1 (by decide)
  · obtain ⟨c, others, hname, hstart⟩ := exists_cons_of_isName (isName_name m)
    rw [hname] at h
    exact (ne_dollar_brace_of_isNameStart hstart).1 (List.cons_prefix_cons.mp h).1

/-- In braces, the whole name counts. -/
theorem startsWithMarker_braced_iff (hname : isName name = true) :
    StartsWithMarker ('{' :: (name ++ '}' :: rest)) ↔ ∃ m : Marker, m.name.toList = name := by
  have hclosed : isNameChar '}' = false := by decide
  constructor
  · rintro ⟨m, h | h⟩
    · obtain ⟨others, heq⟩ := (List.cons_prefix_cons.mp h).2
      rw [List.append_assoc, List.singleton_append] at heq
      have hleads := leadingName_name_append hclosed hname rest
      rw [← heq, leadingName_name_append hclosed (isName_name m)] at hleads
      cases hleads
      exact ⟨m, rfl⟩
    · obtain ⟨c, others, hcons, hstart⟩ := exists_cons_of_isName (isName_name m)
      rw [hcons] at h
      exact absurd (List.cons_prefix_cons.mp h).1 (ne_dollar_brace_of_isNameStart hstart).2
  · rintro ⟨m, rfl⟩
    refine ⟨m, .inl ⟨rest, ?_⟩⟩
    rw [bracedName, List.cons_append, List.append_assoc, List.singleton_append]

/-- Without braces, the beginning of the name is enough. -/
theorem startsWithMarker_bare_iff (hname : isName name = true)
    (hend : ∀ c ∈ after.head?, isNameChar c = false) :
    StartsWithMarker (name ++ after) ↔ ∃ m : Marker, m.name.toList <+: name := by
  constructor
  · rintro ⟨m, h | h⟩
    · obtain ⟨c, others, rfl, hstart⟩ := exists_cons_of_isName hname
      exact absurd (List.cons_prefix_cons.mp h).1.symm (ne_dollar_brace_of_isNameStart hstart).2
    · refine ⟨m, (List.prefix_or_prefix_of_prefix h (List.prefix_append _ _)).elim id ?_⟩
      -- a marker's name that is longer would go on with a character behind the name
      rintro ⟨more, hmore⟩
      cases more with
      | nil => exact ⟨[], by rw [← hmore, List.append_nil, List.append_nil]⟩
      | cons c more =>
          rw [← hmore, List.prefix_append_right_inj] at h
          obtain ⟨others, rfl⟩ := h
          have hc : isNameChar c = true := by
            refine isNameChar_of_isName (isName_name m) c ?_
            rw [← hmore]
            exact List.mem_append_right _ List.mem_cons_self
          rw [hend c rfl] at hc
          cases hc
  · rintro ⟨m, h⟩
    exact ⟨m, .inr (h.trans (List.prefix_append _ _))⟩

/-! ### One replacement after the other -/

/-- The name of the variable that holds a marker's paths. -/
def variableName (m : Marker) : List Char := (if m.isInput then "in" else "out").toList

/-- What is replaced for a marker, and by what, each behind a dollar. -/
def entries (m : Marker) : List (List Char × List Char) :=
  [(bracedName m, variableName m), (m.name.toList, variableName m)]

def markerTable : List (List Char × List Char) :=
  [Marker.sources, .source, .targets, .target].flatMap entries

theorem toList_markerVariable (m : Marker) : (markerVariable m).toList = '$' :: variableName m := by
  cases m <;> rfl

theorem mem_markerTable_iff {entry : List Char × List Char} :
    entry ∈ markerTable ↔ ∃ m, entry ∈ entries m := by
  rw [markerTable, List.mem_flatMap]
  constructor
  · rintro ⟨m, -, hentry⟩
    exact ⟨m, hentry⟩
  · rintro ⟨m, hentry⟩
    refine ⟨m, ?_, hentry⟩
    cases m <;> decide

theorem dollar_notMem {entry : List Char × List Char} (h : entry ∈ markerTable) :
    '$' ∉ entry.1 ∧ '$' ∉ entry.2 := by
  revert entry
  decide

/-- What a marker is spelled as is no marker. -/
theorem not_prefix_replacement {entry known : List Char × List Char} (hentry : entry ∈ markerTable)
    (hknown : known ∈ markerTable) (rest : List Char) : ¬ entry.1 <+: known.2 ++ rest := by
  have hheads : ∀ entry ∈ markerTable, ∀ known ∈ markerTable,
      entry.1 ≠ [] ∧ known.2 ≠ [] ∧ entry.1.head? ≠ known.2.head? := by decide
  obtain ⟨hpattern, hreplacement, hhead⟩ := hheads entry hentry known hknown
  obtain ⟨c, others, hc⟩ := List.exists_cons_of_ne_nil hpattern
  obtain ⟨d, others', hd⟩ := List.exists_cons_of_ne_nil hreplacement
  rw [hc, hd] at hhead ⊢
  exact fun hprefix => hhead (congrArg some (List.cons_prefix_cons.mp hprefix).1)

theorem toList_spellMarker (command : String) (m : Marker) :
    (spellMarker command m).toList = (entries m).foldl
      (fun text entry => Text.replaceChars ('$' :: entry.1) ('$' :: entry.2) text)
      command.toList := by
  have hbraced : ("$\x7b" ++ m.name ++ "\x7d").toList = '$' :: bracedName m := by
    simp [bracedName]
  have hbare : ("$" ++ m.name).toList = '$' :: m.name.toList := by simp
  rw [spellMarker, Text.replaceAll, Text.replaceAll, String.toList_ofList, String.toList_ofList,
    hbraced, hbare, toList_markerVariable]
  rfl

theorem toList_spellMarkers (template : String) :
    (spellMarkers template).toList = Text.replaceMarked '$' markerTable template.toList := by
  rw [← Text.foldl_replaceChars (fun entry => dollar_notMem)
    (fun entry hentry known hknown => not_prefix_replacement hentry hknown), markerTable,
    List.foldl_flatMap]
  exact (List.foldl_hom String.toList fun command m => (toList_spellMarker command m).symm).symm

/-! ### One piece after the other -/

theorem find?_eq_none_iff :
    (markerTable.find? fun entry => entry.1.isPrefixOf text) = none ↔ ¬ StartsWithMarker text := by
  simp only [List.find?_eq_none, mem_markerTable_iff, List.isPrefixOf_iff_prefix]
  constructor
  · rintro h ⟨m, hbraced | hbare⟩
    · exact h (bracedName m, variableName m) ⟨m, List.mem_cons_self⟩ hbraced
    · exact h (m.name.toList, variableName m) ⟨m, List.mem_cons_of_mem _ List.mem_cons_self⟩ hbare
  · rintro h entry ⟨m, hentry⟩ hprefix
    rw [entries, List.mem_pair] at hentry
    obtain rfl | rfl := hentry
    · exact h ⟨m, .inl hprefix⟩
    · exact h ⟨m, .inr hprefix⟩

theorem replaced_of_not_startsWithMarker (h : ¬ StartsWithMarker text) :
    Text.replaceMarked '$' markerTable ('$' :: text) =
      '$' :: Text.replaceMarked '$' markerTable text :=
  Text.replaceMarked_not_found (find?_eq_none_iff.mpr h)

/-- What is replaced gets shorter. -/
theorem length_replaced_lt (h : StartsWithMarker text) :
    (Text.replaceMarked '$' markerTable ('$' :: text)).length <
      ('$' :: Text.replaceMarked '$' markerTable text).length := by
  have hshorter : ∀ entry ∈ markerTable, entry.2.length < entry.1.length := by decide
  cases hfind : markerTable.find? fun entry => entry.1.isPrefixOf text with
  | none => exact absurd h (find?_eq_none_iff.mp hfind)
  | some entry =>
      have hentry := List.mem_of_find?_eq_some hfind
      exact Text.length_replaceMarked_lt hfind (dollar_notMem hentry).1 (hshorter entry hentry)

theorem replaced_braced (m : Marker) (rest : List Char) :
    Text.replaceMarked '$' markerTable ('$' :: '{' :: (m.name.toList ++ '}' :: rest)) =
      (markerVariable m).toList ++ Text.replaceMarked '$' markerTable rest := by
  have hfind : (markerTable.find? fun entry =>
      entry.1.isPrefixOf ('{' :: (m.name.toList ++ '}' :: rest))) =
        some (bracedName m, variableName m) := by
    cases m <;> rfl
  have hdrop : ('{' :: (m.name.toList ++ '}' :: rest)).drop (bracedName m).length = rest := by
    cases m <;> rfl
  rw [Text.replaceMarked_found hfind, hdrop, toList_markerVariable, List.cons_append]

/-- Since the longer names come first, the text that is replaced is the whole reference. -/
theorem replaced_bare (m : Marker) (hend : ∀ c ∈ after.head?, isNameChar c = false) :
    Text.replaceMarked '$' markerTable ('$' :: (m.name.toList ++ after)) =
      (markerVariable m).toList ++ Text.replaceMarked '$' markerTable after := by
  have hlonger : ['S'].isPrefixOf after = false := by
    cases after with
    | nil => rfl
    | cons c after =>
        have hc : ('S' == c) = false := by
          refine beq_false_of_ne ?_
          rintro rfl
          exact absurd (hend _ rfl) (by decide)
        rw [List.isPrefixOf, hc, Bool.false_and]
  have hfind : (markerTable.find? fun entry => entry.1.isPrefixOf (m.name.toList ++ after)) =
      some (m.name.toList, variableName m) := by
    cases m with
    | sources => rfl
    | targets => rfl
    | source => simp [markerTable, entries, bracedName, variableName, Marker.name, hlonger]
    | target => simp [markerTable, entries, bracedName, variableName, Marker.name, hlonger]
  rw [Text.replaceMarked_found hfind, List.drop_left, toList_markerVariable, List.cons_append]

theorem replaced_of_dollar_notMem (hstarts : ¬ StartsWithMarker (text ++ after))
    (htext : '$' ∉ text) :
    Text.replaceMarked '$' markerTable ('$' :: (text ++ after)) =
      '$' :: text ++ Text.replaceMarked '$' markerTable after := by
  rw [replaced_of_not_startsWithMarker hstarts, Text.replaceMarked_append htext, List.cons_append]

/-- A reference in braces comes out as the grammar asks for. -/
theorem replaced_braced_reference (hname : isName name = true) (after : List Char) :
    Text.replaceMarked '$' markerTable ('$' :: '{' :: (name ++ '}' :: after)) =
      respelled (.reference (.ofList name) true) ++ Text.replaceMarked '$' markerTable after := by
  cases hmarker : marker? (.ofList name) with
  | some m =>
      obtain rfl := marker?_ofList_eq_some_iff.mp hmarker
      rw [replaced_braced, respelled, hmarker]
  | none =>
      have hstarts : ¬ StartsWithMarker ('{' :: (name ++ '}' :: after)) := by
        rw [startsWithMarker_braced_iff hname]
        rintro ⟨m, hm⟩
        rw [marker?_ofList_eq_some_iff.mpr hm] at hmarker
        cases hmarker
      have hspelled : '$' ∉ '{' :: (name ++ ['}']) := by
        simp [notMem_of_isName hname isNameChar_dollar]
      have hwhole : '{' :: (name ++ '}' :: after) = '{' :: (name ++ ['}']) ++ after := by simp
      rw [hwhole] at hstarts ⊢
      rw [replaced_of_dollar_notMem hstarts hspelled, respelled, hmarker]
      simp [Piece.written]

/-- A reference without braces does so if it is one to a marker. -/
theorem replaced_bare_reference_of_some (hmarker : marker? (.ofList name) = some m)
    (hend : ∀ c ∈ after.head?, isNameChar c = false) :
    Text.replaceMarked '$' markerTable ('$' :: (name ++ after)) =
      respelled (.reference (.ofList name) false) ++ Text.replaceMarked '$' markerTable after := by
  obtain rfl := marker?_ofList_eq_some_iff.mp hmarker
  rw [replaced_bare m hend, respelled, hmarker]

theorem respelled_bare_of_none (hmarker : marker? (.ofList name) = none) :
    respelled (.reference (.ofList name) false) = '$' :: name := by
  rw [respelled, hmarker]
  simp [Piece.written]

/-- At each piece, either nothing is misread and the piece comes out as the grammar asks for, or
what comes out is too short. -/
theorem replaced_step {piece : Piece} (h : FirstPiece text piece after) :
    (¬ MisreadAt after piece ∧ Text.replaceMarked '$' markerTable text =
        respelled piece ++ Text.replaceMarked '$' markerTable after) ∨
      (MisreadAt after piece ∧ (Text.replaceMarked '$' markerTable text).length <
        (respelled piece ++ Text.replaceMarked '$' markerTable after).length) := by
  cases h with
  | char hc => exact .inl ⟨id, Text.replaceMarked_cons hc after⟩
  | dollar =>
      rw [replaced_of_not_startsWithMarker (not_startsWithMarker_dollar after)]
      by_cases hstarts : StartsWithMarker after
      · refine .inr ⟨hstarts, ?_⟩
        simpa [respelled, Piece.written] using length_replaced_lt hstarts
      · refine .inl ⟨hstarts, ?_⟩
        rw [replaced_of_not_startsWithMarker hstarts]
        rfl
  | braced hname => exact .inl ⟨id, replaced_braced_reference hname after⟩
  | @bare name _ hname hend =>
      cases hmarker : marker? (.ofList name) with
      | some m =>
          refine .inl ⟨?_, replaced_bare_reference_of_some hmarker hend⟩
          rintro ⟨hnone, -⟩
          rw [hmarker] at hnone
          cases hnone
      | none =>
          have hdollar : '$' ∉ name := notMem_of_isName hname isNameChar_dollar
          have hmisread : MisreadAt after (.reference (.ofList name) false) ↔
              StartsWithMarker (name ++ after) := by
            rw [MisreadAt, and_iff_right hmarker, String.toList_ofList,
              startsWithMarker_bare_iff hname hend]
          rw [hmisread, respelled_bare_of_none hmarker]
          by_cases hstarts : StartsWithMarker (name ++ after)
          · have hlength := length_replaced_lt hstarts
            rw [Text.replaceMarked_append hdollar] at hlength
            exact .inr ⟨hstarts, hlength⟩
          · exact .inl ⟨hstarts, replaced_of_dollar_notMem hstarts hdollar⟩
  | alone _ hbare hbraced =>
      refine .inl ⟨id, replaced_of_not_startsWithMarker ?_⟩
      rintro ⟨m, ⟨rest, rfl⟩ | ⟨rest, rfl⟩⟩
      · refine hbraced m.name.toList rest (isName_name m) ?_
        rw [bracedName, List.cons_append, List.append_assoc, List.singleton_append]
      · exact hbare m.name.toList rest (isName_name m) rfl

/-- So it is with the whole text. -/
theorem replaced_pieces (text : List Char) :
    (¬ Misread (pieces text) ∧ Text.replaceMarked '$' markerTable text =
        (pieces text).flatMap respelled) ∨
      (Misread (pieces text) ∧ (Text.replaceMarked '$' markerTable text).length <
        ((pieces text).flatMap respelled).length) := by
  fun_induction pieces text with
  | case1 => exact .inl ⟨id, by rw [Text.replaceMarked, List.flatMap_nil]⟩
  | case2 c rest ih =>
      have hstep := replaced_step (firstPiece_nextPiece c rest)
      rw [List.flatMap_cons, Misread, flatMap_written_pieces]
      rcases hstep with ⟨hgood, hstep⟩ | ⟨hbad, hstep⟩
      · rw [hstep]
        rcases ih with ⟨hrest, ih⟩ | ⟨hrest, ih⟩
        · exact .inl ⟨not_or.mpr ⟨hgood, hrest⟩, by rw [ih]⟩
        · refine .inr ⟨.inr hrest, ?_⟩
          rw [List.length_append, List.length_append]
          omega
      · refine .inr ⟨.inl hbad, ?_⟩
        rw [List.length_append] at hstep ⊢
        have hrest : (Text.replaceMarked '$' markerTable (nextPiece c rest).2).length ≤
            ((pieces (nextPiece c rest).2).flatMap respelled).length := by
          rcases ih with ⟨-, ih⟩ | ⟨-, ih⟩
          · rw [ih]
          · exact Nat.le_of_lt ih
        omega

theorem spellMarkers_eq_respell_iff (template : String) :
    spellMarkers template = respell template ↔ ¬ Misread (pieces template.toList) := by
  have hpieces := replaced_pieces template.toList
  rw [← toList_spellMarkers] at hpieces
  rw [respell, ← String.toList_inj, String.toList_ofList]
  rcases hpieces with ⟨hgood, hsame⟩ | ⟨hbad, hshorter⟩
  · exact iff_of_true hsame hgood
  · refine iff_of_false (fun hsame => ?_) (not_not_intro hbad)
    rw [hsame] at hshorter
    exact Nat.lt_irrefl _ hshorter

/-! ### The command -/

/-- The command of a step that has not been expanded is a text made from its template. It is
the template with nothing but the references to markers changed, exactly if nothing else in
the template is taken for one. -/
theorem fallbackCommand_faithful_iff {p : Project} {step : BuildStep} {value : Value}
    {template : String} (htemplate : template? p step = some value)
    (hrender : value.render = .ok template) (id : NodeId) :
    ∃ command, fallbackCommand p id step = .ok command ∧
      (command = respell template ↔ ¬ Misread (pieces template.toList)) := by
  refine ⟨spellMarkers template, ?_, spellMarkers_eq_respell_iff template⟩
  rw [fallbackCommand, htemplate]
  dsimp only
  rw [hrender]
  rfl

/-- A project whose compiler has the template. -/
def unexpanded (template : String) : Project where
  name := "unexpanded"
  environments := #[{ tools := [("cc", [("objcmd", .text template)])] }]

def unexpandedStep : BuildStep where
  tool := "cc"
  commandVar := "objcmd"
  kind := .compile
  env := some ⟨0⟩

theorem template?_unexpanded (template : String) :
    template? (unexpanded template) unexpandedStep = some (.text template) := rfl

theorem fallbackCommand_source :
    fallbackCommand (unexpanded "$SOURCE") ⟨0⟩ unexpandedStep = .ok "$in" := by
  have hpieces : pieces ("$" ++ "SOURCE").toList = [.reference "SOURCE" false] :=
    pieces_reference (by decide)
  have hgood : ¬ Misread (pieces "$SOURCE".toList) := by
    rw [show "$SOURCE" = "$" ++ "SOURCE" from by decide, hpieces]
    rintro (⟨hnone, -⟩ | hrest)
    · exact absurd hnone (by decide)
    · exact hrest
  obtain ⟨command, hcommand, hiff⟩ :=
    fallbackCommand_faithful_iff (template?_unexpanded "$SOURCE") rfl ⟨0⟩
  rw [hcommand, hiff.mpr hgood, respell, show "$SOURCE" = "$" ++ "SOURCE" from by decide, hpieces]
  rfl

/-- The variable `SOURCE_DIR` is not left alone: its reference comes out as `$in_DIR`. -/
theorem not_forall_fallbackCommand_respell :
    ¬ ∀ (p : Project) (id : NodeId) (step : BuildStep) (value : Value) (template : String),
      template? p step = some value → value.render = .ok template →
        fallbackCommand p id step = .ok (respell template) := by
  intro hall
  have hpieces : pieces ("$" ++ "SOURCE_DIR").toList = [.reference "SOURCE_DIR" false] :=
    pieces_reference (by decide)
  have hbad : Misread (pieces ("$" ++ "SOURCE_DIR").toList) := by
    rw [hpieces]
    exact .inl ⟨by decide, .source, "_DIR".toList, by decide⟩
  have hcommand := hall _ ⟨0⟩ _ _ _ (template?_unexpanded ("$" ++ "SOURCE_DIR")) rfl
  exact (spellMarkers_eq_respell_iff _).mp (Except.ok.inj hcommand) hbad

end BuildPlan.Ninja
