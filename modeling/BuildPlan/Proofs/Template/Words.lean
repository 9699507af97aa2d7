import BuildPlan.Proofs.Template.Literal
import BuildPlan.Proofs.Template.Pieces
import BuildPlan.Proofs.Template.References
import BuildPlan.Proofs.Text.Words

/-!
# BuildPlan.Proofs.Template.Words

The words that text templates come to. A template is cut into words after its expansion,
but no reference spans a blank, so each stretch between the blanks of a template may be
expanded on its own. It contributes the words of its expansion in its place.
-/

namespace BuildPlan.Template

variable {ns : Namespace} {chain : List String} {ps qs : List Piece} {text entry name : String}
  {texts words : List String}

/-! ### Words of texts -/

/-- The words of a text. -/
def textWords (text : String) : List String := (Text.words text.toList).map .ofList

theorem textWords_intercalate (texts : List String) :
    textWords (" ".intercalate texts) = texts.flatMap textWords := by
  rw [textWords, Text.words_intercalate, List.map_flatMap]
  rfl

/-- Empty texts have no words. -/
theorem flatMap_textWords_filter (texts : List String) :
    (texts.filter (!·.isEmpty)).flatMap textWords = texts.flatMap textWords := by
  induction texts with
  | nil => rfl
  | cons text rest ih =>
      rw [List.filter_cons, List.flatMap_cons, ← ih]
      split
      · exact List.flatMap_cons
      · next hempty =>
          obtain rfl : text = "" := by simpa using hempty
          rfl

theorem textWords_of_unbroken (h : ∀ c ∈ text.toList, Text.isBlank c = false) (hne : text ≠ "") :
    textWords text = [text] := by
  rw [textWords, Text.words_of_unbroken h (by simpa using hne), List.map_singleton,
    String.ofList_toList]

theorem Literal.of_mem_textWords (h : Literal text) {word : String}
    (hword : word ∈ textWords text) : Literal word := by
  obtain ⟨chars, hchars, rfl⟩ := List.mem_map.mp hword
  intro c hc
  rw [String.toList_ofList] at hc
  exact h c (Text.of_mem_words hchars hc).1

/-- The words of a text that stands for itself are tokens. -/
theorem Literal.map_parse (h : Literal text) :
    (textWords text).map Token.parse = (textWords text).map Token.ofText :=
  List.map_congr_left fun _ hword => (h.of_mem_textWords hword).parse

theorem map_parse_flatMap (h : ∀ text ∈ texts, Literal text) :
    (texts.flatMap textWords).map Token.parse = (texts.flatMap textWords).map Token.ofText := by
  refine List.map_congr_left fun word hword => ?_
  obtain ⟨text, htext, hword⟩ := List.mem_flatMap.mp hword
  exact ((h text htext).of_mem_textWords hword).parse

/-! ### Words of expansions -/

/-- The words of an expanded text, with the escaped dollars put back. -/
def wordsOf (expanded : String) : List String :=
  (Text.words expanded.toList).map fun word => restoreDollars (.ofList word)

/-- The words that a text comes to which is reached through the variables of `chain`. -/
def expandWords (ns : Namespace) (chain : List String) (text : String) :
    Except BuildError (List String) := do
  return wordsOf (← expandPieces ns chain (pieces text.toList))

theorem substWords_eq (template : String) (ns : Namespace) :
    substWords template ns = expandWords ns [] template := by
  rw [substWords, expand_eq]
  rfl

/-- The words of a text template are its arguments. -/
theorem substTokens_text (template : String) (ns : Namespace) :
    substTokens (.text template) ns =
      (do return (← expandWords ns [] template).map Token.parse) := by
  rw [← substWords_eq]
  rfl

theorem expandPieces_append (ns : Namespace) (chain : List String) (ps qs : List Piece) :
    expandPieces ns chain (ps ++ qs) =
      (do return (← expandPieces ns chain ps) ++ (← expandPieces ns chain qs)) := by
  induction ps with
  | nil =>
      rw [List.nil_append, expandPieces]
      cases expandPieces ns chain qs <;> simp [bind, Except.bind, pure, Except.pure]
  | cons piece ps ih =>
      rw [List.cons_append]
      cases piece with
      | char c => simp only [expandPieces, ih, bind_assoc, pure_bind, String.append_assoc]
      | dollar => simp only [expandPieces, ih, bind_assoc, pure_bind, String.append_assoc]
      | reference name braced =>
          cases hfound : referenceText ns chain name with
          | error e =>
              rw [expandPieces_reference_error hfound, expandPieces_reference_error hfound]
              rfl
          | ok text =>
              rw [expandPieces_reference hfound, expandPieces_reference hfound, ih]
              simp only [bind_assoc, pure_bind, String.append_assoc]

theorem wordsOf_append_blank (first second : String) :
    wordsOf (first ++ (String.singleton ' ' ++ second)) = wordsOf first ++ wordsOf second := by
  have hchars : (first ++ (String.singleton ' ' ++ second)).toList =
      first.toList ++ ' ' :: second.toList := by simp
  rw [wordsOf, hchars, Text.words_append_blank _ _ (by decide), List.map_append]
  rfl

/-- The stretches between blanks are expanded one after the other. -/
theorem expandWords_intercalate (ns : Namespace) (chain : List String) (texts : List String) :
    expandWords ns chain (" ".intercalate texts) =
      (do return (← texts.mapM (expandWords ns chain)).flatten) := by
  induction texts with
  | nil =>
      rw [expandWords, List.mapM_nil, pure_bind, String.intercalate_nil, String.toList_empty,
        pieces, expandPieces]
      rfl
  | cons text rest ih =>
      cases rest with
      | nil => simp [String.intercalate_singleton]
      | cons next rest =>
          have hrest : ∀ first : List String,
              (do return first ++ (← (next :: rest).mapM (expandWords ns chain)).flatten) =
                (do return first ++ (← expandWords ns chain (" ".intercalate (next :: rest)))) := by
            intro first
            rw [ih, bind_assoc]
            simp only [pure_bind]
          rw [List.mapM_cons, expandWords, Text.toList_intercalate_blank, pieces_append_blank,
            expandPieces_append, expandPieces]
          simp only [bind_assoc, pure_bind, wordsOf_append_blank, List.flatten_cons, hrest,
            expandWords]

/-- A reference comes to the words of the variable's text. -/
theorem expandWords_reference (hname : isName name.toList = true) :
    expandWords ns chain ("$" ++ name) =
      (do expandWords ns (chain ++ [name]) (← referenceText ns chain name)) := by
  rw [expandWords, pieces_reference hname]
  cases hfound : referenceText ns chain name with
  | error e =>
      rw [expandPieces_reference_error hfound]
      rfl
  | ok text =>
      rw [expandPieces_alone hfound]
      rfl

theorem Literal.expandWords (h : Literal text) (ns : Namespace) (chain : List String) :
    expandWords ns chain text = .ok (textWords text) := by
  rw [Template.expandWords, expandPieces_of_not_mem _ _ h.not_mem_dollar]
  have hwords : wordsOf text = textWords text := by
    rw [wordsOf, textWords]
    refine List.map_congr_left fun word hword => ?_
    refine (h.of_mem_textWords ?_).restoreDollars
    exact List.mem_map.mpr ⟨word, hword, rfl⟩
  exact congrArg Except.ok hwords

theorem not_blank_of_mem_expandWords (h : expandWords ns chain text = .ok words) {word : String}
    (hword : word ∈ words) : ∀ c ∈ word.toList, Text.isBlank c = false := by
  obtain ⟨expanded, -, h⟩ := bind_eq_ok_iff.mp h
  cases h
  obtain ⟨chars, hchars, rfl⟩ := List.mem_map.mp hword
  intro c hc
  rw [restoreDollars, String.toList_ofList, String.toList_ofList] at hc
  obtain ⟨d, hd, rfl⟩ := List.mem_map.mp hc
  split
  · decide
  · exact (Text.of_mem_words hchars hd).2

/-! ### Values -/

/-- Every item of a list that has a text is part of the list's text, unless its own is empty. -/
theorem renderItems_mem {items : List Value} (h : Value.renderItems items = .ok texts)
    {item : Value} (hitem : item ∈ items) :
    ∃ text, item.render = .ok text ∧ (text = "" ∨ text ∈ texts) := by
  induction items generalizing texts with
  | nil => cases hitem
  | cons first rest ih =>
      rw [Value.renderItems] at h
      obtain ⟨text, htext, h⟩ := bind_eq_ok_iff.mp h
      obtain ⟨others, hothers, h⟩ := bind_eq_ok_iff.mp h
      cases h
      rcases List.mem_cons.mp hitem with rfl | hitem
      · refine ⟨text, htext, ?_⟩
        split
        · next hempty => exact .inl (by simpa using hempty)
        · exact .inr List.mem_cons_self
      · obtain ⟨text', htext', hmem⟩ := ih hothers hitem
        refine ⟨text', htext', hmem.imp_right fun hmem => ?_⟩
        split
        · exact hmem
        · exact List.mem_cons_of_mem _ hmem

/-! ### Entries on their way -/

/-- Whatever words the text comes to, those of the entry are among them, side by side. -/
def Carries (ns : Namespace) (chain : List String) (text entry : String) : Prop :=
  ∀ words, expandWords ns chain text = .ok words → textWords entry <:+: words

theorem Literal.carries (h : Literal entry) (ns : Namespace) (chain : List String) :
    Carries ns chain entry entry := by
  intro words hwords
  rw [h.expandWords] at hwords
  cases hwords
  exact List.infix_rfl

theorem Carries.intercalate (h : Carries ns chain text entry) (htext : text ∈ texts) :
    Carries ns chain (" ".intercalate texts) entry := by
  intro words hwords
  rw [expandWords_intercalate] at hwords
  obtain ⟨before, after, rfl⟩ := List.append_of_mem htext
  obtain ⟨parts, hparts, hwords⟩ := bind_eq_ok_iff.mp hwords
  cases hwords
  rw [List.mapM_append] at hparts
  obtain ⟨front, -, hparts⟩ := bind_eq_ok_iff.mp hparts
  obtain ⟨rest, hrest, hparts⟩ := bind_eq_ok_iff.mp hparts
  cases hparts
  rw [List.mapM_cons] at hrest
  obtain ⟨own, hown, hrest⟩ := bind_eq_ok_iff.mp hrest
  obtain ⟨back, -, hrest⟩ := bind_eq_ok_iff.mp hrest
  cases hrest
  obtain ⟨left, right, heq⟩ := h own hown
  refine ⟨front.flatten ++ left, right ++ back.flatten, ?_⟩
  simp [← heq]

theorem Carries.reference (hname : isName name.toList = true)
    (h : ∀ text, referenceText ns chain name = .ok text →
      Carries ns (chain ++ [name]) text entry) : Carries ns chain ("$" ++ name) entry := by
  intro words hwords
  rw [expandWords_reference hname] at hwords
  obtain ⟨text, htext, hwords⟩ := bind_eq_ok_iff.mp hwords
  exact h text htext words hwords

/-- A list carries what one of its items carries. -/
theorem carries_of_render {items : List Value} {item : Value} (hitem : item ∈ items)
    (htext : (Value.list items).render = .ok text)
    (h : ∀ text, item.render = .ok text → Carries ns chain text entry) :
    Carries ns chain text entry := by
  obtain ⟨texts, htexts, htext⟩ := bind_eq_ok_iff.mp htext
  cases htext
  obtain ⟨text, htext, rfl | hmem⟩ := renderItems_mem htexts hitem
  · -- an item without a text carries an entry without words only
    intro words _
    have hnone : textWords entry <:+: [] := h "" htext [] (expandWords_intercalate ns chain [])
    rw [List.infix_nil.mp hnone]
    exact List.nil_infix
  · exact (h text htext).intercalate hmem

/-! ### Values that stand for themselves -/

/-- The value has a text, which stands for itself and has the words of the given texts. -/
def Spells (value : Value) (texts : List String) : Prop :=
  ∃ text, value.render = .ok text ∧ Literal text ∧ textWords text = texts.flatMap textWords

theorem spells_text (h : Literal text) : Spells (.text text) [text] :=
  ⟨text, rfl, h, (List.flatMap_singleton _ _).symm⟩

theorem spells_ofTexts (h : ∀ text ∈ texts, Literal text) : Spells (.ofTexts texts) texts := by
  refine ⟨_, render_ofTexts texts, literal_intercalate fun text htext => ?_, ?_⟩
  · exact h text (List.mem_of_mem_filter htext)
  · rw [textWords_intercalate, flatMap_textWords_filter]

/-- A list spells what its items spell. -/
theorem spells_list {items : List Value} {lists : List (List String)}
    (h : List.Forall₂ Spells items lists) : Spells (.list items) lists.flatten := by
  have hitems : ∃ texts, Value.renderItems items = .ok texts ∧ (∀ text ∈ texts, Literal text) ∧
      texts.flatMap textWords = lists.flatten.flatMap textWords := by
    induction h with
    | nil => exact ⟨[], rfl, by simp, rfl⟩
    | @cons item own items lists hfirst hrest ih =>
        obtain ⟨text, hrender, hliteral, hwords⟩ := hfirst
        obtain ⟨texts, hrenders, hliterals, hall⟩ := ih
        refine ⟨if text.isEmpty then texts else text :: texts, ?_, ?_, ?_⟩
        · rw [Value.renderItems, hrender, hrenders]
          rfl
        · split
          · exact hliterals
          · exact List.forall_mem_cons.mpr ⟨hliteral, hliterals⟩
        · rw [List.flatten_cons, List.flatMap_append, ← hwords, ← hall]
          split
          · next hempty =>
              obtain rfl : text = "" := by simpa using hempty
              rfl
          · exact List.flatMap_cons
  obtain ⟨texts, hrenders, hliterals, hwords⟩ := hitems
  refine ⟨" ".intercalate texts, ?_, literal_intercalate hliterals, ?_⟩
  · rw [Value.render, hrenders]
    rfl
  · rw [textWords_intercalate, hwords]

/-- A reference comes to the words that the variable's value spells. -/
theorem Spells.expandWords {value : Value} (h : Spells value texts)
    (hname : isName name.toList = true) (hnew : name ∉ chain) (hget : ns.get name = some value) :
    expandWords ns chain ("$" ++ name) = .ok (texts.flatMap textWords) := by
  obtain ⟨text, hrender, hliteral, hwords⟩ := h
  have hfound : referenceText ns chain name = .ok text :=
    referenceText_eq_ok_iff.mpr ⟨hnew, value, hget, hrender⟩
  rw [expandWords_reference hname, hfound]
  change Template.expandWords ns (chain ++ [name]) text = _
  rw [hliteral.expandWords, hwords]

/-! ### Tokens -/

theorem eq_of_parse {argument : String} (h : Token.parse argument = .ofText text) :
    argument = text := by
  rw [← Token.written_parse argument, h, Token.written_ofText]

/-- An entry that stands for itself is one token exactly if there is no blank in it. -/
theorem ofText_mem_iff {template : String} (hentry : Literal entry) (hne : entry ≠ "")
    (h : expandWords ns chain template = .ok words) (hcarried : textWords entry <:+: words) :
    Token.ofText entry ∈ words.map Token.parse ↔ ∀ c ∈ entry.toList, Text.isBlank c = false := by
  constructor
  · intro hmem
    obtain ⟨word, hword, hparse⟩ := List.mem_map.mp hmem
    rw [← eq_of_parse hparse]
    exact not_blank_of_mem_expandWords h hword
  · intro hunbroken
    rw [textWords_of_unbroken hunbroken hne] at hcarried
    exact List.mem_map.mpr ⟨entry, hcarried.subset List.mem_cons_self, hentry.parse⟩

end BuildPlan.Template
