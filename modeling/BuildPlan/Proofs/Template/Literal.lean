import BuildPlan.Proofs.Template.Pieces
import BuildPlan.Proofs.Template.Stack
import BuildPlan.Proofs.Template.Token

/-!
# BuildPlan.Proofs.Template.Literal

Texts that expansion leaves alone, and what list templates make of them. The items of
a list are expanded one by one, and each element of a list template contributes its
tokens in its place.
-/

namespace BuildPlan.Template

/-- The text stands for itself: it has no dollar, nothing that travels for one, and no
marker. -/
def Literal (text : String) : Prop :=
  ∀ c ∈ text.toList, c ≠ '$' ∧ c ≠ dollarStandIn ∧ Marker.ofSentinel? c = none

instance (text : String) : Decidable (Literal text) := List.decidableBAll _ text.toList

variable {text first second : String} {texts words : List String} {ns : Namespace}

/-! ### Texts -/

theorem Literal.append (h : Literal first) (h' : Literal second) : Literal (first ++ second) := by
  intro c hc
  rw [String.toList_append, List.mem_append] at hc
  rcases hc with hc | hc
  · exact h c hc
  · exact h' c hc

theorem literal_blank : Literal " " := by decide

theorem literal_intercalate (h : ∀ text ∈ texts, Literal text) :
    Literal (" ".intercalate texts) := by
  induction texts with
  | nil => decide
  | cons text rest ih =>
      have hrest := ih fun other hother => h other (List.mem_cons_of_mem _ hother)
      cases rest with
      | nil =>
          rw [String.intercalate_singleton]
          exact h text List.mem_cons_self
      | cons next rest =>
          rw [String.intercalate_cons_of_ne_nil (List.cons_ne_nil _ _)]
          exact ((h text List.mem_cons_self).append literal_blank).append hrest

theorem Literal.not_mem_dollar (h : Literal text) : '$' ∉ text.toList :=
  fun hmem => (h _ hmem).1 rfl

theorem restoreDollars_of_not_mem (h : dollarStandIn ∉ text.toList) :
    restoreDollars text = text := by
  have hsame : ∀ c ∈ text.toList, (if c = dollarStandIn then '$' else c) = c :=
    fun c hc => if_neg fun heq : c = dollarStandIn => h (heq ▸ hc)
  rw [restoreDollars, List.map_congr_left hsame, List.map_id', String.ofList_toList]

theorem Literal.restoreDollars (h : Literal text) : restoreDollars text = text :=
  restoreDollars_of_not_mem fun hmem => (h _ hmem).2.1 rfl

/-- Expansion gives the text back. -/
theorem Literal.subst (h : Literal text) (ns : Namespace) : subst text ns = .ok text := by
  rw [Template.subst, expand_eq, expandPieces_of_not_mem _ _ h.not_mem_dollar]
  change Except.ok (Template.restoreDollars text) = _
  rw [h.restoreDollars]

/-- The token of such a text is the text. -/
theorem Literal.parse (h : Literal text) : Token.parse text = .ofText text :=
  Token.parse_of_unmarked (Token.unmarked_iff.mpr fun c hc => (h c hc).2.2)

/-! ### Lists -/

/-- A list of texts is rendered with blanks between those that are not empty. -/
theorem render_ofTexts (texts : List String) :
    (Value.ofTexts texts).render = .ok (" ".intercalate (texts.filter (!·.isEmpty))) := by
  have hitems : Value.renderItems (texts.map .text) = .ok (texts.filter (!·.isEmpty)) := by
    induction texts with
    | nil => rfl
    | cons text rest ih =>
        rw [List.map_cons, Value.renderItems, Value.render, ih, List.filter_cons]
        change Except.ok (if text.isEmpty then _ else _) = _
        cases text.isEmpty <;> rfl
  rw [Value.ofTexts, Value.render, hitems]
  rfl

/-- Collecting the words of each element in turn. -/
theorem foldlM_words {ε α β : Type} (f : α → Except ε (List β)) (as : List α) (words : List β) :
    as.foldlM (fun words a => do return words ++ (← f a)) words =
      (do return words ++ (← as.mapM f).flatten) := by
  induction as generalizing words with
  | nil => simp [pure, Except.pure, bind, Except.bind]
  | cons a rest ih =>
      rw [List.foldlM_cons, List.mapM_cons]
      cases f a with
      | error e => rfl
      | ok new =>
          change rest.foldlM _ (words ++ new) = _
          rw [ih]
          cases rest.mapM f with
          | error e => rfl
          | ok others => simp [pure, Except.pure, bind, Except.bind]

theorem substArguments_eq (items : List Value) (ns : Namespace) :
    substArguments items ns = (do return (← items.mapM (substArgument · ns)).flatten) :=
  (foldlM_words (substArgument · ns) items []).trans (by simp)

/-- The tokens that an element of a list template contributes. -/
def itemTokens (item : Value) (ns : Namespace) : Except BuildError (List Token) := do
  return (← substItem item ns).map Token.parse

/-- The elements of a list template contribute one after the other. -/
theorem substTokens_list (items : List Value) (ns : Namespace) :
    substTokens (.list items) ns = (do return (← items.mapM (itemTokens · ns)).flatten) := by
  have hmap : items.mapM (itemTokens · ns) =
      (do return (← items.mapM (substItem · ns)).map (List.map Token.parse)) := by
    induction items with
    | nil => rfl
    | cons item rest ih =>
        rw [List.mapM_cons, List.mapM_cons, ih, itemTokens]
        cases substItem item ns with
        | error e => rfl
        | ok new =>
            cases rest.mapM (substItem · ns) <;> rfl
  simp only [substTokens, foldlM_words, hmap]
  cases items.mapM (substItem · ns) with
  | error e => rfl
  | ok words => simp [pure, Except.pure, bind, Except.bind, List.map_flatten]

/-! ### Elements that refer to lists -/

/-- A name that starts with a reference name stays one if name characters follow. -/
theorem isName_append {first second : List Char} (h : isName first = true)
    (h' : second.all isNameChar = true) : isName (first ++ second) = true := by
  cases first with
  | nil => cases h
  | cons c rest =>
      rw [isName, Bool.and_eq_true] at h
      rw [List.cons_append, isName, List.all_append, h.1, h.2, h']
      rfl

theorem wholeReference_of_isName {name : String} (h : isName name.toList = true) :
    wholeReference ("$" ++ name) = some name :=
  wholeReference_eq_some_iff.mpr ⟨h, false, by simp [Piece.written]⟩

/-- An element that refers to a list contributes the arguments that its items come to. -/
theorem itemTokens_reference {name : String} {values : List Value}
    (hname : isName name.toList = true) (hget : ns.get name = some (.list values)) :
    itemTokens (.text ("$" ++ name)) ns =
      (do return ((← values.mapM (substArgument · ns)).flatten).map Token.parse) := by
  have hitem : substItem (.text ("$" ++ name)) ns = substArguments values ns := by
    simp only [substItem, Value.render, bind, Except.bind, wholeReference_of_isName hname,
      Option.bind_some, hget]
  rw [itemTokens, hitem, substArguments_eq]
  cases values.mapM (substArgument · ns) <;> rfl

/-- Words that are rendered together make one token, with blanks between those that are not
empty. They make none if all of them are. -/
def joined (words : List String) : List Token :=
  let text := " ".intercalate (words.filter (!·.isEmpty))
  if text.isEmpty then [] else [.ofText text]

theorem joined_nil : joined [] = [] := rfl

/-- No words make more than one token. -/
theorem length_joined (words : List String) :
    (joined words).length ≤ words.length ∧ (joined words).length ≤ 1 := by
  cases words with
  | nil => exact ⟨Nat.le_refl _, Nat.zero_le _⟩
  | cons word rest =>
      have hone : (joined (word :: rest)).length ≤ 1 := by
        unfold joined
        dsimp only
        split <;> simp
      exact ⟨Nat.le_trans hone (by simp), hone⟩

theorem joined_singleton {word : String} (h : word ≠ "") : joined [word] = [.ofText word] := by
  have hkept : [word].filter (!·.isEmpty) = [word] := by simpa using h
  have hempty : word.isEmpty = false := by simpa using h
  rw [joined, hkept, String.intercalate_singleton, hempty]
  rfl

/-- A list of words is expanded into one argument. -/
theorem substArgument_ofTexts (h : ∀ word ∈ words, Literal word) (ns : Namespace) :
    ∃ arguments, substArgument (.ofTexts words) ns = .ok arguments ∧
      arguments.map Token.parse = joined words := by
  have hliteral : Literal (" ".intercalate (words.filter (!·.isEmpty))) :=
    literal_intercalate fun word hword => h word (List.mem_of_mem_filter hword)
  unfold joined
  rw [substArgument, render_ofTexts]
  generalize " ".intercalate (words.filter (!·.isEmpty)) = text at hliteral
  change ∃ arguments, (do
    let expanded ← subst text ns
    return if expanded.isEmpty then [] else [expanded]) = Except.ok arguments ∧ _
  rw [hliteral.subst]
  refine ⟨_, rfl, ?_⟩
  dsimp only
  cases text.isEmpty with
  | false => exact congrArg ([·]) hliteral.parse
  | true => rfl

theorem substArguments_ofTexts {lists : List (List String)}
    (h : ∀ words ∈ lists, ∀ word ∈ words, Literal word) (ns : Namespace) :
    ∃ arguments, (lists.map Value.ofTexts).mapM (substArgument · ns) = .ok arguments ∧
      arguments.flatten.map Token.parse = lists.flatMap joined := by
  induction lists with
  | nil => exact ⟨[], rfl, rfl⟩
  | cons words rest ih =>
      obtain ⟨first, hfirst, htokens⟩ := substArgument_ofTexts (h words List.mem_cons_self) ns
      obtain ⟨others, hothers, htokens'⟩ :=
        ih fun other hother => h other (List.mem_cons_of_mem _ hother)
      refine ⟨first :: others, ?_, ?_⟩
      · rw [List.map_cons, List.mapM_cons, hfirst, hothers]
        rfl
      · rw [List.flatten_cons, List.map_append, htokens, htokens', List.flatMap_cons]

/-- An element that refers to a list of lists of words contributes one token for each list. -/
theorem itemTokens_reference_ofTexts {name : String} {lists : List (List String)}
    (hname : isName name.toList = true)
    (hget : ns.get name = some (.list (lists.map Value.ofTexts)))
    (h : ∀ words ∈ lists, ∀ word ∈ words, Literal word) :
    itemTokens (.text ("$" ++ name)) ns = .ok (lists.flatMap joined) := by
  obtain ⟨arguments, harguments, htokens⟩ := substArguments_ofTexts h ns
  rw [itemTokens_reference hname hget, harguments, ← htokens]
  rfl

end BuildPlan.Template
