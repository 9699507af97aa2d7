import BuildPlan.Proofs.Template.Literal
import BuildPlan.Proofs.Template.Pieces
import BuildPlan.Proofs.Template.References
import BuildPlan.Proofs.Text.Words

/-!
# BuildPlan.Proofs.Template.Locality

Where expansion looks. A template is expanded by the values of the variables that can be
reached from it and by nothing else, so namespaces that agree on these give it the same
result or the same error.
-/

namespace BuildPlan

namespace Value

mutual

/-- The variables that the texts of a value refer to. -/
def references : Value → List String
  | .text s => Template.references (Template.pieces s.toList)
  | .list items => itemReferences items
  | .int _ | .bool _ | .scope _ | .marker _ => []

def itemReferences : List Value → List String
  | [] => []
  | v :: rest => v.references ++ itemReferences rest

end

theorem references_subset_of_mem {items : List Value} {item : Value} (h : item ∈ items) :
    item.references ⊆ itemReferences items := by
  induction items with
  | nil => cases h
  | cons first rest ih =>
      rw [itemReferences]
      rcases List.mem_cons.mp h with rfl | h
      · exact List.subset_append_left _ _
      · exact List.subset_append_of_subset_right _ (ih h)

end Value

namespace Template

/-! ### References of texts -/

theorem references_of_not_mem {text : String} (h : '$' ∉ text.toList) :
    references (pieces text.toList) = [] := by
  rw [pieces_of_not_mem h, references, List.filterMap_map]
  exact List.filterMap_eq_nil_iff.mpr fun _ _ => rfl

theorem references_intercalate (texts : List String) :
    references (pieces (" ".intercalate texts).toList) =
      texts.flatMap fun text => references (pieces text.toList) := by
  induction texts with
  | nil =>
      rw [String.intercalate_nil, String.toList_empty, pieces]
      rfl
  | cons text rest ih =>
      rw [List.flatMap_cons, ← ih]
      cases rest with
      | nil =>
          rw [String.intercalate_singleton, String.intercalate_nil, String.toList_empty,
            pieces.eq_1]
          exact (List.append_nil _).symm
      | cons next rest =>
          rw [Text.toList_intercalate_blank, pieces_append_blank, references, List.filterMap_append]
          rfl

theorem not_mem_dollar_repr (n : Nat) : '$' ∉ n.repr.toList := by
  intro hmem
  rw [Nat.toList_repr] at hmem
  exact absurd (Nat.isDigit_of_mem_toDigits (by decide) (by decide) hmem) (by decide)

mutual

/-- A value's text refers to nothing that the value does not refer to. -/
theorem references_of_render {v : Value} {text : String} (h : v.render = .ok text) :
    references (pieces text.toList) ⊆ v.references := by
  match v with
  | .text _ =>
      cases h
      exact List.Subset.refl _
  | .list items =>
      obtain ⟨texts, htexts, h⟩ := bind_eq_ok_iff.mp h
      cases h
      rw [references_intercalate]
      exact references_of_renderItems htexts
  | .int (.ofNat n) =>
      cases h
      have hdollar : '$' ∉ (toString (Int.ofNat n)).toList := not_mem_dollar_repr n
      rw [references_of_not_mem hdollar]
      exact List.nil_subset _
  | .int (.negSucc n) =>
      cases h
      have hdollar : '$' ∉ (toString (Int.negSucc n)).toList := by
        change '$' ∉ ("-" ++ n.succ.repr).toList
        rw [String.toList_append, List.mem_append, not_or]
        exact ⟨by decide, not_mem_dollar_repr _⟩
      rw [references_of_not_mem hdollar]
      exact List.nil_subset _
  | .bool b =>
      cases h
      rw [references_of_not_mem (by cases b <;> decide)]
      exact List.nil_subset _
  | .marker m =>
      cases h
      rw [references_of_not_mem (by cases m <;> decide)]
      exact List.nil_subset _
  | .scope _ => cases h

theorem references_of_renderItems {items : List Value} {texts : List String}
    (h : Value.renderItems items = .ok texts) :
    (texts.flatMap fun text => references (pieces text.toList)) ⊆ Value.itemReferences items := by
  match items with
  | [] =>
      cases h
      exact List.nil_subset _
  | v :: rest =>
      rw [Value.renderItems] at h
      obtain ⟨text, htext, h⟩ := bind_eq_ok_iff.mp h
      obtain ⟨others, hothers, h⟩ := bind_eq_ok_iff.mp h
      cases h
      have hrest := references_of_renderItems hothers
      have hothers : (others.flatMap fun text => references (pieces text.toList)) ⊆
          Value.itemReferences (v :: rest) := List.subset_append_of_subset_right _ hrest
      split
      · exact hothers
      · rw [List.flatMap_cons, List.append_subset]
        exact ⟨List.subset_append_of_subset_left _ (references_of_render htext), hothers⟩

end

/-! ### What can be reached -/

variable {ns ns' : Namespace} {chain : List String} {name text template : String}
  {names : List String} {ps : List Piece} {value item : Value} {items : List Value}

/-- The value of one variable refers to another. -/
def Mentions (ns : Namespace) (name other : String) : Prop :=
  ∃ value, ns.get name = some value ∧ other ∈ value.references

/-- A variable that the template refers to, directly or through the values of others. -/
def Consults (ns : Namespace) (template : Value) (name : String) : Prop :=
  ∃ first ∈ template.references, Relation.ReflTransGen (Mentions ns) first name

/-- The namespaces have the same values for whatever can be reached from the names. -/
def AgreeFrom (ns ns' : Namespace) (names : List String) : Prop :=
  ∀ first ∈ names, ∀ name, Relation.ReflTransGen (Mentions ns) first name →
    ns'.get name = ns.get name

theorem agreeFrom_references
    (h : ∀ name, Consults ns value name → ns'.get name = ns.get name) :
    AgreeFrom ns ns' value.references :=
  fun first hfirst name hpath => h name ⟨first, hfirst, hpath⟩

theorem AgreeFrom.mono {others : List String} (h : AgreeFrom ns ns' names) (hsub : others ⊆ names) :
    AgreeFrom ns ns' others :=
  fun first hfirst => h first (hsub hfirst)

theorem AgreeFrom.get (h : AgreeFrom ns ns' names) (hname : name ∈ names) :
    ns'.get name = ns.get name :=
  h name hname name .refl

/-- What a value refers to can be reached from its name. -/
theorem AgreeFrom.references (h : AgreeFrom ns ns' names) (hname : name ∈ names)
    (hget : ns.get name = some value) : AgreeFrom ns ns' value.references :=
  fun _ hother _ hpath => h name hname _ (.head ⟨value, hget, hother⟩ hpath)

theorem AgreeFrom.render (h : AgreeFrom ns ns' value.references) (htext : value.render = .ok text) :
    AgreeFrom ns ns' (Template.references (pieces text.toList)) :=
  h.mono (references_of_render htext)

/-! ### Expansion -/

theorem referenceText_congr (h : ns'.get name = ns.get name) (chain : List String) :
    referenceText ns' chain name = referenceText ns chain name := by
  rw [referenceText, referenceText, h]

/-- The induction is that of the expansion: whatever it comes to can be reached. -/
theorem expandPieces_congr (h : AgreeFrom ns ns' (references ps)) :
    expandPieces ns' chain ps = expandPieces ns chain ps := by
  fun_induction expandPieces ns chain ps with
  | case1 => rw [expandPieces]
  | case2 chain c rest ih => rw [expandPieces, ih h]
  | case3 chain rest ih => rw [expandPieces, ih h]
  | case4 chain var braced rest e hfound =>
      have hsame := referenceText_congr (h.get List.mem_cons_self) chain
      exact expandPieces_reference_error (hsame.trans hfound)
  | case5 chain var braced rest text hfound ihvalue ihrest =>
      have hsame := referenceText_congr (h.get List.mem_cons_self) chain
      obtain ⟨-, value, hget, htext⟩ := referenceText_eq_ok_iff.mp hfound
      have hvalue := (h.references List.mem_cons_self hget).render htext
      rw [expandPieces_reference (hsame.trans hfound), ihvalue hvalue,
        ihrest (h.mono (List.subset_cons_self _ _))]

theorem expand_congr (h : AgreeFrom ns ns' (references (pieces template.toList))) :
    expand template ns' = expand template ns := by
  rw [expand_eq, expand_eq, expandPieces_congr h]

theorem subst_congr (h : AgreeFrom ns ns' (references (pieces template.toList))) :
    subst template ns' = subst template ns := by
  rw [subst, subst, expand_congr h]

theorem bind_congr_ok {ε α β : Type} {x : Except ε α} {f g : α → Except ε β}
    (h : ∀ a, x = .ok a → f a = g a) : x >>= f = x >>= g := by
  cases x with
  | error e => rfl
  | ok a => exact h a rfl

theorem substArgument_congr (h : AgreeFrom ns ns' item.references) :
    substArgument item ns' = substArgument item ns :=
  bind_congr_ok fun text htext => by rw [subst_congr (h.render htext)]

/-- The items of a list are expanded in turn. -/
theorem foldlM_words_congr {f g : Value → Except BuildError (List String)} (words : List String)
    (h : AgreeFrom ns ns' (Value.list items).references)
    (hitem : ∀ item, AgreeFrom ns ns' item.references → f item = g item) :
    items.foldlM (fun words item => return words ++ (← f item)) words =
      items.foldlM (fun words item => return words ++ (← g item)) words := by
  have hsame : ∀ item ∈ items, f item = g item := by
    intro item hmem
    exact hitem item (h.mono (Value.references_subset_of_mem hmem))
  clear h
  induction items generalizing words with
  | nil => rfl
  | cons item rest ih =>
      rw [List.foldlM_cons, List.foldlM_cons, hsame item List.mem_cons_self]
      refine bind_congr_ok fun next _ => ih next fun other hother => ?_
      exact hsame other (List.mem_cons_of_mem _ hother)

theorem substItem_congr (h : AgreeFrom ns ns' item.references) :
    substItem item ns' = substItem item ns := by
  refine bind_congr_ok fun text htext => ?_
  have hargument := substArgument_congr h
  cases hwhole : wholeReference text with
  | none => simp only [Option.bind_none, hargument]
  | some name =>
      obtain ⟨braced, hpieces⟩ := wholeReference_iff_pieces.mp hwhole
      have hname : name ∈ references (pieces text.toList) := by
        rw [hpieces]
        exact List.mem_cons_self
      have hreach := h.render htext
      rw [Option.bind_some, Option.bind_some, hreach.get hname]
      split
      · next values hget =>
          exact foldlM_words_congr _ (hreach.references hname hget) fun _ => substArgument_congr
      · exact hargument

/-- Namespaces that agree on what can be reached from a template make the same tokens of it,
or fail alike. -/
theorem substTokens_congr (h : ∀ name, Consults ns value name → ns'.get name = ns.get name) :
    substTokens value ns' = substTokens value ns := by
  have hagree := agreeFrom_references h
  cases value with
  | list items =>
      rw [substTokens, substTokens, foldlM_words_congr [] hagree fun _ => substItem_congr]
  | text _ | int _ | bool _ | scope _ | marker _ =>
      simp only [substTokens]
      refine bind_congr_ok fun text htext => ?_
      rw [substWords, substWords, expand_congr (hagree.render htext)]

end Template

end BuildPlan
