import BuildPlan.Proofs.Template.Stack

/-!
# BuildPlan.Proofs.Template.Rendering

The text of a value and its flat list of texts. Both leave out what is empty, the text at
every list on the way up and the list at the scalars only, and still they agree: a blank
stands between two stretches exactly if neither of them is empty, so the blanks are the same
whether nested lists are joined one by one or all of their scalars at once.
-/

namespace BuildPlan

open Template (bind_eq_ok_iff bind_eq_error_iff)

/-! ### Texts with blanks between them -/

section Spaced

variable {text : String} {first second texts : List String}

/-- Two texts with a blank between them, unless one of them is empty. -/
def spaced (first second : String) : String :=
  if first = "" then second else if second = "" then first else first ++ " " ++ second

/-- A text as the only one of a list, or no text at all if it is empty. -/
def unlessEmpty (text : String) : List String := if text.isEmpty then [] else [text]

theorem not_mem_unlessEmpty (text : String) : "" ∉ unlessEmpty text := by
  rw [unlessEmpty]
  split
  · exact List.not_mem_nil
  · next h =>
      rw [String.isEmpty_iff] at h
      exact fun hmem => h (List.mem_singleton.mp hmem).symm

theorem unlessEmpty_eq_nil_iff : unlessEmpty text = [] ↔ text = "" := by
  rw [unlessEmpty, ← String.isEmpty_iff]
  split <;> simp [*]

theorem intercalate_unlessEmpty (text : String) : " ".intercalate (unlessEmpty text) = text := by
  rw [unlessEmpty]
  split
  · next h => rw [String.intercalate_nil, String.isEmpty_iff.mp h]
  · rw [String.intercalate_singleton]

theorem intercalate_eq_empty_iff (h : "" ∉ texts) : " ".intercalate texts = "" ↔ texts = [] := by
  cases texts with
  | nil => simp
  | cons text rest =>
      have htext : text ≠ "" := fun heq => h (heq ▸ List.mem_cons_self)
      cases rest with
      | nil => simpa using htext
      | cons next rest =>
          rw [String.intercalate_cons_of_ne_nil (List.cons_ne_nil _ _)]
          simp [htext]

/-- Where no text is empty, two lists of them are joined like their two joined texts. -/
theorem intercalate_append (h : "" ∉ first) (h' : "" ∉ second) :
    " ".intercalate (first ++ second) =
      spaced (" ".intercalate first) (" ".intercalate second) := by
  rw [spaced]
  simp only [intercalate_eq_empty_iff h, intercalate_eq_empty_iff h']
  by_cases hfirst : first = []
  · rw [if_pos hfirst, hfirst, List.nil_append]
  · rw [if_neg hfirst]
    by_cases hsecond : second = []
    · rw [if_pos hsecond, hsecond, List.append_nil]
    · rw [if_neg hsecond, String.intercalate_append_of_ne_nil hfirst hsecond]

end Spaced

namespace Value

variable {v item : Value} {items : List Value} {texts : List String}

/-! ### Values item by item -/

/-- What holds of every value that is no list, of the empty list, and of each list if it holds
of its first item and of the list of the others, holds of all values. -/
theorem itemInduction {motive : Value → Prop}
    (single : ∀ v, (∀ items, v ≠ .list items) → motive v) (nil : motive (.list []))
    (cons : ∀ item items, motive item → motive (.list items) → motive (.list (item :: items))) :
    ∀ v, motive v
  | .list [] => nil
  | .list (item :: items) =>
    cons item items (itemInduction single nil cons item)
      (itemInduction single nil cons (.list items))
  | .text _ | .int _ | .bool _ | .scope _ | .marker _ => single _ (by simp)

theorem flatten_single (h : ∀ items, v ≠ .list items) :
    v.flatten = (do return unlessEmpty (← v.render)) := by
  cases v with
  | list items => exact absurd rfl (h items)
  | text | int | bool | scope | marker => rfl

theorem flatten_cons (item : Value) (items : List Value) :
    (list (item :: items)).flatten = (do
      let first ← item.flatten
      return first ++ (← (list items).flatten)) := rfl

/-! ### Texts that are not empty -/

theorem not_mem_flatten (h : v.flatten = .ok texts) : "" ∉ texts := by
  induction v using itemInduction generalizing texts with
  | single v hv =>
      rw [flatten_single hv] at h
      obtain ⟨text, -, h⟩ := bind_eq_ok_iff.mp h
      cases h
      exact not_mem_unlessEmpty text
  | nil =>
      cases h
      exact List.not_mem_nil
  | cons item items ihitem ihitems =>
      rw [flatten_cons] at h
      obtain ⟨first, hfirst, h⟩ := bind_eq_ok_iff.mp h
      obtain ⟨others, hothers, h⟩ := bind_eq_ok_iff.mp h
      cases h
      rw [List.mem_append, not_or]
      exact ⟨ihitem hfirst, ihitems hothers⟩

theorem renderItems_cons (item : Value) (items : List Value) :
    renderItems (item :: items) = (do
      let text ← item.render
      return unlessEmpty text ++ (← renderItems items)) := by
  rw [renderItems]
  refine bind_congr fun text => bind_congr fun texts => ?_
  rw [unlessEmpty]
  cases text.isEmpty <;> rfl

theorem not_mem_renderItems (h : renderItems items = .ok texts) : "" ∉ texts := by
  induction items generalizing texts with
  | nil =>
      cases h
      exact List.not_mem_nil
  | cons item rest ih =>
      rw [renderItems_cons] at h
      obtain ⟨text, -, h⟩ := bind_eq_ok_iff.mp h
      obtain ⟨others, hothers, h⟩ := bind_eq_ok_iff.mp h
      cases h
      rw [List.mem_append, not_or]
      exact ⟨not_mem_unlessEmpty text, ih hothers⟩

/-! ### Rendering against flattening -/

/-- One more item puts its text in front, with a blank if there is something on both sides. -/
theorem render_cons (item : Value) (items : List Value) :
    (list (item :: items)).render = (do
      let text ← item.render
      return spaced text (← (list items).render)) := by
  rw [render, render, renderItems_cons]
  cases item.render with
  | error e => rfl
  | ok text =>
      cases hitems : renderItems items with
      | error e => rfl
      | ok texts =>
          refine congrArg Except.ok ?_
          rw [intercalate_append (not_mem_unlessEmpty text) (not_mem_renderItems hitems),
            intercalate_unlessEmpty]

theorem render_eq_flatten (v : Value) : v.render = (do return " ".intercalate (← v.flatten)) := by
  induction v using itemInduction with
  | single v hv =>
      rw [flatten_single hv]
      cases v.render with
      | error e => rfl
      | ok text => exact congrArg Except.ok (intercalate_unlessEmpty text).symm
  | nil => rfl
  | cons item items ihitem ihitems =>
      rw [render_cons, ihitem, ihitems, flatten_cons]
      cases hfirst : item.flatten with
      | error e => rfl
      | ok first =>
          cases hothers : (list items).flatten with
          | error e => rfl
          | ok others =>
              exact congrArg Except.ok
                (intercalate_append (not_mem_flatten hfirst) (not_mem_flatten hothers)).symm

/-! ### Values with a namespace -/

/-- The value is a namespace, or a list with such a value among its items. -/
inductive HasScope : Value → Prop
  | scope (ns : Namespace) : HasScope (.scope ns)
  | item {item : Value} {items : List Value} (hitem : item ∈ items) (h : HasScope item) :
      HasScope (.list items)

theorem hasScope_cons :
    HasScope (.list (item :: items)) ↔ item.HasScope ∨ HasScope (.list items) := by
  constructor
  · rintro (_ | ⟨hitem, h⟩)
    rcases List.mem_cons.mp hitem with rfl | hitem
    · exact .inl h
    · exact .inr (.item hitem h)
  · rintro (h | h)
    · exact .item List.mem_cons_self h
    · cases h with
      | item hitem h => exact .item (List.mem_cons_of_mem _ hitem) h

theorem flatten_eq_error_iff : (∃ e, v.flatten = .error e) ↔ v.HasScope := by
  induction v using itemInduction with
  | single v hv =>
      cases v with
      | list items => exact absurd rfl (hv items)
      | scope ns => exact iff_of_true ⟨_, rfl⟩ (.scope ns)
      | text | int | bool | marker =>
          refine iff_of_false ?_ (by rintro ⟨⟩)
          rintro ⟨e, h⟩
          cases h
  | nil =>
      refine iff_of_false ?_ ?_
      · rintro ⟨e, h⟩
        cases h
      · rintro (_ | ⟨hitem, -⟩)
        cases hitem
  | cons item items ihitem ihitems =>
      rw [hasScope_cons, ← ihitem, ← ihitems, flatten_cons]
      simp only [bind_eq_error_iff]
      cases item.flatten with
      | error e => simp
      | ok first => simp [pure, Except.pure]

/-! ### Empty values -/

theorem repr_ne_empty (n : Int) : n.repr ≠ "" := by
  cases n with
  | ofNat n => exact Nat.repr_ne_empty
  | negSucc n =>
      rw [Int.repr]
      simp

theorem isEmpty_iff_flatten : v.isEmpty = true ↔ v.flatten = .ok [] := by
  induction v using itemInduction with
  | single v hv =>
      have hrender : v.isEmpty = true ↔ v.render = .ok "" := by
        cases v with
        | list items => exact absurd rfl (hv items)
        | text s => simp [isEmpty, render]
        | int n => simp [isEmpty, render, repr_ne_empty]
        | bool b => cases b <;> simp [isEmpty, render]
        | scope ns => simp [isEmpty, render]
        | marker m => simp [isEmpty, render]
      rw [hrender, flatten_single hv, bind_eq_ok_iff]
      simp [pure, Except.pure, unlessEmpty_eq_nil_iff]
  | nil => exact iff_of_true rfl rfl
  | cons item items ihitem ihitems =>
      change (item.isEmpty && (list items).isEmpty) = true ↔ _
      rw [Bool.and_eq_true, ihitem, ihitems, flatten_cons]
      constructor
      · rintro ⟨hitem, hitems⟩
        rw [hitem, hitems]
        rfl
      · intro h
        obtain ⟨first, hfirst, h⟩ := bind_eq_ok_iff.mp h
        obtain ⟨others, hothers, h⟩ := bind_eq_ok_iff.mp h
        obtain ⟨rfl, rfl⟩ := List.append_eq_nil_iff.mp (Except.ok.inj h)
        exact ⟨hfirst, hothers⟩

/-- A value has no text and no flat list exactly if there is a namespace in it. Otherwise its
text is that of the list, whose texts are not empty, with blanks between them, and the value
is empty exactly if the list is. -/
theorem render_exact (v : Value) :
    ((∃ e, v.render = .error e) ↔ v.HasScope) ∧ ((∃ e, v.flatten = .error e) ↔ v.HasScope) ∧
      v.render = (do return " ".intercalate (← v.flatten)) ∧
      (∀ texts, v.flatten = .ok texts → "" ∉ texts) ∧
      (v.isEmpty = true ↔ v.flatten = .ok []) := by
  have hfails : (∃ e, v.render = .error e) ↔ ∃ e, v.flatten = .error e := by
    rw [render_eq_flatten]
    simp [bind_eq_error_iff, pure, Except.pure]
  exact ⟨hfails.trans flatten_eq_error_iff, flatten_eq_error_iff, render_eq_flatten v,
    fun _ => not_mem_flatten, isEmpty_iff_flatten⟩

end Value

end BuildPlan
