import BuildPlan.Template.Value
import BuildPlan.Proofs.Template.Stack

/-!
# BuildPlan.Proofs.Template.Namespace

What namespaces answer once names have been bound. A name that has been bound leads
to its value, and the names that lie apart from it lead where they led before.
-/

namespace BuildPlan

/-! ### Segments of names -/

theorem segments_append (first second : String) :
    segments (first ++ "." ++ second) = segments first ++ segments second := by
  have hlist : (first ++ "." ++ second).toList = first.toList ++ '.' :: second.toList := by simp
  rw [segments, hlist, List.splitOn_append_cons_self, List.map_append]
  rfl

theorem segments_of_not_mem {name : String} (h : '.' ∉ name.toList) : segments name = [name] := by
  rw [segments, List.splitOn_eq_singleton h, List.map_singleton, String.ofList_toList]

theorem segments_ne_nil (name : String) : segments name ≠ [] := by
  rw [segments, ne_eq, List.map_eq_nil_iff]
  exact List.splitOn_ne_nil '.' name.toList

/-- The first segment of a name is all of it, or a dot follows. -/
theorem eq_or_append_of_segments {name head : String} {rest : List String}
    (h : segments name = head :: rest) : name = head ∨ ∃ tail, name = head ++ "." ++ tail := by
  have hchars : ['.'].intercalate (name.toList.splitOn '.') = name.toList :=
    List.intercalate_splitOn '.'
  obtain ⟨first, others, hsplit⟩ :=
    List.exists_cons_of_ne_nil (List.splitOn_ne_nil '.' name.toList)
  rw [segments, hsplit, List.map_cons, List.cons.injEq] at h
  obtain ⟨rfl, -⟩ := h
  rw [hsplit] at hchars
  cases others with
  | nil =>
      refine .inl (String.toList_injective ?_)
      rw [String.toList_ofList, ← hchars, List.intercalate_singleton]
  | cons next others =>
      refine .inr ⟨.ofList (['.'].intercalate (next :: others)), String.toList_injective ?_⟩
      simp [← hchars]

/-- Neither of the paths leads through the other. -/
def Apart (path other : List String) : Prop := ¬ path <+: other ∧ ¬ other <+: path

theorem apart_cons {head : String} {path other : List String} :
    Apart (head :: path) (head :: other) ↔ Apart path other := by
  rw [Apart, Apart, List.cons_prefix_cons, List.cons_prefix_cons]
  simp

theorem Apart.ne_nil {path other : List String} (h : Apart path other) : path ≠ [] := by
  rintro rfl
  exact h.1 (List.nil_prefix)

namespace Namespace

variable {ns ns' inner : Namespace} {head key : String} {tail rest path : List String}
  {value : Value}

theorem findBinding_eq (bindings : List (String × Value)) (head : String) (tail : List String) :
    findBinding bindings (head :: tail) = (bindings.lookup head).bind (findInside · tail) := by
  induction bindings with
  | nil => rw [findBinding, List.lookup_nil, Option.bind_none]
  | cons binding rest ih =>
      obtain ⟨key, value⟩ := binding
      rw [findBinding, List.lookup_cons]
      by_cases h : key = head
      · subst h
        simp
      · rw [if_neg h, ih, beq_false_of_ne (Ne.symm h)]

theorem find_eq (ns : Namespace) (head : String) (tail : List String) :
    ns.find (head :: tail) =
      ((ns.bindings.lookup head).bind (findInside · tail)).or
        (findAbove ns.parent (head :: tail)) := by
  obtain ⟨bindings, parent⟩ := ns
  rw [find, findBinding_eq]
  change _ = ((bindings.lookup head).bind (findInside · tail)).or (findAbove parent (head :: tail))
  cases (bindings.lookup head).bind (findInside · tail) <;> rfl

theorem find_put_self (ns : Namespace) (key : String) (value : Value) (tail : List String) :
    (ns.put key value).find (key :: tail) =
      (findInside value tail).or (findAbove ns.parent (key :: tail)) := by
  rw [find_eq, put, bindings, Assoc.lookup_put_self]
  rfl

theorem find_put_ne (h : head ≠ key) :
    (ns.put key value).find (head :: tail) = ns.find (head :: tail) := by
  rw [find_eq, find_eq ns, put, bindings, Assoc.lookup_put_ne h]
  rfl

/-- What is found below a name that stands for a nested namespace. -/
theorem find_of_scope (h : ns.bindings.lookup head = some (.scope inner)) (hpath : path ≠ []) :
    ns.find (head :: path) = (inner.find path).or (findAbove ns.parent (head :: path)) := by
  obtain ⟨next, rest, rfl⟩ := List.exists_cons_of_ne_nil hpath
  rw [find_eq, h, Option.bind_some, findInside]

theorem find_put_scope (ns inner : Namespace) (key : String) (hpath : path ≠ []) :
    (ns.put key (.scope inner)).find (key :: path) =
      (inner.find path).or (findAbove ns.parent (key :: path)) :=
  find_of_scope (Assoc.lookup_put_self _ _ _) hpath

theorem find_empty (path : List String) : (empty none).find path = none := by
  cases path <;> rfl

/-- The steps of binding a path of several segments: the rest of the path is bound in the
namespace that the first segment stands for, or in a new one. -/
theorem bindPath_inv {next : String} (h : bindPath value ns head (next :: rest) = .ok ns') :
    ∃ inner inner', bindPath value inner next rest = .ok inner' ∧
      ns' = ns.put head (.scope inner') ∧
      (ns.bindings.lookup head = none ∧ inner = empty none ∨
        ns.bindings.lookup head = some (.scope inner)) := by
  rw [bindPath] at h
  split at h
  · next hnone =>
      obtain ⟨inner', hinner, h⟩ := Template.bind_eq_ok_iff.mp h
      cases h
      exact ⟨_, inner', hinner, rfl, .inl ⟨hnone, rfl⟩⟩
  · next inner hscope =>
      obtain ⟨inner', hinner, h⟩ := Template.bind_eq_ok_iff.mp h
      cases h
      exact ⟨inner, inner', hinner, rfl, .inr hscope⟩
  · cases h

theorem find_bindPath (h : bindPath value ns head rest = .ok ns') :
    ns'.find (head :: rest) = some value := by
  induction rest generalizing ns ns' head with
  | nil =>
      cases h
      rw [find_put_self, findInside, Option.some_or]
  | cons next rest ih =>
      obtain ⟨inner, inner', hinner, rfl, -⟩ := bindPath_inv h
      rw [find_put_scope _ _ _ (List.cons_ne_nil _ _), ih hinner, Option.some_or]

/-- Binding a path changes nothing that lies apart from it. -/
theorem find_bindPath_apart (h : bindPath value ns head rest = .ok ns')
    (hapart : Apart path (head :: rest)) : ns'.find path = ns.find path := by
  induction rest generalizing ns ns' head path with
  | nil =>
      obtain ⟨first, tail, rfl⟩ := List.exists_cons_of_ne_nil hapart.ne_nil
      cases h
      refine find_put_ne ?_
      rintro rfl
      exact hapart.2 (by simp)
  | cons next rest ih =>
      obtain ⟨first, tail, rfl⟩ := List.exists_cons_of_ne_nil hapart.ne_nil
      obtain ⟨inner, inner', hinner, rfl, hscope⟩ := bindPath_inv h
      by_cases hfirst : first = head
      · subst hfirst
        have hbelow := apart_cons.mp hapart
        rw [find_put_scope _ _ _ hbelow.ne_nil, ih hinner hbelow]
        rcases hscope with ⟨hnone, rfl⟩ | hscope
        · rw [find_empty, find_eq, hnone]
          rfl
        · rw [find_of_scope hscope hbelow.ne_nil]
      · exact find_put_ne hfirst

/-! ### Bound names -/

variable {name other : String}

theorem insert_inv (h : ns.insert name value = .ok ns') :
    ∃ head rest, segments name = head :: rest ∧ bindPath value ns head rest = .ok ns' := by
  obtain ⟨head, rest, hsegments⟩ := List.exists_cons_of_ne_nil (segments_ne_nil name)
  rw [insert, hsegments] at h
  exact ⟨head, rest, hsegments, h⟩

theorem get_insert (h : ns.insert name value = .ok ns') : ns'.get name = some value := by
  obtain ⟨head, rest, hsegments, hbind⟩ := insert_inv h
  rw [get, hsegments, find_bindPath hbind]

theorem get_insert_apart (h : ns.insert name value = .ok ns')
    (hapart : Apart (segments other) (segments name)) : ns'.get other = ns.get other := by
  obtain ⟨head, rest, hsegments, hbind⟩ := insert_inv h
  rw [get, find_bindPath_apart hbind (hsegments ▸ hapart), get]

theorem get_inserts_apart {bindings : List (String × Value)}
    (h : bindings.foldlM (fun ns (name, value) => ns.insert name value) ns = .ok ns')
    (hapart : ∀ binding ∈ bindings, Apart (segments other) (segments binding.1)) :
    ns'.get other = ns.get other := by
  induction bindings generalizing ns with
  | nil =>
      cases h
      rfl
  | cons binding rest ih =>
      rw [List.foldlM_cons] at h
      obtain ⟨mid, hfirst, hrest⟩ := Template.bind_eq_ok_iff.mp h
      rw [ih hrest fun other hother => hapart other (List.mem_cons_of_mem _ hother),
        get_insert_apart hfirst (hapart binding List.mem_cons_self)]

/-- A layer gives a name the value that it is bound to last. -/
theorem get_layer {base : Namespace} {before after : List (String × Value)}
    (h : base.layer (before ++ (name, value) :: after) = .ok ns)
    (hapart : ∀ binding ∈ after, Apart (segments name) (segments binding.1)) :
    ns.get name = some value := by
  rw [layer, List.foldlM_append] at h
  obtain ⟨mid, -, h⟩ := Template.bind_eq_ok_iff.mp h
  rw [List.foldlM_cons] at h
  obtain ⟨mid', hbound, hrest⟩ := Template.bind_eq_ok_iff.mp h
  rw [get_inserts_apart hrest hapart, get_insert hbound]

/-! ### Other parents -/

/-- The namespace's own bindings over another parent. -/
def withParent (ns : Namespace) (parent : Option Namespace) : Namespace := .mk ns.bindings parent

variable {base base' : Namespace} {overrides : List (String × Value)}

/-- Binding looks at the namespace's own bindings only. -/
theorem bindPath_withParent (value : Value) (ns : Namespace) (parent : Option Namespace)
    (head : String) (rest : List String) :
    bindPath value (ns.withParent parent) head rest =
      (bindPath value ns head rest).map (withParent · parent) := by
  cases rest with
  | nil => rfl
  | cons next rest =>
      have hbindings : (ns.withParent parent).bindings = ns.bindings := rfl
      rw [bindPath, bindPath, hbindings]
      split
      · cases bindPath value (.empty none) next rest <;> rfl
      · next inner _ => cases bindPath value inner next rest <;> rfl
      · rfl

theorem insert_withParent (ns : Namespace) (parent : Option Namespace) (name : String)
    (value : Value) : (ns.withParent parent).insert name value =
      (ns.insert name value).map (withParent · parent) := by
  rw [insert, insert]
  split
  · rfl
  · exact bindPath_withParent value ns parent _ _

theorem inserts_withParent (overrides : List (String × Value)) (ns : Namespace)
    (parent : Option Namespace) :
    overrides.foldlM (fun (ns : Namespace) (name, value) => ns.insert name value)
        (ns.withParent parent) =
      (overrides.foldlM (fun (ns : Namespace) (name, value) => ns.insert name value) ns).map
        (withParent · parent) := by
  induction overrides generalizing ns with
  | nil => rfl
  | cons binding rest ih =>
      obtain ⟨name, value⟩ := binding
      rw [List.foldlM_cons, List.foldlM_cons]
      dsimp only
      rw [insert_withParent]
      cases ns.insert name value with
      | error e => rfl
      | ok next => exact ih next

/-- A layer has the same bindings over every base. -/
theorem layer_withParent (base base' : Namespace) (overrides : List (String × Value)) :
    base'.layer overrides = (base.layer overrides).map (withParent · (some base')) :=
  inserts_withParent overrides (.empty (some base)) (some base')

theorem parent_layer (h : base.layer overrides = .ok ns) : ns.parent = some base := by
  have hsame := layer_withParent base base overrides
  rw [h] at hsame
  rw [Except.ok.inj hsame]
  rfl

/-- A name for which two bases agree has one value in the layer, whichever base it is over. -/
theorem get_withParent (h : base.layer overrides = .ok ns)
    (hname : base'.get name = base.get name) :
    (ns.withParent (some base')).get name = ns.get name := by
  obtain ⟨head, rest, hsegments⟩ := List.exists_cons_of_ne_nil (segments_ne_nil name)
  rw [get, get, hsegments] at hname ⊢
  rw [find_eq, find_eq ns, parent_layer h]
  exact congrArg (Option.or _) hname

end Namespace

end BuildPlan
