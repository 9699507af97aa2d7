import BuildPlan.Environment
import BuildPlan.Proofs.Template.Namespace

/-!
# BuildPlan.Proofs.Environment

Environments as namespaces. No operation on environments binds a tool or a field twice,
so the namespace gives a tool's field the value that the field has. What is found under
a name depends on the tool that the name starts with, and on no other tool.
-/

namespace BuildPlan

namespace Assoc

variable {κ α β : Type} [DecidableEq κ] {key other : κ} {value : α} {bindings pairs : List (κ × α)}

/-! ### Keys that are bound once -/

/-- No key is bound twice. -/
def Distinct (bindings : List (κ × α)) : Prop := (bindings.map Prod.fst).Nodup

instance (bindings : List (κ × α)) : Decidable (Distinct bindings) :=
  inferInstanceAs (Decidable (bindings.map Prod.fst).Nodup)

/-- Binding a key adds it at the end, unless it is there. -/
theorem keys_put (key : κ) (value : α) (bindings : List (κ × α)) :
    (put key value bindings).map Prod.fst =
      if key ∈ bindings.map Prod.fst then bindings.map Prod.fst
      else bindings.map Prod.fst ++ [key] := by
  induction bindings with
  | nil => rfl
  | cons pair rest ih =>
      obtain ⟨k, v⟩ := pair
      rw [put]
      by_cases h : k = key
      · simp [h]
      · rw [if_neg h, List.map_cons, ih]
        simp only [List.map_cons, List.mem_cons, Ne.symm h, false_or]
        split <;> rfl

theorem mem_of_lookup (h : bindings.lookup key = some value) : (key, value) ∈ bindings := by
  obtain ⟨before, after, heq, -⟩ := List.lookup_eq_some_iff.mp h
  exact heq ▸ List.mem_append_right _ List.mem_cons_self

theorem mem_put {entry : κ × α} (h : entry ∈ put key value bindings) :
    entry ∈ bindings ∨ entry = (key, value) := by
  induction bindings with
  | nil => exact .inr (List.mem_singleton.mp h)
  | cons pair rest ih =>
      obtain ⟨k, v⟩ := pair
      rw [put] at h
      split at h
      · next heq =>
          subst heq
          rcases List.mem_cons.mp h with rfl | h
          · exact .inr rfl
          · exact .inl (List.mem_cons_of_mem _ h)
      · rcases List.mem_cons.mp h with rfl | h
        · exact .inl List.mem_cons_self
        · exact (ih h).imp_left (List.mem_cons_of_mem _)

theorem Distinct.put (h : Distinct bindings) (key : κ) (value : α) :
    Distinct (put key value bindings) := by
  rw [Distinct, keys_put]
  split
  · exact h
  · next hnew =>
      rw [← List.concat_eq_append]
      exact h.concat hnew

theorem Distinct.putAll (h : Distinct bindings) (pairs : List (κ × α)) :
    Distinct (putAll pairs bindings) := by
  induction pairs generalizing bindings with
  | nil => exact h
  | cons pair rest ih => exact ih (h.put _ _)

omit [DecidableEq κ] in
theorem Distinct.tail {pair : κ × α} (h : Distinct (pair :: bindings)) : Distinct bindings :=
  (List.nodup_cons.mp h).2

theorem Distinct.lookup_tail (h : Distinct ((key, value) :: bindings)) :
    bindings.lookup key = none := by
  rw [List.lookup_eq_none_iff]
  intro pair hpair
  rw [bne_iff_ne]
  rintro rfl
  exact (List.nodup_cons.mp h).1 (List.mem_map.mpr ⟨pair, hpair, rfl⟩)

/-! ### Lookups -/

theorem lookup_putAll (pairs bindings : List (κ × α)) (key : κ) :
    (putAll pairs bindings).lookup key = (pairs.reverse.lookup key).or (bindings.lookup key) := by
  induction pairs generalizing bindings with
  | nil => rfl
  | cons pair rest ih =>
      obtain ⟨k, v⟩ := pair
      have hstep : putAll ((k, v) :: rest) bindings = putAll rest (put k v bindings) := rfl
      rw [hstep, ih, List.reverse_cons, List.lookup_append, Option.or_assoc]
      congr 1
      by_cases h : key = k
      · subst h
        rw [lookup_put_self, List.lookup_cons_self, Option.some_or]
      · rw [lookup_put_ne h, List.lookup_cons, beq_false_of_ne h]
        rfl

/-- The last binding of a key is the one that counts. -/
theorem lookup_ofPairs (pairs : List (κ × α)) (key : κ) :
    (ofPairs pairs).lookup key = pairs.reverse.lookup key := by
  rw [ofPairs, lookup_putAll, List.lookup_nil, Option.or_none]

theorem lookup_reverse_of_distinct (h : Distinct bindings) (key : κ) :
    bindings.reverse.lookup key = bindings.lookup key := by
  induction bindings with
  | nil => rfl
  | cons pair rest ih =>
      obtain ⟨k, v⟩ := pair
      rw [List.reverse_cons, List.lookup_append, ih h.tail, List.lookup_cons]
      by_cases hkey : key = k
      · subst hkey
        rw [h.lookup_tail]
        simp
      · rw [beq_false_of_ne hkey, List.lookup_cons, beq_false_of_ne hkey, List.lookup_nil,
          Option.or_none]

theorem lookup_reverse_put_ne (h : other ≠ key) (value : α) (bindings : List (κ × α)) :
    (put key value bindings).reverse.lookup other = bindings.reverse.lookup other := by
  have hskip : ∀ value : α, [(key, value)].lookup other = none := by
    intro value
    rw [List.lookup_cons, beq_false_of_ne h, List.lookup_nil]
  induction bindings with
  | nil => exact hskip value
  | cons pair rest ih =>
      obtain ⟨k, v⟩ := pair
      rw [put]
      split
      · next heq =>
          subst heq
          rw [List.reverse_cons, List.reverse_cons, List.lookup_append, List.lookup_append, hskip,
            hskip]
      · rw [List.reverse_cons, List.reverse_cons, List.lookup_append, List.lookup_append, ih]

theorem lookup_map_value (f : α → β) (bindings : List (κ × α)) (key : κ) :
    (bindings.map fun entry => (entry.1, f entry.2)).lookup key = (bindings.lookup key).map f := by
  induction bindings with
  | nil => rfl
  | cons pair rest ih =>
      obtain ⟨k, v⟩ := pair
      rw [List.map_cons, List.lookup_cons, List.lookup_cons, ih]
      cases key == k <;> rfl

theorem lookup_filter_value (h : Distinct bindings) (test : α → Bool) (key : κ) :
    (bindings.filter fun entry => test entry.2).lookup key = (bindings.lookup key).filter test := by
  induction bindings with
  | nil => rfl
  | cons entry rest ih =>
      obtain ⟨k, v⟩ := entry
      rw [List.filter_cons, List.lookup_cons]
      by_cases hkey : key = k
      · subst hkey
        split
        · next htest => simp [Option.filter, htest]
        · next htest =>
            rw [ih h.tail, h.lookup_tail]
            simp [Option.filter, htest]
      · rw [beq_false_of_ne hkey]
        split
        · rw [List.lookup_cons, beq_false_of_ne hkey]
          exact ih h.tail
        · exact ih h.tail

end Assoc

namespace Environment

open Assoc

variable {env : Environment} {tool field head : String} {value : Value}

/-! ### Tools that are bound once -/

/-- Neither a tool nor a field of a tool is bound twice. -/
structure DistinctTools (env : Environment) : Prop where
  tools : Distinct env.tools
  fields : ∀ entry ∈ env.tools, Distinct entry.2

theorem distinctTools_initial : initial.DistinctTools where
  tools := List.nodup_nil
  fields := by simp [initial]

theorem DistinctTools.distinct_of_tool? (h : env.DistinctTools) {fields : ToolFields}
    (hfields : env.tool? tool = some fields) : Distinct fields :=
  h.fields (tool, fields) (mem_of_lookup hfields)

theorem DistinctTools.alterTool (h : env.DistinctTools) (tool : String)
    {change : ToolFields → ToolFields}
    (hchange : ∀ fields, Distinct fields → Distinct (change fields)) :
    (env.alterTool tool change).DistinctTools := by
  refine ⟨h.tools.put _ _, fun entry hentry => ?_⟩
  rcases mem_put hentry with hold | rfl
  · exact h.fields entry hold
  · refine hchange _ ?_
    cases hfields : env.tools.lookup tool with
    | none => exact List.nodup_nil
    | some fields => exact h.distinct_of_tool? hfields

theorem DistinctTools.setField (h : env.DistinctTools) (tool field : String) (value : Value) :
    (env.setField tool field value).DistinctTools :=
  h.alterTool tool fun _ hfields => hfields.put field value

theorem DistinctTools.setFields (h : env.DistinctTools) (tool : String) (fields : ToolFields) :
    (env.setFields tool fields).DistinctTools :=
  h.alterTool tool fun _ hfields => hfields.putAll fields

theorem DistinctTools.setVar (h : env.DistinctTools) (name : String) (value : Value) :
    (env.setVar name value).DistinctTools :=
  ⟨h.tools, h.fields⟩

theorem DistinctTools.setUp (h : env.DistinctTools) (tc : Toolchain) :
    (env.setUp tc).DistinctTools := by
  unfold Environment.setUp
  induction tc.tools generalizing env with
  | nil => exact h
  | cons entry rest ih => exact ih (h.setFields _ _)

/-- A toolchain sets an environment up and may be added to its toolchains. Nothing else changes. -/
theorem exists_addToolchain_eq (env : Environment) (tc : Toolchain) :
    ∃ toolchains, ((Environment.addToolchain tc).run.run env).2 =
      { env.setUp tc with toolchains } := by
  have hrun (k : Environment → ExceptT BuildError (StateM Environment) Unit) :
      (do modify (·.setUp tc); k (← get) : ExceptT BuildError (StateM Environment) Unit).run.run
        env = (k (env.setUp tc)).run.run (env.setUp tc) := rfl
  rw [Environment.addToolchain, hrun]
  split
  · exact ⟨(env.setUp tc).toolchains, rfl⟩
  · exact ⟨(env.setUp tc).toolchains ++ [tc], rfl⟩

/-- A toolchain that configures an environment leaves it so, also if a tool is missing. -/
theorem DistinctTools.addToolchain (h : env.DistinctTools) (tc : Toolchain) :
    ((Environment.addToolchain tc).run.run env).2.DistinctTools := by
  obtain ⟨toolchains, heq⟩ := exists_addToolchain_eq env tc
  rw [heq]
  exact ⟨(h.setUp tc).tools, (h.setUp tc).fields⟩

/-! ### The namespace -/

/-- What is found under a name is found in the tool that the name starts with, or in the
variable of that name. -/
theorem find_toNamespace (env : Environment) (head : String) (tail : List String) :
    env.toNamespace.find (head :: tail) =
      (((env.tools.reverse.lookup head).map fun fields => .scope (.ofPairs fields)).or
        (env.vars.reverse.lookup head)).bind (Namespace.findInside · tail) := by
  have hlookup : env.toNamespace.bindings.lookup head =
      ((env.tools.reverse.lookup head).map fun fields => .scope (.ofPairs fields)).or
        (env.vars.reverse.lookup head) := by
    rw [toNamespace, Namespace.ofPairs, Namespace.bindings, lookup_ofPairs, List.reverse_append,
      List.lookup_append, ← List.map_reverse]
    exact congrArg (Option.or · _)
      (lookup_map_value (fun fields => Value.scope (.ofPairs fields)) env.tools.reverse head)
  rw [Namespace.find_eq, hlookup]
  exact Option.or_none

/-- A tool's field is found under the tool's name, and nothing else is. -/
theorem DistinctTools.get_of_tool? (h : env.DistinctTools) (htool : '.' ∉ tool.toList)
    (hfield : '.' ∉ field.toList) {fields : ToolFields} (hfields : env.tool? tool = some fields) :
    env.toNamespace.get (tool ++ "." ++ field) = fields.lookup field := by
  rw [Namespace.get, segments_append, segments_of_not_mem htool, segments_of_not_mem hfield]
  change env.toNamespace.find (tool :: [field]) = _
  rw [find_toNamespace, lookup_reverse_of_distinct h.tools, ← tool?, hfields]
  change (Namespace.ofPairs fields).find [field] = _
  rw [Namespace.find_eq, Namespace.ofPairs, Namespace.bindings, lookup_ofPairs,
    lookup_reverse_of_distinct (h.distinct_of_tool? hfields)]
  cases fields.lookup field with
  | none => rfl
  | some value => rw [Option.bind_some, Namespace.findInside, Option.some_or]

theorem DistinctTools.get_field (h : env.DistinctTools) (htool : '.' ∉ tool.toList)
    (hfield : '.' ∉ field.toList) (hvalue : env.field? tool field = some value) :
    env.toNamespace.get (tool ++ "." ++ field) = some value := by
  obtain ⟨fields, hfields, hvalue⟩ := Option.bind_eq_some_iff.mp hvalue
  rw [h.get_of_tool? htool hfield hfields, hvalue]

/-- A change of one tool is found under no name that starts otherwise. -/
theorem find_alterTool_ne (h : head ≠ tool) (env : Environment)
    (change : ToolFields → ToolFields) (tail : List String) :
    (env.alterTool tool change).toNamespace.find (head :: tail) =
      env.toNamespace.find (head :: tail) := by
  rw [find_toNamespace, find_toNamespace]
  simp only [Environment.alterTool, Assoc.alter, lookup_reverse_put_ne h]

/-- A name that leads to the tool or into it. -/
def Under (tool name : String) : Prop := name = tool ∨ ∃ field, name = tool ++ "." ++ field

theorem get_alterTool_of_not_under {name : String} (h : ¬ Under tool name) (env : Environment)
    (change : ToolFields → ToolFields) :
    (env.alterTool tool change).toNamespace.get name = env.toNamespace.get name := by
  obtain ⟨head, rest, hsegments⟩ := List.exists_cons_of_ne_nil (segments_ne_nil name)
  rw [Namespace.get, Namespace.get, hsegments]
  refine find_alterTool_ne ?_ env change rest
  rintro rfl
  exact h (eq_or_append_of_segments hsegments)

theorem field?_alterTool_ne {other : String} (h : other ≠ tool) (env : Environment)
    (change : ToolFields → ToolFields) (field : String) :
    (env.alterTool tool change).field? other field = env.field? other field := by
  rw [field?, field?, tool?, tool?, alterTool, alter, lookup_put_ne h]

end Environment

end BuildPlan
