import BuildPlan.Proofs.Template.Namespace

/-!
# BuildPlan.Proofs.Template.Insertion

When a dotted name can be bound. The walk to its last segment goes through bindings alone,
of the namespace and of those nested in it, and only a value that is no namespace can stop
it. Where a segment is new the walk goes on in a new namespace, which nothing stops, so a
walk that is stopped has not made any, and binding in place is binding in a copy.

Names none of which leads through another one do not stop each other, so they can be bound
one after the other, and each keeps its value.
-/

namespace BuildPlan

/-! ### What stops a walk -/

namespace Value

variable {ns : Namespace} {value blocker : Value} {head : String} {path : List String}

/-- Is the value a namespace? -/
def isScope : Value → Bool
  | .scope _ => true
  | .text _ | .int _ | .bool _ | .list _ | .marker _ => false

/-- The value that a path leads to from a value on, through bindings alone: no parent is
asked, of whichever namespace. -/
def follow : Value → List String → Option Value
  | value, [] => some value
  | .scope ns, head :: rest => (ns.bindings.lookup head).bind (·.follow rest)
  | .text _, _ :: _ | .int _, _ :: _ | .bool _, _ :: _ | .list _, _ :: _ | .marker _, _ :: _ => none

/-- A proper front part of the path leads to a value that is no namespace. -/
def Blocks (value : Value) (path : List String) : Prop :=
  ∃ front blocker, front <+: path ∧ front ≠ path ∧ value.follow front = some blocker ∧
    blocker.isScope = false

theorem not_blocks_nil : ¬ value.Blocks [] := by
  rintro ⟨front, -, hfront, hproper, -⟩
  exact hproper (List.prefix_nil.mp hfront)

theorem blocks_of_not_scope (h : value.isScope = false) (hpath : path ≠ []) : value.Blocks path :=
  ⟨[], value, List.nil_prefix, hpath.symm, rfl, h⟩

/-- A path has to take a step to leave the namespaces. -/
theorem ne_nil_of_follow (h : follow (.scope ns) path = some blocker)
    (hblocker : blocker.isScope = false) : path ≠ [] := by
  rintro rfl
  cases h
  cases hblocker

theorem blocks_scope_cons : (scope ns).Blocks (head :: path) ↔
    ∃ value, ns.bindings.lookup head = some value ∧ value.Blocks path := by
  constructor
  · rintro ⟨front, blocker, hfront, hproper, hfollow, hblocker⟩
    obtain ⟨first, front, rfl⟩ := List.exists_cons_of_ne_nil (ne_nil_of_follow hfollow hblocker)
    obtain ⟨rfl, htail⟩ := List.cons_prefix_cons.mp hfront
    obtain ⟨value, hvalue, hfollow⟩ := Option.bind_eq_some_iff.mp hfollow
    refine ⟨value, hvalue, front, blocker, htail, ?_, hfollow, hblocker⟩
    rintro rfl
    exact hproper rfl
  · rintro ⟨value, hvalue, front, blocker, hfront, hproper, hfollow, hblocker⟩
    refine ⟨head :: front, blocker, List.cons_prefix_cons.mpr ⟨rfl, hfront⟩, ?_, ?_, hblocker⟩
    · rwa [ne_eq, List.cons.injEq, and_iff_right rfl]
    · rw [follow, hvalue, Option.bind_some, hfollow]

/-- Nothing stops a walk where nothing is bound. -/
theorem not_blocks_empty (parent : Option Namespace) (path : List String) :
    ¬ (scope (.empty parent)).Blocks path := by
  cases path with
  | nil => exact not_blocks_nil
  | cons head path =>
      rw [blocks_scope_cons]
      rintro ⟨value, hvalue, -⟩
      cases hvalue

end Value

namespace Namespace

variable {ns ns' : Namespace} {value : Value} {head : String} {rest : List String}

theorem bindPath_eq_error_iff :
    (∃ e, bindPath value ns head rest = .error e) ↔ (Value.scope ns).Blocks (head :: rest) := by
  induction rest generalizing ns head with
  | nil =>
      rw [Value.blocks_scope_cons]
      constructor
      · rintro ⟨e, h⟩
        cases h
      · rintro ⟨value, -, hblocks⟩
        exact absurd hblocks Value.not_blocks_nil
  | cons next rest ih =>
      -- below the first segment the walk goes on as the binding does
      have hmap : ∀ (inner : Namespace),
          (∃ e, (do return ns.put head (.scope (← bindPath value inner next rest)) :
            Except BuildError Namespace) = .error e) ↔
          (Value.scope inner).Blocks (next :: rest) := by
        intro inner
        rw [← ih]
        cases bindPath value inner next rest <;> simp [bind, Except.bind, pure, Except.pure]
      rw [bindPath, Value.blocks_scope_cons]
      cases hlookup : ns.bindings.lookup head with
      | none =>
          refine (hmap _).trans ⟨fun h => absurd h (Value.not_blocks_empty _ _), ?_⟩
          rintro ⟨_, hnone, -⟩
          cases hnone
      | some bound =>
          simp only [Option.some.injEq, exists_eq_left']
          cases bound with
          | scope inner => exact hmap inner
          | text | int | bool | list | marker =>
              exact iff_of_true ⟨_, rfl⟩ (Value.blocks_of_not_scope rfl (List.cons_ne_nil _ _))

theorem insert_eq_error_iff {name : String} :
    (∃ e, ns.insert name value = .error e) ↔ (Value.scope ns).Blocks (segments name) := by
  obtain ⟨head, rest, hsegments⟩ := List.exists_cons_of_ne_nil (segments_ne_nil name)
  rw [insert, hsegments]
  exact bindPath_eq_error_iff

/-! ### Binding in place -/

/-- The namespace with a name that stands for an empty namespace unless it is bound. -/
def ensure (ns : Namespace) (key : String) : Namespace :=
  match ns.bindings.lookup key with
  | some _ => ns
  | none => ns.put key (.scope (.empty none))

/-- Bind a path in place: what comes of it, and the namespace as it is afterwards. A
namespace that is missing on the way is made before the rest of the path is bound. -/
def bindInPlace (value : Value) :
    Namespace → String → List String → Except BuildError Unit × Namespace
  | ns, head, [] => (.ok (), ns.put head value)
  | ns, head, next :: rest =>
    match (ns.ensure head).bindings.lookup head with
    | some (.scope inner) =>
      let (outcome, changed) := bindInPlace value inner next rest
      (outcome, (ns.ensure head).put head (.scope changed))
    | _ =>
      (.error (.substitution (.boundThroughValue (dotted (head :: next :: rest)) head)),
        ns.ensure head)

/-- Bind a dotted name in place. -/
def insertInPlace (ns : Namespace) (name : String) (value : Value) :
    Except BuildError Unit × Namespace :=
  match segments name with
  | [] => (.ok (), ns)
  | head :: rest => bindInPlace value ns head rest

theorem put_put (ns : Namespace) (key : String) (first second : Value) :
    (ns.put key first).put key second = ns.put key second :=
  congrArg (Namespace.mk · ns.parent) (Assoc.put_put key first second ns.bindings)

theorem put_of_lookup {key : String} (h : ns.bindings.lookup key = some value) :
    ns.put key value = ns := by
  obtain ⟨bindings, parent⟩ := ns
  exact congrArg (Namespace.mk · parent) (Assoc.put_of_lookup h)

/-- What comes of a change that may be refused, and what there is afterwards. -/
def outcome (ns : Namespace) : Except BuildError Namespace → Except BuildError Unit × Namespace
  | .ok ns' => (.ok (), ns')
  | .error e => (.error e, ns)

/-- Binding in place makes the same of a namespace, or leaves it as it is. -/
theorem bindInPlace_eq (value : Value) (ns : Namespace) (head : String) (rest : List String) :
    bindInPlace value ns head rest = ns.outcome (bindPath value ns head rest) := by
  induction rest generalizing ns head with
  | nil => rfl
  | cons next rest ih =>
      rw [bindInPlace, bindPath, ensure]
      cases hlookup : ns.bindings.lookup head with
      | none =>
          -- in a new namespace the rest can be bound
          have hfresh : (ns.put head (.scope (.empty none))).bindings.lookup head =
              some (.scope (.empty none)) := Assoc.lookup_put_self _ _ _
          cases hinner : bindPath value (.empty none) next rest with
          | error e =>
              exact absurd (bindPath_eq_error_iff.mp ⟨e, hinner⟩) (Value.not_blocks_empty _ _)
          | ok inner =>
              simp only [hfresh, ih, hinner, outcome, put_put]
              rfl
      | some bound =>
          cases bound with
          | scope inner =>
              simp only [hlookup, ih]
              cases hinner : bindPath value inner next rest with
              | error e => exact congrArg (Prod.mk _) (put_of_lookup hlookup)
              | ok inner' => rfl
          | text | int | bool | list | marker =>
              simp only [hlookup]
              rfl

theorem insertInPlace_eq (ns : Namespace) (name : String) (value : Value) :
    ns.insertInPlace name value = ns.outcome (ns.insert name value) := by
  obtain ⟨head, rest, hsegments⟩ := List.exists_cons_of_ne_nil (segments_ne_nil name)
  rw [insertInPlace, insert, hsegments]
  exact bindInPlace_eq value ns head rest

/-- A name can be bound unless a proper front part of it leads, through bindings alone, to a
value that is no namespace; then binding it in place leaves the namespace as it is. A name
that has been bound stands for its value, and the names that lie apart from it stand for
what they stood for. -/
theorem insert_exact (ns : Namespace) (name : String) (value : Value) :
    ((∃ e, ns.insert name value = .error e) ↔ (Value.scope ns).Blocks (segments name)) ∧
    (∀ e, ns.insert name value = .error e → ns.insertInPlace name value = (.error e, ns)) ∧
    ∀ ns', ns.insert name value = .ok ns' →
      ns.insertInPlace name value = (.ok (), ns') ∧ ns'.get name = some value ∧
        ∀ other, Apart (segments other) (segments name) → ns'.get other = ns.get other := by
  refine ⟨insert_eq_error_iff, fun e h => ?_, fun ns' h => ⟨?_, get_insert h, fun other hapart =>
    get_insert_apart h hapart⟩⟩
  · rw [insertInPlace_eq, h, outcome]
  · rw [insertInPlace_eq, h, outcome]

/-! ### Binding several names -/

theorem follow_put_self (ns : Namespace) (key : String) (value : Value) (path : List String) :
    Value.follow (.scope (ns.put key value)) (key :: path) = value.follow path := by
  rw [Value.follow, put, bindings, Assoc.lookup_put_self, Option.bind_some]

theorem follow_put_ne {key : String} (h : head ≠ key) (path : List String) :
    Value.follow (.scope (ns.put key value)) (head :: path) =
      Value.follow (.scope ns) (head :: path) := by
  rw [Value.follow, Value.follow, put, bindings, Assoc.lookup_put_ne h]

/-- What a path leads to once another one has been bound, if it is no namespace, the path led
to before, or it goes through the other one. -/
theorem follow_bindPath {path : List String} {blocker : Value}
    (h : bindPath value ns head rest = .ok ns')
    (hfollow : Value.follow (.scope ns') path = some blocker)
    (hblocker : blocker.isScope = false) :
    Value.follow (.scope ns) path = some blocker ∨ head :: rest <+: path := by
  induction rest generalizing ns ns' head path with
  | nil =>
      cases h
      obtain ⟨first, path, rfl⟩ :=
        List.exists_cons_of_ne_nil (Value.ne_nil_of_follow hfollow hblocker)
      by_cases hfirst : first = head
      · exact .inr (by simp [hfirst])
      · exact .inl (follow_put_ne hfirst path ▸ hfollow)
  | cons next rest ih =>
      obtain ⟨inner, inner', hinner, rfl, hscope⟩ := bindPath_inv h
      obtain ⟨first, path, rfl⟩ :=
        List.exists_cons_of_ne_nil (Value.ne_nil_of_follow hfollow hblocker)
      by_cases hfirst : first = head
      · subst hfirst
        rw [follow_put_self] at hfollow
        rw [List.cons_prefix_cons, and_iff_right rfl]
        refine (ih hinner hfollow).imp_left fun hbelow => ?_
        rcases hscope with ⟨-, rfl⟩ | hscope
        · -- a new namespace leads nowhere
          obtain ⟨_, _, rfl⟩ :=
            List.exists_cons_of_ne_nil (Value.ne_nil_of_follow hbelow hblocker)
          cases hbelow
        · rwa [Value.follow, hscope]
      · exact .inl (follow_put_ne hfirst path ▸ hfollow)

/-- A name that nothing stops can still be bound once one that lies apart has been bound. -/
theorem not_blocks_insert {name other : String} (h : ns.insert name value = .ok ns')
    (hapart : Apart (segments other) (segments name))
    (hother : ¬ (Value.scope ns).Blocks (segments other)) :
    ¬ (Value.scope ns').Blocks (segments other) := by
  rintro ⟨front, blocker, hfront, hproper, hfollow, hblocker⟩
  obtain ⟨head, rest, hsegments, hbind⟩ := insert_inv h
  rcases follow_bindPath hbind hfollow hblocker with hbefore | hthrough
  · exact hother ⟨front, blocker, hfront, hproper, hbefore, hblocker⟩
  · exact hapart.2 (hsegments ▸ hthrough.trans hfront)

/-- No name of the bindings leads through another one. -/
def AllApart (bindings : List (String × Value)) : Prop :=
  bindings.Pairwise fun first second => Apart (segments first.1) (segments second.1)

theorem exists_inserts {bindings : List (String × Value)} (h : AllApart bindings)
    (hfree : ∀ binding ∈ bindings, ¬ (Value.scope ns).Blocks (segments binding.1)) :
    ∃ ns', bindings.foldlM (fun ns (name, value) => ns.insert name value) ns = .ok ns' := by
  induction bindings generalizing ns with
  | nil => exact ⟨ns, rfl⟩
  | cons binding rest ih =>
      obtain ⟨name, value⟩ := binding
      obtain ⟨hfirst, hrest⟩ := List.pairwise_cons.mp h
      obtain ⟨hfree, hothers⟩ := List.forall_mem_cons.mp hfree
      cases hinsert : ns.insert name value with
      | error e => exact absurd (insert_eq_error_iff.mp ⟨e, hinsert⟩) hfree
      | ok next =>
          have hrestFree : ∀ binding ∈ rest, ¬ (Value.scope next).Blocks (segments binding.1) :=
            fun other hmem =>
              not_blocks_insert hinsert (hfirst other hmem).symm (hothers other hmem)
          obtain ⟨ns', hns'⟩ := ih hrest hrestFree
          refine ⟨ns', ?_⟩
          rw [List.foldlM_cons]
          dsimp only
          rw [hinsert]
          exact hns'

/-- Bindings that lie apart from each other can be layered over a namespace. Each name has the
value that it is bound to, and the names that lie apart from all of them are those of the
namespace below. -/
theorem exists_layer (base : Namespace) {bindings : List (String × Value)}
    (h : AllApart bindings) :
    ∃ ns, base.layer bindings = .ok ns ∧
      (∀ binding ∈ bindings, ns.get binding.1 = some binding.2) ∧
      ∀ name, (∀ binding ∈ bindings, Apart (segments name) (segments binding.1)) →
        ns.get name = base.get name := by
  have hfree : ∀ binding ∈ bindings,
      ¬ (Value.scope (.empty (some base))).Blocks (segments binding.1) :=
    fun _ _ => Value.not_blocks_empty _ _
  obtain ⟨ns, hns⟩ := exists_inserts h hfree
  refine ⟨ns, hns, fun binding hbinding => ?_, fun name hname => ?_⟩
  · obtain ⟨before, after, rfl⟩ := List.append_of_mem hbinding
    exact get_layer hns (List.pairwise_cons.mp (List.pairwise_append.mp h).2.1).1
  · rw [get_inserts_apart hns hname]
    obtain ⟨head, rest, hsegments⟩ := List.exists_cons_of_ne_nil (segments_ne_nil name)
    rw [get, get, hsegments, find_eq]
    rfl

end Namespace

end BuildPlan
