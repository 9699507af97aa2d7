import BuildPlan.Assoc
import BuildPlan.Error
import BuildPlan.Template.Token

/-!
# BuildPlan.Template.Value

The values that variables are bound to, and the namespaces that bind them. A
dotted name walks into nested namespaces; a name that a namespace does not bind
itself is looked up in its parent, again from the name's start, so a child may
override `cc.flags` while `cc.cmd` still comes from the parent.
-/

namespace BuildPlan

mutual

/-- What a variable can stand for. -/
inductive Value where
  /-- Text, which may itself refer to variables. -/
  | text (text : String)
  /-- An integer, written in decimal. -/
  | int (value : Int)
  /-- A truth value, written `1` or `0`. -/
  | bool (value : Bool)
  /-- Values whose texts are joined by single spaces. -/
  | list (items : List Value)
  /-- A nested scope, reached through dotted names. -/
  | scope (ns : Namespace)
  /-- Paths that only the writer of a build file can spell. -/
  | marker (marker : Marker)

/-- Bindings in insertion order over an optional parent. -/
inductive Namespace where
  | mk (bindings : List (String × Value)) (parent : Option Namespace)

end

namespace Value

def ofTexts (texts : List String) : Value := .list (texts.map .text)

mutual

/-- Is this an empty text, or a list of nothing but empty values? -/
def isEmpty : Value → Bool
  | .text s => s.isEmpty
  | .list items => allEmpty items
  | .int _ | .bool _ | .scope _ | .marker _ => false

def allEmpty : List Value → Bool
  | [] => true
  | v :: rest => v.isEmpty && allEmpty rest

end

mutual

/-- The value's text. A list leaves out the items without text; a namespace has none to give. -/
def render : Value → Except BuildError String
  | .text s => .ok s
  | .int n => .ok (toString n)
  | .bool b => .ok (if b then "1" else "0")
  | .marker m => .ok (String.singleton m.sentinel)
  | .list items => do return " ".intercalate (← renderItems items)
  | .scope _ => .error (.substitution .namespaceText)

/-- The texts of the items that have one. -/
def renderItems : List Value → Except BuildError (List String)
  | [] => .ok []
  | v :: rest => do
    let text ← v.render
    let texts ← renderItems rest
    return if text.isEmpty then texts else text :: texts

end

mutual

/-- The texts of the value's scalars, nested lists opened and empty texts left out. -/
def flatten : Value → Except BuildError (List String)
  | .list items => flattenItems items
  | v => do
    let text ← v.render
    return if text.isEmpty then [] else [text]

/-- The scalars' texts of values in a row. -/
def flattenItems : List Value → Except BuildError (List String)
  | [] => .ok []
  | v :: rest => do
    let first ← v.flatten
    return first ++ (← flattenItems rest)

end

end Value

/-- The dot-separated segments of a name. -/
def segments (name : String) : List String := (name.toList.splitOn '.').map .ofList

def dotted (path : List String) : String := ".".intercalate path

namespace Namespace

/-- The bindings of the namespace itself. -/
def bindings : Namespace → List (String × Value)
  | .mk bindings _ => bindings

/-- The namespace that unbound names are looked up in. -/
def parent : Namespace → Option Namespace
  | .mk _ parent => parent

/-- No bindings over an optional parent. -/
def empty (parent : Option Namespace) : Namespace := .mk [] parent

/-- The namespace of the given bindings. Their keys are taken whole, dots included. -/
def ofPairs (pairs : List (String × Value)) : Namespace := .mk (Assoc.ofPairs pairs) none

mutual

/-- The value that a path of segments leads to. -/
def find : Namespace → List String → Option Value
  | .mk bindings parent, path =>
    match findBinding bindings path with
    | some v => some v
    | none => findAbove parent path

/-- Follow a path through bindings alone. -/
def findBinding : List (String × Value) → List String → Option Value
  | [], _ => none
  | (key, value) :: rest, path =>
    match path with
    | [] => none
    | head :: tail => if key = head then findInside value tail else findBinding rest path

/-- Follow the rest of a path into a value. -/
def findInside : Value → List String → Option Value
  | v, [] => some v
  | .scope ns, head :: tail => ns.find (head :: tail)
  | .text _, _ :: _ | .int _, _ :: _ | .bool _, _ :: _ | .list _, _ :: _ | .marker _, _ :: _ => none

/-- Follow a path in the parent, if there is one. -/
def findAbove : Option Namespace → List String → Option Value
  | none, _ => none
  | some ns, path => ns.find path

end

/-- The value of a dotted name. -/
def get (ns : Namespace) (name : String) : Option Value := ns.find (segments name)

def contains (ns : Namespace) (name : String) : Bool := (ns.get name).isSome

/-- Bind a single segment in the namespace itself. -/
def put (ns : Namespace) (key : String) (value : Value) : Namespace :=
  .mk (Assoc.put key value ns.bindings) ns.parent

/-- Bind the path `head :: rest`, making the nested namespaces that are missing.
A path that leads through any other value is refused. -/
def bindPath (value : Value) : Namespace → String → List String → Except BuildError Namespace
  | ns, head, [] => .ok (ns.put head value)
  | ns, head, next :: rest =>
    match ns.bindings.lookup head with
    | none => do return ns.put head (.scope (← bindPath value (.empty none) next rest))
    | some (.scope inner) => do return ns.put head (.scope (← bindPath value inner next rest))
    | some _ => .error (.substitution (.boundThroughValue (dotted (head :: next :: rest)) head))

def insert (ns : Namespace) (name : String) (value : Value) : Except BuildError Namespace :=
  match segments name with
  | [] => .ok ns
  | head :: rest => bindPath value ns head rest

/-- Bind dotted names over `base`, which answers for all others. -/
def layer (base : Namespace) (overrides : List (String × Value)) : Except BuildError Namespace :=
  overrides.foldlM (fun ns (name, value) => ns.insert name value) (.empty (some base))

/-! ### The names that can be found

There are finitely many, which is why expansion ends. -/

mutual

/-- Every path that may lead to a value. -/
def paths : Namespace → List (List String)
  | .mk bindings parent => bindingPaths bindings ++ parentPaths parent

/-- The paths through bindings. -/
def bindingPaths : List (String × Value) → List (List String)
  | [] => []
  | (key, value) :: rest => [key] :: (innerPaths value).map (key :: ·) ++ bindingPaths rest

/-- The paths inside a value. -/
def innerPaths : Value → List (List String)
  | .scope ns => ns.paths
  | .text _ | .int _ | .bool _ | .list _ | .marker _ => []

/-- The paths in a parent. -/
def parentPaths : Option Namespace → List (List String)
  | none => []
  | some ns => ns.paths

end

mutual

/-- A path that leads to a value is one of the namespace's paths. -/
theorem mem_paths_of_find {ns : Namespace} {path : List String} {v : Value}
    (h : ns.find path = some v) : path ∈ ns.paths := by
  match ns with
  | .mk bindings parent =>
    rw [find] at h
    rw [paths, List.mem_append]
    split at h
    · next found => exact .inl (mem_bindingPaths_of_find found)
    · exact .inr (mem_parentPaths_of_find h)

theorem mem_bindingPaths_of_find {bindings : List (String × Value)} {path : List String}
    {v : Value} (h : findBinding bindings path = some v) : path ∈ bindingPaths bindings := by
  match bindings, path with
  | [], _ => simp [findBinding] at h
  | _ :: _, [] => simp [findBinding] at h
  | (key, value) :: rest, head :: tail =>
    rw [findBinding] at h
    rw [bindingPaths]
    split at h
    · next same =>
      subst same
      match tail with
      | [] => simp
      | next :: more =>
        have := mem_innerPaths_of_find h
        simp [this]
    · have := mem_bindingPaths_of_find h
      simp [this]

theorem mem_innerPaths_of_find {value : Value} {head : String} {tail : List String} {v : Value}
    (h : findInside value (head :: tail) = some v) : head :: tail ∈ innerPaths value := by
  match value with
  | .scope ns => exact mem_paths_of_find (by simpa [findInside] using h)
  | .text _ | .int _ | .bool _ | .list _ | .marker _ => simp [findInside] at h

theorem mem_parentPaths_of_find {parent : Option Namespace} {path : List String} {v : Value}
    (h : findAbove parent path = some v) : path ∈ parentPaths parent := by
  match parent with
  | none => simp [findAbove] at h
  | some ns => exact mem_paths_of_find (by simpa [findAbove] using h)

end

end Namespace

end BuildPlan
