import BuildPlan.Template.Reference
import BuildPlan.Template.Value
import BuildPlan.Text.Blank
import BuildPlan.Text.Replace

/-!
# BuildPlan.Template.Expand

Expansion of templates. Every reference is replaced by the expansion of its
value; a variable that is reached again while its own value is being expanded
is an error. `expandPieces` says this directly, by recursion. `run` computes it
with a stack of partly expanded values, the innermost one first, whose names
are the references under way.

Both end because each nested value has a name that is not yet under way and a
namespace has finitely many names. An escaped dollar travels as NUL, so that no
later reading of the text mistakes it for the start of a reference.
-/

namespace BuildPlan.Template

/-- Stands for an escaped dollar until expansion is over. -/
def dollarStandIn : Char := '\x00'

/-- Put the escaped dollars back. -/
def restoreDollars (text : String) : String :=
  .ofList (text.toList.map fun c => if c = dollarStandIn then '$' else c)

/-- The text of the variable `name`, which is reached through the variables of `chain`. -/
def referenceText (ns : Namespace) (chain : List String) (name : String) :
    Except BuildError String :=
  if name ∈ chain then .error (.circularReference (chain ++ [name]))
  else
    match ns.get name with
    | none => .error (.missingVariable name)
    | some (.scope _) => .error (.substitution (.namespaceReference name))
    | some value => value.render

/-! ### Names that are still free to be reached -/

/-- The number of paths of `ns` that no name of the chain spells. -/
def freePaths (ns : Namespace) (chain : List String) : Nat :=
  (ns.paths.filter fun path => path ∉ chain.map segments).length

theorem segments_injective {a b : String} (h : segments a = segments b) : a = b := by
  have inj : ∀ {l₁ l₂ : List (List Char)}, l₁.map String.ofList = l₂.map String.ofList → l₁ = l₂ :=
    fun {l₁ l₂} e => by
      have := congrArg (List.map String.toList) e
      simpa [List.map_map, Function.comp_def] using this
  have := congrArg (['.'].intercalate) (inj h)
  rw [List.intercalate_splitOn, List.intercalate_splitOn] at this
  exact String.toList_inj.mp this

theorem get_of_referenceText {ns : Namespace} {chain : List String} {name text : String}
    (h : referenceText ns chain name = .ok text) :
    name ∉ chain ∧ ∃ value, ns.get name = some value := by
  unfold referenceText at h
  split at h
  · cases h
  · next fresh =>
    split at h
    · cases h
    · cases h
    · next value _ found => exact ⟨fresh, value, found⟩

theorem freePaths_lt {ns : Namespace} {chain : List String} {name text : String}
    (h : referenceText ns chain name = .ok text) :
    freePaths ns (chain ++ [name]) < freePaths ns chain := by
  obtain ⟨fresh, value, found⟩ := get_of_referenceText h
  have fresh' : segments name ∉ chain.map segments := by
    intro member
    obtain ⟨other, there, same⟩ := List.mem_map.mp member
    exact fresh (segments_injective same ▸ there)
  have split : (ns.paths.filter fun path => path ∉ (chain ++ [name]).map segments)
      = (ns.paths.filter fun path => path ∉ chain.map segments).filter (· ≠ segments name) := by
    rw [List.filter_filter]
    congr 1
    funext path
    by_cases hn : path = segments name <;> simp [hn]
  unfold freePaths
  rw [split]
  refine List.length_filter_lt_length_iff_exists.mpr ⟨segments name, ?_, by simp⟩
  simpa using ⟨Namespace.mem_paths_of_find found, fun other there same =>
    fresh' (List.mem_map.mpr ⟨other, there, same⟩)⟩

/-! ### Expansion by recursion -/

/-- The expansion of a template's pieces, reached through the variables of `chain`. -/
def expandPieces (ns : Namespace) (chain : List String) : List Piece → Except BuildError String
  | [] => .ok ""
  | .char c :: rest => do return String.singleton c ++ (← expandPieces ns chain rest)
  | .dollar :: rest => do return String.singleton dollarStandIn ++ (← expandPieces ns chain rest)
  | .reference name _ :: rest =>
    match _found : referenceText ns chain name with
    | .error e => .error e
    | .ok text => do
      let inner ← expandPieces ns (chain ++ [name]) (pieces text.toList)
      return inner ++ (← expandPieces ns chain rest)
termination_by ps => (freePaths ns chain, ps.length)
decreasing_by
  · exact Prod.Lex.right _ (by simp)
  · exact Prod.Lex.right _ (by simp)
  · exact Prod.Lex.left _ _ (freePaths_lt _found)
  · exact Prod.Lex.right _ (by simp)

/-! ### Expansion with a stack -/

/-- A template, or a variable's value, that is partly expanded. -/
structure Frame where
  /-- What is left to expand. -/
  rest : List Piece
  /-- What has been expanded. -/
  out : String
  /-- The variable whose value this is; the template itself has none. -/
  name : Option String
  deriving Repr

/-- The variables under way in a stack of frames, outermost first. -/
def chainOf : List Frame → List String
  | [] => []
  | frame :: below => chainOf below ++ frame.name.toList

/-- The number of steps that expanding the pieces takes. -/
def cost (ns : Namespace) (chain : List String) : List Piece → Nat
  | [] => 1
  | .char _ :: rest => 1 + cost ns chain rest
  | .dollar :: rest => 1 + cost ns chain rest
  | .reference name _ :: rest =>
    match _found : referenceText ns chain name with
    | .error _ => 1
    | .ok text => 1 + cost ns (chain ++ [name]) (pieces text.toList) + cost ns chain rest
termination_by ps => (freePaths ns chain, ps.length)
decreasing_by
  · exact Prod.Lex.right _ (by simp)
  · exact Prod.Lex.right _ (by simp)
  · exact Prod.Lex.left _ _ (freePaths_lt _found)
  · exact Prod.Lex.right _ (by simp)

/-- The number of steps that finishing a stack of frames takes. -/
def stackCost (ns : Namespace) : List Frame → Nat
  | [] => 0
  | frame :: below => cost ns (chainOf (frame :: below)) frame.rest + stackCost ns below

theorem cost_reference {ns : Namespace} {chain : List String} {name text : String} {braced : Bool}
    {rest : List Piece} (h : referenceText ns chain name = .ok text) :
    cost ns chain (.reference name braced :: rest)
      = 1 + cost ns (chain ++ [name]) (pieces text.toList) + cost ns chain rest := by
  rw [cost]
  split
  · next found => rw [h] at found; cases found
  · next found => rw [h] at found; cases found; rfl

/-- Finish the frame `current` and the frames below it. -/
def run (ns : Namespace) (current : Frame) (below : List Frame) : Except BuildError String :=
  match _rest : current.rest with
  | [] =>
    match below with
    | [] => .ok current.out
    | caller :: deeper => run ns { caller with out := caller.out ++ current.out } deeper
  | .char c :: rest => run ns { current with rest, out := current.out.push c } below
  | .dollar :: rest => run ns { current with rest, out := current.out.push dollarStandIn } below
  | .reference name _ :: rest =>
    match _found : referenceText ns (chainOf (current :: below)) name with
    | .error e => .error e
    | .ok text =>
      if '$' ∈ text.toList then
        run ns ⟨pieces text.toList, "", some name⟩ ({ current with rest } :: below)
      else run ns { current with rest, out := current.out ++ text } below
termination_by stackCost ns (current :: below)
decreasing_by
  · simp only [stackCost, chainOf, _rest]
    rw [cost]
    omega
  · simp only [stackCost, chainOf, _rest]
    rw [cost]
    omega
  · simp only [stackCost, chainOf, _rest]
    rw [cost]
    omega
  · simp only [chainOf] at _found
    simp only [stackCost, chainOf, _rest, Option.toList_some]
    rw [cost_reference _found]
    omega
  · simp only [chainOf] at _found
    simp only [stackCost, chainOf, _rest]
    rw [cost_reference _found]
    omega

/-- Expand a template, escaped dollars still standing for themselves as NUL. -/
def expand (template : String) (ns : Namespace) : Except BuildError String :=
  run ns ⟨pieces template.toList, "", none⟩ []

/-! ### The expansions offered to callers -/

/-- Expand a template into text. -/
def subst (template : String) (ns : Namespace) : Except BuildError String :=
  return restoreDollars (← expand template ns)

/-- Expand a template and cut the result into words. -/
def substWords (template : String) (ns : Namespace) : Except BuildError (List String) := do
  let expanded ← expand template ns
  return (Text.words expanded.toList).map fun word => restoreDollars (.ofList word)

/-- Expand one item of a list template into at most one argument. -/
def substArgument (item : Value) (ns : Namespace) : Except BuildError (List String) := do
  let expanded ← subst (← item.render) ns
  return if expanded.isEmpty then [] else [expanded]

/-- Expand several items in turn. -/
def substArguments (items : List Value) (ns : Namespace) : Except BuildError (List String) :=
  items.foldlM (fun words item => return words ++ (← substArgument item ns)) []

/-- Expand an item of a list template. An item that is one reference to a list
gives one argument for each of that list's items. -/
def substItem (item : Value) (ns : Namespace) : Except BuildError (List String) := do
  match (wholeReference (← item.render)).bind ns.get with
  | some (.list values) => substArguments values ns
  | _ => substArgument item ns

/-- Expand a command template into tokens. A text is cut at blanks; a list keeps
its items apart. -/
def substTokens (template : Value) (ns : Namespace) : Except BuildError (List Token) := do
  let words ← match template with
    | .list items => items.foldlM (fun words item => return words ++ (← substItem item ns)) []
    | other => substWords (← other.render) ns
  return words.map Token.parse

/-- Write a text so that expansion gives it back. -/
def escape (text : String) : String := Text.doubleDollars text

end BuildPlan.Template
