import BuildPlan.Assoc
import BuildPlan.Yaml.Token

/-!
# BuildPlan.Yaml.Node

What a YAML document describes: scalars, sequences and mappings whose keys are
texts. A scalar remembers how it was written, because only a plain one can mean
anything but text. A mapping may take over the entries of others through merge keys.
-/

namespace BuildPlan.Yaml

/-- The key of an entry. -/
inductive Key
  | named (text : String)
  /-- The plain key `<<`, whose value holds entries to take over. -/
  | merge
  deriving DecidableEq, Repr

/-- A node of a document. -/
inductive Node
  | scalar (style : ScalarStyle) (text : String)
  | sequence (items : List Node)
  | mapping (entries : List (Key × Node))
  deriving Inhabited

namespace Node

/-- The node that stands where nothing was written. -/
def absent : Node := .scalar .plain "~"

def isNull : Node → Bool
  | .scalar .plain text => ["", "~", "null"].contains text.toLower
  | _ => false

/-- The key that a node is. -/
def key : Node → Except Problem Key
  | .scalar .plain "<<" => .ok .merge
  | .scalar _ text => .ok (.named text)
  | .sequence _ | .mapping _ => .error .collectionKey

/-! ### Merging -/

/-- The entries with named keys. -/
def ownEntries (entries : List (Key × Node)) : List (String × Node) :=
  entries.filterMap fun
    | (.named key, value) => some (key, value)
    | (.merge, _) => none

mutual

/-- The entries that the value of a merge key offers. Those of a mapping come before
what it merges itself; of several mappings the last comes first. -/
def offered : Node → Except Problem (List (String × Node))
  | .scalar style text =>
    if (Node.scalar style text).isNull then .ok [] else .error .mergeValue
  | .sequence items => offeredByAll items
  | .mapping entries => do return ownEntries entries ++ (← offeredByMerges entries)

/-- What several nodes offer, the last node first. -/
def offeredByAll : List Node → Except Problem (List (String × Node))
  | [] => .ok []
  | node :: rest => do
    let first ← offered node
    return (← offeredByAll rest) ++ first

/-- What the merge keys of a mapping offer, the last key first. -/
def offeredByMerges : List (Key × Node) → Except Problem (List (String × Node))
  | [] => .ok []
  | (.named _, _) :: rest => offeredByMerges rest
  | (.merge, value) :: rest => do
    let first ← offered value
    return (← offeredByMerges rest) ++ first

end

/-- The first key that is bound twice. -/
def repeatedKey? : List (String × Node) → Option String
  | [] => none
  | (key, _) :: rest => if Assoc.has key rest then some key else repeatedKey? rest

/-- Append the entries whose keys are not bound yet. -/
def takeOver (entries offers : List (String × Node)) : List (String × Node) :=
  offers.foldl (fun entries (key, value) =>
    if Assoc.has key entries then entries else entries ++ [(key, value)]) entries

/-- The entries of a mapping: its own, whose keys must differ, and behind them those
that it takes over because it has no such keys. -/
def merged (entries : List (Key × Node)) : Except Problem (List (String × Node)) :=
  let own := ownEntries entries
  match repeatedKey? own with
  | some key => .error (.duplicateKey key)
  | none => do return takeOver own (← offeredByMerges entries)

end Node

end BuildPlan.Yaml
