import BuildPlan.Assoc
import BuildPlan.Yaml.Node
import BuildPlan.Yaml.Token

/-!
# BuildPlan.Yaml.Node.Reader

The node that a list of tokens describes. A node that is left out reads as a plain
null. An anchor names the node behind it, and a reference stands for the last node
with its name. Of the tags, only those for texts change how a scalar is understood.

Every call below another one gets less fuel. Between two calls that read no token
there are at most two others, so the number of tokens bounds their nesting.
-/

namespace BuildPlan.Yaml

/-- The tokens still to read, and what their names mean. -/
structure Feed where
  tokens : List Token
  /-- The nodes with anchors; one that is still being read cannot be used yet. -/
  anchors : List (String × Option Node) := []
  /-- What the handles of tags stand for. -/
  handles : List (String × String) := []

namespace Feed

def head (feed : Feed) : Token := feed.tokens.headD .endOfText

def drop (feed : Feed) : Feed := { feed with tokens := feed.tokens.drop 1 }

/-- A node with a name starts. -/
def openAnchor (name : String) (feed : Feed) : Feed :=
  { feed with anchors := Assoc.put name none feed.anchors }

/-- The node with a name has been read. The name stays with a node inside it that has
the same name, because that one started last. -/
def closeAnchor (name : String) (node : Node) (feed : Feed) : Feed :=
  match (feed.anchors.lookup name).join with
  | none => { feed with anchors := Assoc.put name (some node) feed.anchors }
  | some _ => feed

end Feed

/-- The problem of a token that stands where it does not belong. -/
def Token.misplaced (otherwise : Problem) : Token → Problem
  | .broken problem => problem
  | .endOfText => .unterminated
  | _ => otherwise

/-! ### Properties -/

/-- The full names of the tags for texts. -/
def textTags : List String := ["tag:yaml.org,2002:str", "!"]

/-- The full name of a tag. A handle between two exclamation marks must have a meaning. -/
def tagName (handles : List (String × String)) (handle suffix : String) : Except Problem String :=
  match handles.lookup handle with
  | some meaning => .ok (meaning ++ suffix)
  | none =>
    if handle = "!!" then .ok ("tag:yaml.org,2002:" ++ suffix)
    else if handle = "" ∨ handle = "!" then .ok (handle ++ suffix)
    else .error (.undeclared handle)

/-- What stands before a node. -/
structure Properties where
  anchor : Option String := none
  tag : Option String := none

namespace Properties

/-- Is there nothing before the node? -/
def isEmpty (properties : Properties) : Bool := properties.anchor.isNone && properties.tag.isNone

/-- The style of a scalar with these properties. -/
def style (properties : Properties) (style : ScalarStyle) : ScalarStyle :=
  if properties.tag.any textTags.contains then .quoted else style

/-- At most one anchor and one tag, in either order. -/
def read (feed : Feed) : Except Problem (Properties × Feed) := do
  let fullName := tagName feed.handles
  match feed.tokens with
  | .anchor name :: .tag handle suffix :: rest =>
    return (⟨some name, some (← fullName handle suffix)⟩, { feed with tokens := rest })
  | .tag handle suffix :: .anchor name :: rest =>
    return (⟨some name, some (← fullName handle suffix)⟩, { feed with tokens := rest })
  | .anchor name :: rest => return (⟨some name, none⟩, { feed with tokens := rest })
  | .tag handle suffix :: rest =>
    return (⟨none, some (← fullName handle suffix)⟩, { feed with tokens := rest })
  | _ => return ({}, feed)

end Properties

/-! ### Nodes -/

/-- Where a node may stand. -/
structure Place where
  /-- May the node be a block collection? -/
  block : Bool
  /-- May it be a sequence whose entries stand in the column of the key before them? -/
  hanging : Bool
  deriving DecidableEq, Repr

namespace Place

/-- Inside a flow collection. -/
def flow : Place := ⟨false, false⟩

/-- Behind a dash, or as a whole document. -/
def entry : Place := ⟨true, false⟩

/-- As a key or value of a block mapping. -/
def keyed : Place := ⟨true, true⟩

end Place

mutual

def readNode : Nat → Place → Feed → Except Problem (Node × Feed)
  | 0, _, _ => .error .depth
  | fuel + 1, place, feed =>
    match feed.head with
    | .reference name =>
      match (feed.anchors.lookup name).join with
      | some node => .ok (node, feed.drop)
      | none => .error (.undeclared name)
    | _ => do
      let (properties, start) ← Properties.read feed
      match properties.anchor with
      | none => readContent fuel place properties start
      | some name => do
        let (node, after) ← readContent fuel place properties (start.openAnchor name)
        return (node, after.closeAnchor name node)

/-- A node behind its properties. -/
def readContent : Nat → Place → Properties → Feed → Except Problem (Node × Feed)
  | 0, _, _, _ => .error .depth
  | fuel + 1, place, properties, feed =>
    match feed.head with
    | .scalar style text => .ok (.scalar (properties.style style) text, feed.drop)
    | .flowSequenceStart => do
      let (items, after) ← readFlowItems fuel true feed.drop
      return (.sequence items, after)
    | .flowMappingStart => do
      let (entries, after) ← readFlowEntries fuel true feed.drop
      return (.mapping entries, after)
    | token =>
      if place.block && token == .blockSequenceStart then do
        let (items, after) ← readItems fuel feed.drop
        return (.sequence items, after)
      else if place.block && token == .blockMappingStart then do
        let (entries, after) ← readEntries fuel feed.drop
        return (.mapping entries, after)
      else if place.hanging && token == .blockEntry then do
        let (items, after) ← readHangingItems fuel feed
        return (.sequence items, after)
      else if properties.isEmpty then .error (token.misplaced .missingNode)
      else .ok (.scalar (properties.style .plain) "", feed)

/-- A node that is left out if one of the given tokens follows. -/
def readUnless : Nat → List Token → Place → Feed → Except Problem (Node × Feed)
  | 0, _, _, _ => .error .depth
  | fuel + 1, ends, place, feed =>
    if ends.contains feed.head then .ok (.absent, feed) else readNode fuel place feed

/-- The value of an entry, which is left out if there is no mark for it. -/
def readValue : Nat → List Token → Place → Feed → Except Problem (Node × Feed)
  | 0, _, _, _ => .error .depth
  | fuel + 1, ends, place, feed =>
    if feed.head = .value then readUnless fuel ends place feed.drop else .ok (.absent, feed)

/-- The rest of a block sequence. -/
def readItems : Nat → Feed → Except Problem (List Node × Feed)
  | 0, _ => .error .depth
  | fuel + 1, feed =>
    match feed.head with
    | .blockEnd => .ok ([], feed.drop)
    | .blockEntry => do
      let (item, next) ← readUnless fuel [.blockEntry, .blockEnd] .entry feed.drop
      let (items, after) ← readItems fuel next
      return (item :: items, after)
    | token => .error (token.misplaced .missingEnd)

/-- The rest of a sequence in the column of its key, which ends where no dash follows. -/
def readHangingItems : Nat → Feed → Except Problem (List Node × Feed)
  | 0, _ => .error .depth
  | fuel + 1, feed =>
    if feed.head = .blockEntry then do
      let (item, next) ← readUnless fuel [.blockEntry, .key, .value, .blockEnd] .entry feed.drop
      let (items, after) ← readHangingItems fuel next
      return (item :: items, after)
    else .ok ([], feed)

/-- The rest of a block mapping. -/
def readEntries : Nat → Feed → Except Problem (List (Key × Node) × Feed)
  | 0, _ => .error .depth
  | fuel + 1, feed => do
    let ends := [.key, .value, .blockEnd]
    let token := feed.head
    if token = .blockEnd then return ([], feed.drop)
    let (key, next) ←
      if token = .key then readUnless fuel ends .keyed feed.drop
      else if token = .value then pure (Node.absent, feed)
      else .error (token.misplaced .missingEnd)
    let (value, next) ← readValue fuel ends .keyed next
    let key ← key.key
    let (entries, after) ← readEntries fuel next
    return ((key, value) :: entries, after)

/-- The rest of a flow sequence. A key with a value is a mapping of one entry. -/
def readFlowItems : Nat → Bool → Feed → Except Problem (List Node × Feed)
  | 0, _, _ => .error .depth
  | fuel + 1, first, feed => do
    let comma := feed.head = .flowEntry
    let start := if comma && !first then feed.drop else feed
    let token := start.head
    if token = .flowSequenceEnd then return ([], start.drop)
    if !first && !comma then .error (token.misplaced .missingEnd)
    let (item, next) ←
      if token = .key then do
        let (key, next) ←
          readUnless fuel [.value, .flowEntry, .flowSequenceEnd] .flow start.drop
        let (value, next) ← readValue fuel [.flowEntry, .flowSequenceEnd] .flow next
        pure (Node.mapping [(← key.key, value)], next)
      else readNode fuel .flow start
    let (items, after) ← readFlowItems fuel false next
    return (item :: items, after)

/-- The rest of a flow mapping. An entry without a mark for its key has no value. -/
def readFlowEntries : Nat → Bool → Feed → Except Problem (List (Key × Node) × Feed)
  | 0, _, _ => .error .depth
  | fuel + 1, first, feed => do
    let comma := feed.head = .flowEntry
    let start := if comma && !first then feed.drop else feed
    let token := start.head
    if token = .flowMappingEnd then return ([], start.drop)
    if !first && !comma then .error (token.misplaced .missingEnd)
    let (key, value, next) ←
      if token = .key ∨ token = .value then do
        let (key, next) ←
          if token = .key then
            readUnless fuel [.value, .flowEntry, .flowMappingEnd] .flow start.drop
          else pure (Node.absent, start)
        let (value, next) ← readValue fuel [.flowEntry, .flowMappingEnd] .flow next
        pure (key, value, next)
      else do
        let (key, next) ← readNode fuel .flow start
        pure (key, Node.absent, next)
    let key ← key.key
    let (entries, after) ← readFlowEntries fuel false next
    return ((key, value) :: entries, after)

end

/-- The node at the start of a feed. -/
def Node.read (place : Place) (feed : Feed) : Except Problem (Node × Feed) :=
  readNode (4 * feed.tokens.length + 4) place feed

end BuildPlan.Yaml
