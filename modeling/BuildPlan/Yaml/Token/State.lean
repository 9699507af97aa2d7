import BuildPlan.Yaml.Cursor
import BuildPlan.Yaml.Token

/-!
# BuildPlan.Yaml.Token.State

What the tokens read so far mean for those that follow: the columns of the open
blocks, the brackets around the place, and where a key may have started whose
colon is still to come. Such a key becomes known late, so its token is put in
front of tokens that were read before.
-/

namespace BuildPlan.Yaml

/-- A column that the content below must not stand left of. -/
structure Level where
  column : Int
  /-- Is it the column of a block collection? Otherwise it only keeps the next node
  to the right of the collection around it. -/
  collection : Bool
  deriving DecidableEq, Repr

/-- A place where a key may start. -/
structure KeyStart where
  /-- The number of tokens before it. -/
  token : Nat
  index : Nat
  line : Nat
  column : Nat
  /-- Can nothing but a key start here? -/
  needed : Bool
  deriving DecidableEq, Repr

/-- The state between two tokens. -/
structure ScanState where
  cursor : Cursor
  /-- The tokens before the cursor, the last one first. -/
  tokens : List Token := []
  count : Nat := 0
  /-- The last of these tokens starts a line. -/
  lastStartsLine : Bool := false
  /-- The levels around the cursor, the innermost first. -/
  levels : List Level := []
  /-- May a key start here? -/
  keyAllowed : Bool := true
  /-- Where the innermost collection may have an unfinished key. -/
  key : Option KeyStart := none
  /-- The same for the collections around it, one for each pair of brackets. -/
  outerKeys : List (Option KeyStart) := []
  /-- The index at which a colon may touch what follows it. -/
  touching : Nat := 0
  /-- Do entries of the innermost brackets have keys of their own? -/
  keyed : Bool := false
  /-- For each flow sequence around the cursor: the depth of the entry being read, when
  it is a mapping without braces. -/
  pairs : List (Option Nat) := []
  deriving Repr

namespace ScanState

/-! ### Observations -/

def depth (state : ScanState) : Nat := state.outerKeys.length

def inFlow (state : ScanState) : Bool := 0 < state.depth

/-- The innermost column that content must not stand left of. -/
def indent (state : ScanState) : Int := (state.levels.head?.map (·.column)).getD (-1)

/-- Is the innermost level that of a block collection? -/
def inCollection (state : ScanState) : Bool := state.levels.head?.any (·.collection)

/-! ### Tokens -/

def push (token : Token) (state : ScanState) : ScanState :=
  { state with tokens := token :: state.tokens, count := state.count + 1, lastStartsLine := false }

/-- Add a token that has `position` tokens before it. -/
def insert (position : Nat) (token : Token) (state : ScanState) : ScanState :=
  let later := state.count - position
  { state with
    tokens := state.tokens.take later ++ token :: state.tokens.drop later
    count := state.count + 1 }

/-! ### Levels -/

/-- Leave the levels right of a column. Brackets hide the columns. -/
def closeLevels (column : Int) (state : ScanState) : ScanState :=
  if state.inFlow then state
  else
    let closed := state.levels.takeWhile (column < ·.column)
    let left := { state with levels := state.levels.dropWhile (column < ·.column) }
    (closed.filter (·.collection)).foldl (fun state _ => state.push .blockEnd) left

/-- Leave the levels that are no collections. -/
def closeSpares (state : ScanState) : ScanState :=
  { state with levels := state.levels.dropWhile (!·.collection) }

/-- Let a block collection start at a column, unless one stands there already. Its
first token has `position` tokens before it. -/
def openLevel (column : Int) (position : Nat) (token : Token) (state : ScanState) : ScanState :=
  if state.inFlow then state
  else
    let state :=
      if state.indent ≤ column ∧ ¬state.inCollection then
        { state with levels := state.levels.drop 1 }
      else state
    if state.indent < column then
      { state with levels := ⟨column, true⟩ :: state.levels }.insert position token
    else state

/-- Keep the next node to the right of the innermost collection. -/
def openSpare (state : ScanState) : ScanState :=
  if !state.inFlow && state.inCollection then
    { state with levels := ⟨state.indent + 1, false⟩ :: state.levels }
  else state

/-! ### Keys -/

/-- Remember that a key may start at the cursor. -/
def saveKey (state : ScanState) : ScanState :=
  if state.keyAllowed then
    { state with
      key := some {
        token := state.count
        index := state.cursor.index
        line := state.cursor.line
        column := state.cursor.column
        needed := !state.inFlow && state.inCollection && state.indent == state.cursor.column } }
  else state

/-- Is there the start of a key that has to become one? -/
def needsKey (state : ScanState) : Bool := state.key.any (·.needed)

/-- Give up the key of the innermost collection. -/
def dropKey (state : ScanState) : Except Problem ScanState :=
  if state.needsKey then .error .bareKey else .ok { state with key := none }

/-- The greatest distance between the start of a key and its colon. -/
def keyReach : Nat := 1024

/-- Give up a key that stands on an earlier line or too far back. Inside brackets a
key may be as long as it likes. -/
def dropStaleKey (state : ScanState) : Except Problem ScanState :=
  let stale := state.key.any fun key =>
    key.line < state.cursor.line || key.index + keyReach < state.cursor.index
  if !state.inFlow && stale then state.dropKey else .ok state

/-! ### Brackets -/

/-- The greatest number of brackets around a place. -/
def maxDepth : Nat := 255

def enter (state : ScanState) : Except Problem ScanState :=
  if state.depth < maxDepth then
    .ok { state with outerKeys := state.key :: state.outerKeys, key := none }
  else .error .depth

def leave (state : ScanState) : ScanState :=
  match state.outerKeys with
  | [] => state
  | key :: outer => { state with key := key, outerKeys := outer }

/-- End the mapping without braces that is an entry of a flow sequence at a depth. -/
def closePair (depth : Nat) (state : ScanState) : ScanState :=
  if state.pairs.head? = some (some depth) then
    { state with keyed := false, pairs := none :: state.pairs.drop 1 }.push .flowMappingEnd
  else state

/-! ### Gaps -/

/-- Skip what separates tokens. In a block, a key may start after a break. -/
def skipGap (state : ScanState) : Except Problem ScanState := do
  let limit := if state.levels.isEmpty then none else some state.indent
  let (cursor, broken) ← state.cursor.skipGap limit false
  return { state with
    cursor := cursor
    keyAllowed := state.keyAllowed || broken && !state.inFlow }

/-- The place behind the next characters of content, and the blanks after them. -/
def skipMark (count : Nat) (state : ScanState) : Except Problem ScanState := do
  let spacing ← (state.cursor.pass count).skipBlanks
  return { state with cursor := spacing.after }

end ScanState

end BuildPlan.Yaml
