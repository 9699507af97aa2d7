import BuildPlan.Yaml.Block
import BuildPlan.Yaml.Plain
import BuildPlan.Yaml.Property
import BuildPlan.Yaml.Quoted
import BuildPlan.Yaml.Token.State

/-!
# BuildPlan.Yaml.Token.Scan

Splitting a text into tokens. Every step reads one mark or scalar and what has to be
told of the nesting before it. A key's own token comes in front of the scalar that
turns out to be one, so a token is settled only when no key can start before it any
more.
-/

namespace BuildPlan.Yaml

namespace ScanState

/-! ### The text's structure -/

def finish (state : ScanState) : Except Problem ScanState := do
  let state ← state.dropKey
  return ((state.closeLevels (-1)).push .endOfText)

/-- A directive, which ends the document before it. -/
def readDirective (state : ScanState) : Except Problem ScanState := do
  let state ← (state.closeLevels (-1)).dropKey
  let (directive, after) ← Yaml.readDirective state.cursor
  return { state with cursor := after, keyAllowed := false }.push (.directive directive)

/-- A marker of the start or the end of a document. -/
def readMarker (token : Token) (state : ScanState) : Except Problem ScanState := do
  let state ← (state.closeLevels (-1)).dropKey
  return { state with cursor := state.cursor.pass 3, keyAllowed := false }.push token

/-- A marker of the end of a document, which stands alone on its line. -/
def readEndMarker (state : ScanState) : Except Problem ScanState := do
  let state ← (← state.readMarker .documentEnd).skipMark 0
  if startsBreak state.cursor.rest then return state
  else .error (.unexpected (state.cursor.rest.headD ' '))

/-! ### Flow collections -/

/-- The bracket or brace at the start of a flow collection. It may start a key. -/
def openFlow (sequence : Bool) (state : ScanState) : Except Problem ScanState := do
  let state ← state.saveKey.openSpare.enter
  let state := { state with
    keyAllowed := true
    keyed := state.keyed || !sequence
    pairs := if sequence then none :: state.pairs else state.pairs }
  let state ← state.skipMark 1
  return state.push (if sequence then .flowSequenceStart else .flowMappingStart)

/-- The bracket or brace at the end of a flow collection. A value may touch it. -/
def closeFlow (sequence : Bool) (state : ScanState) : Except Problem ScanState := do
  let state ← state.dropKey
  let state :=
    if sequence then
      let closed := state.closePair state.depth
      { closed with pairs := closed.pairs.drop 1 }
    else state
  let state ← { state.leave with keyAllowed := false }.skipMark 1
  let touching := if state.inFlow then state.cursor.index else state.touching
  return { state with touching := touching }.push
    (if sequence then .flowSequenceEnd else .flowMappingEnd)

/-- The comma between two entries of a flow collection. -/
def readComma (state : ScanState) : Except Problem ScanState := do
  let state ← state.dropKey
  let state ← ({ state with keyAllowed := true }.closePair state.depth).skipMark 1
  return state.push .flowEntry

/-! ### Entries, keys and values -/

/-- The dash before an entry of a block sequence. -/
def readDash (state : ScanState) : Except Problem ScanState := do
  let column := state.cursor.column
  if state.inFlow || !state.keyAllowed then .error .placement
  if state.lastStartsLine && column == 0 && 0 ≤ state.indent then .error .indentation
  let spacing ← (state.cursor.pass 1).skipBlanks
  let after := spacing.after
  let opened := { state with cursor := after }.openLevel column state.count .blockSequenceStart
  if spacing.tabs && after.rest.head? == some '-' && startsBlank (after.rest.drop 1) then
    .error .tab
  let opened :=
    if after.rest.head?.any fun c => isBreak c || isFlowPunctuation c then opened.openSpare
    else opened
  let state ← opened.dropKey
  return { state with keyAllowed := true }.push .blockEntry

/-- Skip what separates the mark of a key from the key. There must be a blank or a
break, and no tab. -/
def skipKeyGap (separated : Bool) (cursor : Cursor) : Except Problem Cursor :=
  match _h : cursor.rest with
  | [] => if separated then .ok cursor else .error .placement
  | c :: rest =>
    if c = ' ' then skipKeyGap true (cursor.skip 1)
    else if isBreak c then skipKeyGap true cursor.newline
    else if c = '#' then
      skipKeyGap separated (cursor.skip (1 + (rest.takeWhile (!isBreak ·)).length))
    else if c = '\t' then .error .tab
    else if separated then .ok cursor
    else .error .placement
termination_by cursor.rest.length
decreasing_by
  all_goals first
    | exact Cursor.length_newline_lt (by simp [*])
    | exact Cursor.length_skip_lt (by simp [*]) (by omega)

/-- The question mark before a key of any form. -/
def readKeyMark (state : ScanState) : Except Problem ScanState := do
  if !state.inFlow && !state.keyAllowed then .error .placement
  let opened :=
    if state.inFlow then { state with keyed := true }
    else state.openLevel state.cursor.column state.count .blockMappingStart
  let state ← opened.dropKey
  let cursor ← skipKeyGap false (state.cursor.pass 1)
  return { state with cursor := cursor, keyAllowed := !state.inFlow }.push .key

/-- The place behind a colon. A tab cannot be all that separates a value from it. -/
def skipColon (cursor : Cursor) : Except Problem Cursor :=
  let next := cursor.pass 1
  if next.rest.head? = some '\t' then do
    let spacing ← next.skipBlanks
    if !spacing.spaces && spacing.after.rest.head?.any isNameCharacter then .error .tab
    else return spacing.after
  else .ok next

/-- The colon before a value. The key before it may have no mark of its own. -/
def readColon (state : ScanState) : Except Problem ScanState := do
  let start := state.cursor
  let paired := !state.pairs.isEmpty && !state.keyed
  let state := { state with
    cursor := ← skipColon start
    pairs := if paired then some state.depth :: state.pairs.drop 1 else state.pairs }
  match state.key with
  | some key =>
    if paired && key.line < start.line then .error .placement
    let state := state.insert key.token .key
    let state := if paired then state.insert key.token .flowMappingStart else state
    let state := (state.openLevel key.column key.token .blockMappingStart).openSpare
    return { state with key := none, keyAllowed := false }.push .value
  | none =>
    let state := if paired then state.push .flowMappingStart else state
    if !state.inFlow && !state.keyAllowed then .error .placement
    let state := (state.openLevel start.column state.count .blockMappingStart).openSpare
    return { state with keyAllowed := !state.inFlow }.push .value

/-- A colon inside a flow collection with no blank behind it. What follows can be a
collection only if the key touches the colon too. -/
def readFlowColon (state : ScanState) : Except Problem ScanState :=
  let opens := (state.cursor.rest.drop 1).head?.any fun c => c == '[' || c == '{'
  if opens && state.cursor.index != state.touching then .error (.unexpected ':')
  else state.readColon

/-! ### Nodes -/

/-- The anchor or tag at the cursor, or the reference to an anchor. It may start a key. -/
def readProperty (state : ScanState) : Except Problem ScanState := do
  let saved := state.saveKey
  let (token, after) ←
    match state.cursor.rest.head? with
    | some '&' => do
      let (name, after) ← readAnchor state.cursor
      pure (Token.anchor name, after)
    | some '*' => do
      let (name, after) ← readAnchor state.cursor
      pure (Token.reference name, after)
    | _ => readTag state.inFlow state.cursor
  let pushed := { saved with cursor := after, keyAllowed := false }.push token
  return { pushed with lastStartsLine := token.isProperty && state.cursor.column == 0 }

/-- A plain scalar. It may be a key. After one that ends with a line, a key may start. -/
def readPlain (state : ScanState) : Except Problem ScanState := do
  let saved := state.saveKey.closeSpares
  let (text, after) ← Yaml.readPlain state.inFlow saved.indent state.cursor
  return { saved with cursor := after, keyAllowed := after.leading }.push (.scalar .plain text)

/-- A quoted scalar. It may be a key, and then a value may touch the colon. -/
def readQuoted (quotes : Quotes) (state : ScanState) : Except Problem ScanState := do
  let saved := state.saveKey
  let (text, after) ← Yaml.readQuoted quotes state.inFlow state.indent state.cursor
  let state ← { saved with cursor := after, keyAllowed := false }.skipGap
  return { state with touching := state.cursor.index }.push (.scalar .quoted text)

def readBlock (folded : Bool) (state : ScanState) : Except Problem ScanState := do
  let saved := state.saveKey.closeSpares
  let (text, after) ← Yaml.readBlock folded saved.indent (state.cursor.pass 1)
  return { saved with cursor := after, keyAllowed := true }.push (.scalar .block text)

/-! ### Steps -/

/-- The token whose first character is `c`. -/
def readToken (state : ScanState) (c : Char) (rest : List Char) : Except Problem ScanState :=
  let blank := startsBlank rest
  if c = '[' then state.openFlow true
  else if c = '{' then state.openFlow false
  else if c = ']' then state.closeFlow true
  else if c = '}' then state.closeFlow false
  else if c = ',' then state.readComma
  else if c = '-' ∧ blank then state.readDash
  else if c = '?' ∧ blank then state.readKeyMark
  else if c = ':' ∧ blank then state.readColon
  else if c = ':' ∧ state.inFlow ∧ (rest.head?.any isFlowPunctuation
      ∨ state.cursor.index = state.touching) then state.readFlowColon
  else if ['&', '*', '!'].contains c then state.readProperty
  else if c = '|' ∧ ¬state.inFlow then state.readBlock false
  else if c = '>' ∧ ¬state.inFlow then state.readBlock true
  else if c = '\'' then state.readQuoted .single
  else if c = '"' then state.readQuoted .double
  else if ['%', '@', '\x60'].contains c then .error (.unexpected c)
  else state.readPlain

def step (state : ScanState) : Except Problem ScanState := do
  let state ← (← state.skipGap).dropStaleKey
  let state := state.closeLevels state.cursor.column
  match state.cursor.rest with
  | [] => state.finish
  | c :: rest =>
    if state.cursor.column = 0 ∧ c = '%' then state.readDirective
    else if state.cursor.column = 0 ∧ startsMarker '-' (c :: rest) then
      state.readMarker .documentStart
    else if state.cursor.column = 0 ∧ startsMarker '.' (c :: rest) then state.readEndMarker
    else if state.cursor.column < state.indent then .error .indentation
    else state.readToken c rest

/-- The tokens before which no key can start any more, in their order. -/
def settled (state : ScanState) : List Token :=
  let keys := ((state.dropStaleKey.toOption.getD state).key :: state.outerKeys).filterMap id
  let count := (keys.map (·.token)).foldl min state.count
  (state.tokens.drop (state.count - count)).reverse

/-- All tokens from a state on. Every step reads a character, so the length of the
text bounds their number. -/
def run : Nat → ScanState → List Token
  | 0, state => state.settled
  | fuel + 1, state =>
    match state.step with
    | .error problem => state.settled ++ [.broken problem]
    | .ok next =>
      if next.tokens.head? = some .endOfText then next.tokens.reverse else run fuel next

end ScanState

def Token.scan (text : List Char) : List Token :=
  ScanState.run (text.length + 1) { cursor := ⟨text, 0, 0, 0, true⟩ }

end BuildPlan.Yaml
