import BuildPlan.Text.Numeral
import BuildPlan.Yaml.Cursor
import BuildPlan.Yaml.Token

/-!
# BuildPlan.Yaml.Property

What may stand before a node or a document: anchors, which name a node for later
references, tags, which name its kind, and directives. A tag consists of a handle,
which stands for the start of a name, and the name's end.
-/

namespace BuildPlan.Yaml

/-! ### Anchors and references -/

/-- A character of an anchor's name. -/
def isAnchorCharacter (c : Char) : Bool :=
  !isSpace c && !isBreak c && !isFlowPunctuation c && c != '\uFEFF'

/-- The name behind the `&` or `*` at the cursor. -/
def readAnchor (cursor : Cursor) : Except Problem (String × Cursor) :=
  let start := cursor.pass 1
  match start.rest.takeWhile isAnchorCharacter with
  | [] => .error .property
  | name => .ok (.ofList name, start.pass name.length)

/-! ### Tags -/

/-- A character of an address. -/
def isAddressCharacter (c : Char) : Bool :=
  c.isAlphanum || "-#;/?:@&=+$,_.!~*'()[]%".toList.contains c

/-- A character of the end of a tag's name. -/
def isTagCharacter (c : Char) : Bool := isAddressCharacter c && !isFlowPunctuation c && c != '!'

/-- The handle at the cursor: a `!`, and a name and another `!` if there are any. -/
def readHandle (cursor : Cursor) : Except Problem (List Char × Cursor) :=
  if cursor.rest.head? = some '!' then
    let name := (cursor.rest.drop 1).takeWhile isNameCharacter
    let after := cursor.pass (1 + name.length)
    if after.rest.head? = some '!' then .ok ('!' :: name ++ ['!'], after.pass 1)
    else .ok ('!' :: name, after)
  else .error .property

/-- The tag at the cursor. -/
def readTag (flow : Bool) (cursor : Cursor) : Except Problem (Token × Cursor) := do
  let (tag, after) ←
    if cursor.rest.take 2 = ['!', '<'] then do
      let start := cursor.pass 2
      let name := start.rest.takeWhile isAddressCharacter
      let after := start.pass name.length
      if after.rest.head? = some '>' then pure (Token.tag "" (.ofList name), after.pass 1)
      else .error .property
    else do
      let (handle, start) ← readHandle cursor
      let suffix := start.rest.takeWhile isTagCharacter
      let after := start.pass suffix.length
      if 2 ≤ handle.length && handle.getLast? == some '!' then
        if suffix.isEmpty then .error .property
        else pure (Token.tag (.ofList handle) (.ofList suffix), after)
      else
        match handle.drop 1 ++ suffix with
        | [] => pure (Token.tag "" "!", after)
        | name => pure (Token.tag "!" (.ofList name), after)
  if startsBlank after.rest || flow && after.rest.head?.any isFlowPunctuation then
    return (tag, after)
  else .error .property

/-! ### Directives -/

def skipSpaces (cursor : Cursor) : Cursor := cursor.skip (cursor.rest.takeWhile isSpace).length

/-- The place behind a number of at most nine digits. -/
def skipNumber (cursor : Cursor) : Except Problem Cursor :=
  let digits := cursor.rest.takeWhile Text.isDigit
  if digits.isEmpty || 9 < digits.length then .error .directive
  else .ok (cursor.pass digits.length)

/-- The version behind the name of its directive. -/
def readVersion (cursor : Cursor) : Except Problem (Directive × Cursor) := do
  let major ← skipNumber (skipSpaces cursor)
  if major.rest.head? = some '.' then return (.version, ← skipNumber (major.pass 1))
  else .error .directive

/-- The handle and its meaning behind the name of their directive. -/
def readHandleMeaning (cursor : Cursor) : Except Problem (Directive × Cursor) := do
  let (handle, next) ← readHandle (skipSpaces cursor)
  if handle.getLast? != some '!' then .error .directive
  let start := skipSpaces next
  let meaning := start.rest.takeWhile isAddressCharacter
  let after := start.pass meaning.length
  let proper := start.rest.head?.any fun c => c == '!' || isTagCharacter c
  if proper && startsBlank after.rest then
    return (.handle (.ofList handle) (.ofList meaning), after)
  else .error .directive

/-- The directive whose `%` stands at the cursor. An unknown one is read over and binds
the empty handle to nothing. -/
def readDirective (cursor : Cursor) : Except Problem (Directive × Cursor) := do
  let start := cursor.pass 1
  let name := start.rest.takeWhile isNameCharacter
  let next := start.pass name.length
  if name.isEmpty || !startsBlank next.rest then .error .directive
  let (directive, after) ←
    if name = "YAML".toList then readVersion next
    else if name = "TAG".toList then readHandleMeaning next
    else .ok (.handle "" "", next.skip next.lineLength)
  let spacing ← after.skipBlanks
  if startsBreak spacing.after.rest then
    return (directive,
      if spacing.after.rest.isEmpty then spacing.after else spacing.after.newline)
  else .error .directive

end BuildPlan.Yaml
