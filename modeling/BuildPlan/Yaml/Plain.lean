import BuildPlan.Yaml.Cursor

/-!
# BuildPlan.Yaml.Plain

Scalars without quotes. One ends before `: `, before ` #` and, inside a flow
collection, before the collection's own punctuation; it may go on over several
lines, as long as these are indented far enough. Breaks between its lines are
folded.
-/

namespace BuildPlan.Yaml

/-- Does a colon before `rest` separate a key from its value? -/
def separates (flow : Bool) (rest : List Char) : Bool :=
  startsBlank rest || flow && rest.head?.any isFlowPunctuation

/-- Does a word of a plain scalar end before the text? -/
def endsWord (flow : Bool) : List Char → Bool
  | [] => true
  | c :: rest =>
    isSpace c || isBreak c || c == ':' && separates flow rest || flow && isFlowPunctuation c

/-- The word of a plain scalar that the text starts with. -/
def plainWord (flow : Bool) : List Char → List Char
  | [] => []
  | c :: rest => if endsWord flow (c :: rest) then [] else c :: plainWord flow rest

/-- The gap behind a word of a plain scalar, and what it reads as. A line that is
indented by less than `least` columns can hold a tab only if it holds no content. -/
def plainGap (least : Int) (blanks : List Char) (breaks : Nat) (cursor : Cursor) :
    Except Problem (List Char × Cursor) :=
  let gap := if breaks = 0 then blanks.reverse else foldBreaks breaks
  match h : cursor.rest with
  | [] => .ok (gap, cursor)
  | c :: rest =>
    if isBreak c then plainGap least blanks (breaks + 1) cursor.newline
    else if !isSpace c then .ok (gap, cursor)
    else if breaks = 0 then plainGap least (c :: blanks) breaks (cursor.skip 1)
    else if c = '\t' ∧ cursor.column < least then
      if startsIdle rest then
        plainGap least blanks breaks (cursor.skip (1 + (rest.takeWhile (!isBreak ·)).length))
      else .error .tab
    else plainGap least blanks breaks (cursor.skip 1)
termination_by cursor.rest.length
decreasing_by
  all_goals first
    | exact Cursor.length_newline_lt (by simp [h])
    | exact Cursor.length_skip_lt (by simp [h]) (by omega)

/-- Does a dash stand before the punctuation of a flow collection? -/
def startsLoneDash (text : List Char) : Bool :=
  text.head? == some '-' && (text.drop 1).head?.any isFlowPunctuation

/-- The rest of a plain scalar from the start of a word. The gap at its end is read
over but belongs to no word. -/
def plainText (flow : Bool) (least : Int) (cursor : Cursor) :
    Except Problem (List Char × Cursor) := do
  if (cursor.leading && startsAnyMarker cursor.rest) || cursor.rest.head? == some '#' then
    return ([], cursor)
  if flow && startsLoneDash cursor.rest then .error (.unexpected '-')
  let word := plainWord flow cursor.rest
  let after := if word.isEmpty then cursor else cursor.pass word.length
  if after.rest.isEmpty || !startsBlank after.rest then return (word, after)
  let (gap, next) ← plainGap least [] 0 after
  if !flow && next.column < least then return (word, next)
  if next.rest.length < cursor.rest.length then
    let (more, last) ← plainText flow least next
    return (if more.isEmpty then word else word ++ gap ++ more, last)
  else return (word, next)
termination_by cursor.rest.length

/-- A plain scalar that starts at the cursor, inside a block at column `indent`. -/
def readPlain (flow : Bool) (indent : Int) (cursor : Cursor) :
    Except Problem (String × Cursor) := do
  if flow && cursor.column < indent + 1 then .error .indentation
  let (text, after) ← plainText flow (indent + 1) cursor
  if text.isEmpty then .error .missingNode
  return (.ofList text, after)

end BuildPlan.Yaml
