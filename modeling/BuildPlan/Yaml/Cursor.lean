import BuildPlan.Yaml.Problem

/-!
# BuildPlan.Yaml.Cursor

Places in a text and the gaps between its tokens. A line ends at a line feed, a
carriage return or both; columns count characters from the start of the line.
-/

namespace BuildPlan.Yaml

/-! ### Characters -/

def isSpace (c : Char) : Bool := c == ' ' || c == '\t'

def isBreak (c : Char) : Bool := c == '\n' || c == '\r'

def isFlowPunctuation (c : Char) : Bool := [',', '[', ']', '{', '}'].contains c

/-- A character of the names of handles and directives. -/
def isNameCharacter (c : Char) : Bool := c.isAlphanum || c == '_' || c == '-'

/-- Is the text at its end, or does it start with a blank or a break? -/
def startsBlank (text : List Char) : Bool := text.head?.all fun c => isSpace c || isBreak c

/-- Does a line end where the text starts? -/
def startsBreak (text : List Char) : Bool := text.head?.all isBreak

/-- Is nothing left on the line but blanks and a comment? -/
def startsIdle (text : List Char) : Bool :=
  (text.dropWhile isSpace).head?.all fun c => c == '#' || isBreak c

/-- Does the text start with a marker of documents, which is `mark` three times? -/
def startsMarker (mark : Char) (text : List Char) : Bool :=
  text.take 3 == [mark, mark, mark] && startsBlank (text.drop 3)

/-- Does the text start with a marker of the start or the end of a document? -/
def startsAnyMarker (text : List Char) : Bool := startsMarker '-' text || startsMarker '.' text

/-! ### Places -/

/-- A place in a text. -/
structure Cursor where
  rest : List Char
  index : Nat := 0
  line : Nat := 0
  column : Nat := 0
  /-- Do only blanks stand before it on its line? -/
  leading : Bool := true
  deriving DecidableEq, Repr

namespace Cursor

/-- The place behind the next characters, which leave a line's start a start. -/
def skip (cursor : Cursor) (count : Nat) : Cursor :=
  { cursor with
    rest := cursor.rest.drop count
    index := cursor.index + count
    column := cursor.column + count }

/-- The place behind the next characters of content. -/
def pass (cursor : Cursor) (count : Nat) : Cursor := { cursor.skip count with leading := false }

/-- The start of the next line, when a break follows. -/
def newline (cursor : Cursor) : Cursor :=
  let width := if cursor.rest.take 2 = ['\r', '\n'] then 2 else 1
  ⟨cursor.rest.drop width, cursor.index + width, cursor.line + 1, 0, true⟩

theorem length_skip_lt {cursor : Cursor} {count : Nat} (h : cursor.rest ≠ []) (pos : 0 < count) :
    (cursor.skip count).rest.length < cursor.rest.length := by
  have := List.length_pos_iff.mpr h
  simp only [skip, List.length_drop]
  omega

theorem length_pass_lt {cursor : Cursor} {count : Nat} (h : cursor.rest ≠ []) (pos : 0 < count) :
    (cursor.pass count).rest.length < cursor.rest.length :=
  length_skip_lt h pos

theorem length_newline_lt {cursor : Cursor} (h : cursor.rest ≠ []) :
    cursor.newline.rest.length < cursor.rest.length := by
  have := List.length_pos_iff.mpr h
  simp only [newline, List.length_drop]
  split <;> omega

/-- The number of characters up to the end of the line. -/
def lineLength (cursor : Cursor) : Nat := (cursor.rest.takeWhile (!isBreak ·)).length

/-! ### Gaps -/

/-- Skip blanks, breaks and comments, and tell whether a break was among them. Inside
a block, a line whose content stands left of column `limit` cannot start with a tab. -/
def skipGap (limit : Option Int) (broken : Bool) (cursor : Cursor) :
    Except Problem (Cursor × Bool) :=
  match h : cursor.rest with
  | [] => .ok (cursor, broken)
  | c :: rest =>
    if c = '#' then skipGap limit broken (cursor.skip (1 + (rest.takeWhile (!isBreak ·)).length))
    else if isBreak c then skipGap limit true cursor.newline
    else if c = '\t' ∧ cursor.leading ∧ limit.any (fun column : Int => cursor.column < column)
        ∧ !startsIdle rest then .error .tab
    else if isSpace c then skipGap limit broken (cursor.skip 1)
    else .ok (cursor, broken)
termination_by cursor.rest.length
decreasing_by
  all_goals first
    | exact length_newline_lt (by simp [h])
    | exact length_skip_lt (by simp [h]) (by omega)

/-- Blanks on a line, and what they consist of. -/
structure Spacing where
  after : Cursor
  tabs : Bool
  spaces : Bool
  deriving DecidableEq, Repr

/-- Skip the blanks that follow on the line, and the comment after them. -/
def skipBlanks (cursor : Cursor) : Except Problem Spacing :=
  let blanks := cursor.rest.takeWhile isSpace
  let after := cursor.skip blanks.length
  let spacing (after : Cursor) : Spacing := ⟨after, blanks.contains '\t', blanks.contains ' '⟩
  if after.rest.head? ≠ some '#' then .ok (spacing after)
  else if blanks.isEmpty then .error .comment
  else .ok (spacing (after.skip after.lineLength))

end Cursor

/-- What a number of line breaks inside a scalar reads as: one is a space, and of
several all but one are kept. -/
def foldBreaks : Nat → List Char
  | 0 => []
  | 1 => [' ']
  | n + 2 => .replicate (n + 1) '\n'

end BuildPlan.Yaml
