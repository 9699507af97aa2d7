import BuildPlan.Text.Numeral
import BuildPlan.Yaml.Cursor

/-!
# BuildPlan.Yaml.Quoted

Scalars in quotes. In single quotes only the quote itself is special and is
written twice; in double quotes a backslash starts an escape sequence. A quoted
scalar may go on over several lines, which are folded like those of a plain one.
-/

namespace BuildPlan.Yaml

/-! ### Escape sequences -/

/-- The characters with an escape sequence of one letter. -/
def letterEscapes : List (Char × Char) :=
  [('0', '\x00'), ('a', '\x07'), ('b', '\x08'), ('t', '\t'), ('\t', '\t'), ('n', '\n'),
    ('v', '\x0b'), ('f', '\x0c'), ('r', '\r'), ('e', '\x1b'), (' ', ' '), ('"', '"'), ('/', '/'),
    ('\\', '\\'), ('N', '\u0085'), ('_', '\u00a0'), ('L', '\u2028'), ('P', '\u2029')]

/-- The number of hexadecimal digits that follow the letter of an escape sequence. -/
def escapeDigits : Char → Option Nat
  | 'x' => some 2
  | 'u' => some 4
  | 'U' => some 8
  | _ => none

/-- The character with a code point; surrogates are none. -/
def charOfCode? (n : Nat) : Option Char := if n.isValidChar then some (Char.ofNat n) else none

/-- The character that an escape sequence stands for, and how many characters of
`rest` belong to the sequence. -/
def escape? (letter : Char) (rest : List Char) : Option (Char × Nat) :=
  match escapeDigits letter with
  | none => (letterEscapes.lookup letter).map (·, 0)
  | some count =>
    if rest.length < count then none
    else ((Text.numeral? 16 (rest.take count)).bind charOfCode?).map (·, count)

/-! ### Runs and gaps -/

/-- The two kinds of quotes. -/
inductive Quotes
  | single
  | double
  deriving DecidableEq, Repr

def Quotes.mark : Quotes → Char
  | single => '\''
  | double => '"'

/-- The part of a quoted scalar up to the next blank or break or the closing quote.
The answer tells whether a backslash took away the break at its end. -/
def quotedRun (quotes : Quotes) (cursor : Cursor) : Except Problem (List Char × Bool × Cursor) :=
  match _h : cursor.rest with
  | [] => .ok ([], false, cursor)
  | c :: rest =>
    if isSpace c || isBreak c then .ok ([], false, cursor)
    else if quotes = .single ∧ c = '\'' ∧ rest.head? = some '\'' then do
      let (more, joined, after) ← quotedRun quotes (cursor.pass 2)
      return ('\'' :: more, joined, after)
    else if c = quotes.mark then .ok ([], false, cursor)
    else if quotes = .double ∧ c = '\\' then
      match rest with
      | [] => .error .escape
      | letter :: tail =>
        if isBreak letter then .ok ([], true, (cursor.pass 1).newline)
        else match escape? letter tail with
          | none => .error .escape
          | some (c, count) => do
            let (more, joined, after) ← quotedRun quotes (cursor.pass (2 + count))
            return (c :: more, joined, after)
    else do
      let (more, joined, after) ← quotedRun quotes (cursor.pass 1)
      return (c :: more, joined, after)
termination_by cursor.rest.length
decreasing_by
  all_goals exact Cursor.length_pass_lt (by simp [*]) (by omega)

/-- The gap behind a run, and what it reads as. A break that was taken away leaves
the later ones as they are. -/
def quotedGap (indent : Int) (joined : Bool) (blanks : List Char) (breaks : Nat) (cursor : Cursor) :
    Except Problem (List Char × Cursor) :=
  let gap :=
    if joined then .replicate breaks '\n'
    else if breaks = 0 then blanks.reverse
    else foldBreaks breaks
  match h : cursor.rest with
  | [] => .ok (gap, cursor)
  | c :: _ =>
    if isBreak c then quotedGap indent joined blanks (breaks + 1) cursor.newline
    else if !isSpace c then .ok (gap, cursor)
    else if !joined ∧ breaks = 0 then quotedGap indent joined (c :: blanks) breaks (cursor.skip 1)
    else if c = '\t' ∧ cursor.column < indent then .error .tab
    else quotedGap indent joined blanks breaks (cursor.skip 1)
termination_by cursor.rest.length
decreasing_by
  all_goals first
    | exact Cursor.length_newline_lt (by simp [h])
    | exact Cursor.length_skip_lt (by simp [h]) (by omega)

/-! ### Scalars -/

/-- The rest of a quoted scalar. The place is that of its closing quote. -/
def quotedText (quotes : Quotes) (indent : Int) (cursor : Cursor) :
    Except Problem (List Char × Cursor) := do
  if cursor.column = 0 && startsAnyMarker cursor.rest then .error .unterminated
  if cursor.rest.isEmpty then .error .unterminated
  if cursor.column < indent then .error .indentation
  let (text, joined, after) ← quotedRun quotes cursor
  if after.rest.head? = some quotes.mark then return (text, after)
  let (gap, next) ← quotedGap indent joined [] 0 after
  if next.rest.length < cursor.rest.length then
    let (more, last) ← quotedText quotes indent next
    return (text ++ gap ++ more, last)
  else .error .unterminated
termination_by cursor.rest.length

/-- May the text follow a quoted scalar? A colon may follow it as a key, which
stands on one line outside of flow collections. -/
def canFollowQuoted (flow oneLine : Bool) : List Char → Bool
  | [] => true
  | c :: _ =>
    isBreak c || flow && [',', '}', ']'].contains c || c == ':' && (flow || oneLine)

/-- A quoted scalar whose opening quote stands at the cursor, inside a block at
column `indent`. -/
def readQuoted (quotes : Quotes) (flow : Bool) (indent : Int) (cursor : Cursor) :
    Except Problem (String × Cursor) := do
  let (text, closing) ← quotedText quotes indent (cursor.pass 1)
  let spacing ← (closing.pass 1).skipBlanks
  let after := spacing.after
  if canFollowQuoted flow (cursor.line == after.line) after.rest then return (.ofList text, after)
  else .error (.unexpected (after.rest.headD ' '))

end BuildPlan.Yaml
