import BuildPlan.Text.Numeral
import BuildPlan.Yaml.Cursor

/-!
# BuildPlan.Yaml.Block

Scalars written as an indented block. After `|` the block keeps its line breaks;
after `>` a break between two lines that start with text reads as a space. What
happens to the breaks at its end, and how far it is indented, may be said in the
header; otherwise one break is kept and the first line with text shows the
indentation.
-/

namespace BuildPlan.Yaml

/-! ### The header -/

/-- What happens to the line breaks at the end of a block. -/
inductive Chomping
  | strip
  /-- One break is kept. -/
  | clip
  | keep
  deriving DecidableEq, Repr

/-- What stands before a block. -/
structure BlockHeader where
  chomping : Chomping := .clip
  /-- The number of columns by which the block is indented, when it is given. -/
  indent : Option Nat := none
  deriving DecidableEq, Repr

/-- The chomping that a sign stands for. -/
def chomping? : Char → Option Chomping
  | '-' => some .strip
  | '+' => some .keep
  | _ => none

/-- The indentation that a digit stands for. It cannot be zero. -/
def blockIndent? (c : Char) : Option Nat :=
  if '1' ≤ c ∧ c ≤ '9' then Text.digitValue? c else none

/-- The header at the cursor, in which a sign and a digit may stand in either order. -/
def readHeader (cursor : Cursor) : BlockHeader × Cursor :=
  let sign := cursor.rest.head?.bind chomping?
  let digit := cursor.rest.head?.bind blockIndent?
  let next := cursor.pass 1
  match sign, digit with
  | some chomping, _ =>
    match next.rest.head?.bind blockIndent? with
    | some indent => (⟨chomping, some indent⟩, next.pass 1)
    | none => (⟨chomping, none⟩, next)
  | none, some indent =>
    match next.rest.head?.bind chomping? with
    | some chomping => (⟨chomping, some indent⟩, next.pass 1)
    | none => (⟨.clip, some indent⟩, next)
  | none, none => ({}, cursor)

/-! ### Indentation -/

/-- Skip the indentation of the next line, and empty lines before it. The answer
counts the breaks. -/
def skipIndent (indent : Nat) (breaks : Nat) (cursor : Cursor) : Nat × Cursor :=
  match h : cursor.rest with
  | [] => (breaks, cursor)
  | c :: _ =>
    if c = ' ' ∧ cursor.column < indent then skipIndent indent breaks (cursor.skip 1)
    else if isBreak c then skipIndent indent (breaks + 1) cursor.newline
    else (breaks, cursor)
termination_by cursor.rest.length
decreasing_by
  · exact Cursor.length_skip_lt (by simp [h]) (by omega)
  · exact Cursor.length_newline_lt (by simp [h])

/-- Skip the spaces before the first line with text, and empty lines before it. The
answer holds the largest number of spaces on one line and the number of breaks. -/
def findIndent (widest breaks : Nat) (cursor : Cursor) : Nat × Nat × Cursor :=
  match h : cursor.rest with
  | [] => (max widest cursor.column, breaks, cursor)
  | c :: _ =>
    if c = ' ' then findIndent widest breaks (cursor.skip 1)
    else if isBreak c then findIndent (max widest cursor.column) (breaks + 1) cursor.newline
    else (max widest cursor.column, breaks, cursor)
termination_by cursor.rest.length
decreasing_by
  · exact Cursor.length_skip_lt (by simp [h]) (by omega)
  · exact Cursor.length_newline_lt (by simp [h])

/-! ### Lines -/

/-- Where the reading of a block's lines stands. -/
structure BlockGap where
  /-- Has a line been read, whose break is not yet accounted for? -/
  pending : Bool
  breaks : Nat
  /-- Did the line start with a blank? -/
  indented : Bool
  deriving DecidableEq, Repr

namespace BlockGap

def text (gap : BlockGap) : List Char :=
  (if gap.pending then ['\n'] else []) ++ .replicate gap.breaks '\n'

/-- What the gap reads as between two lines. -/
def glue (folded : Bool) (gap : BlockGap) (indented : Bool) : List Char :=
  if folded && gap.pending && !gap.indented && !indented then foldBreaks (gap.breaks + 1)
  else gap.text

end BlockGap

/-- The lines of a block whose text starts at column `indent`, and the gap behind. -/
def blockLines (folded : Bool) (indent : Nat) (gap : BlockGap) (cursor : Cursor) :
    List Char × BlockGap × Cursor :=
  if cursor.column = indent ∧ ¬cursor.rest.isEmpty
      ∧ ¬(indent = 0 ∧ startsMarker '.' cursor.rest) then
    let indented := cursor.rest.head?.any isSpace
    let line := cursor.rest.takeWhile (!isBreak ·)
    let text := gap.glue folded indented ++ line
    let after := cursor.skip line.length
    if after.rest.isEmpty then (text, ⟨false, 0, indented⟩, after)
    else
      let (breaks, next) := skipIndent indent 0 after.newline
      if next.rest.length < cursor.rest.length then
        let (more, gap, last) := blockLines folded indent ⟨true, breaks, indented⟩ next
        (text ++ more, gap, last)
      else (text, ⟨true, breaks, indented⟩, next)
  else ([], gap, cursor)
termination_by cursor.rest.length

/-- What is left of the breaks behind the last line. A line that ends with the text
is as good as one with a break. -/
def chompedEnd (chomping : Chomping) (indent : Nat) (gap : BlockGap) (after : Cursor) : List Char :=
  let last := if after.rest.isEmpty && max indent 1 ≤ after.column then ['\n'] else []
  match chomping with
  | .strip => []
  | .clip => { gap with breaks := 0 }.text ++ last
  | .keep => { gap with breaks := 0 }.text ++ last ++ .replicate gap.breaks '\n'

/-- What a block without any line reads as at the end of a text, when the break
behind its header and more breaks follow. -/
def emptyBlock : Chomping → Nat → List Char
  | .strip, _ => []
  | .clip, _ => ['\n']
  | .keep, breaks => .replicate (max breaks 1) '\n'

/-- A block scalar behind its `|` or `>`, inside a block at column `parent`. -/
def readBlock (folded : Bool) (parent : Int) (cursor : Cursor) :
    Except Problem (String × Cursor) := do
  let (header, next) := readHeader cursor
  let spacing ← next.skipBlanks
  let line := spacing.after
  if !startsBreak line.rest then .error .blockHeader
  let body := if line.rest.isEmpty then line else line.newline
  if body.rest.head? = some '\t' then .error .tab
  let (indent, breaks, first) :=
    match header.indent with
    | some columns =>
      let indent := (max parent 0).toNat + columns
      (indent, skipIndent indent 0 body)
    | none =>
      let (widest, breaks, first) := findIndent 0 0 body
      (max widest (parent + 1).toNat, breaks, first)
  if first.rest.isEmpty then
    return (.ofList (if first.line = cursor.line then [] else emptyBlock header.chomping breaks),
      first)
  if first.column < indent ∧ parent < first.column then .error .indentation
  let (text, gap, after) := blockLines folded indent ⟨false, breaks, false⟩ first
  return (.ofList (text ++ chompedEnd header.chomping indent gap after), after)

end BuildPlan.Yaml
