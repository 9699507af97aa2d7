import BuildPlan.Text.Shell

/-!
# BuildPlan.Version

Semantic versions: three numbers, then optionally the identifiers of a
pre-release after `-` and those of a build after `+`. Numbers have no leading
zeros and fit in 64 bits, so a version is written in one way only.
-/

namespace BuildPlan

structure Version where
  major : Nat
  minor : Nat
  patch : Nat
  pre : List String := []
  build : List String := []
  deriving DecidableEq, Repr, Inhabited

namespace Version

/-- Is the text made of decimal digits only? -/
def isNumeric (text : List Char) : Bool := text.all fun c => '0' ≤ c && c ≤ '9'

/-- Does a number of several digits start with a zero? -/
def hasLeadingZero : List Char → Bool
  | '0' :: _ :: _ => true
  | _ => false

/-- The number that a text spells. -/
def number? (text : List Char) : Option Nat :=
  if text.isEmpty || !isNumeric text || hasLeadingZero text then none
  else
    let n := text.foldl (fun n c => n * 10 + (c.toNat - '0'.toNat)) 0
    if n < UInt64.size then some n else none

/-- Is the text a pre-release or build identifier? -/
def isIdentifier (text : List Char) : Bool :=
  !text.isEmpty && text.all fun c => Text.isAlphanumeric c || c == '-'

/-- The dot-separated identifiers of a text. -/
def identifiers? (text : List Char) : Option (List (List Char)) :=
  let parts := text.splitOn '.'
  if parts.all isIdentifier then some parts else none

/-- The identifiers of a pre-release, whose numbers have no leading zeros. -/
def preIdentifiers? (text : List Char) : Option (List (List Char)) :=
  (identifiers? text).filter fun parts =>
    parts.all fun part => !(isNumeric part && hasLeadingZero part)

/-- The text before the first `mark`, and what follows the mark if there is one. -/
def cutAt (mark : Char) (text : List Char) : List Char × Option (List Char) :=
  match text.dropWhile (· != mark) with
  | [] => (text, none)
  | _ :: rest => (text.takeWhile (· != mark), some rest)

/-- Read an optional part of a version. -/
def optionalPart (read : List Char → Option (List (List Char))) :
    Option (List Char) → Option (List String)
  | none => some []
  | some text => (read text).map (·.map .ofList)

def parse? (text : String) : Option Version := do
  let (core, build) := cutAt '+' text.toList
  let (numbers, pre) := cutAt '-' core
  match numbers.splitOn '.' with
  | [major, minor, patch] =>
    return {
      major := ← number? major
      minor := ← number? minor
      patch := ← number? patch
      pre := ← optionalPart preIdentifiers? pre
      build := ← optionalPart identifiers? build }
  | _ => none

/-- A part of a version after its mark, if there is one. -/
def renderPart (mark : String) (identifiers : List String) : String :=
  if identifiers.isEmpty then "" else mark ++ ".".intercalate identifiers

def render (v : Version) : String :=
  s!"{v.major}.{v.minor}.{v.patch}" ++ renderPart "-" v.pre ++ renderPart "+" v.build

end Version

end BuildPlan
