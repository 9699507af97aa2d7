import BuildPlan.Template.Value
import BuildPlan.Text.Blank
import BuildPlan.Text.Numeral

/-!
# BuildPlan.Manifest.Scalar

What a plain scalar means where a variable's value is expected: a truth value,
an integer or a text. Finite numbers that are no 64-bit integers are refused, since
a value cannot hold them and reading them as text would hide the mistake.
-/

namespace BuildPlan.Manifest

def trueWords : List String := ["true", "yes", "y", "on"]

def falseWords : List String := ["false", "no", "n", "off"]

/-- The truth value of a word, in letters of either case. -/
def truth? (word : String) : Option Bool :=
  if trueWords.contains word.toLower then some true
  else if falseWords.contains word.toLower then some false
  else none

/-- A text without its sign, and whether the sign was a minus. -/
def cutSign : List Char → Bool × List Char
  | '-' :: rest => (true, rest)
  | '+' :: rest => (false, rest)
  | text => (false, text)

/-- The base that a text's start announces, and the digits after it. -/
def cutBase : List Char → Nat × List Char
  | '0' :: c :: rest =>
    if c = 'x' ∨ c = 'X' then (16, rest)
    else if c = 'o' ∨ c = 'O' then (8, rest)
    else if c = 'b' ∨ c = 'B' then (2, rest)
    else (10, '0' :: c :: rest)
  | text => (10, text)

/-- The integer that a text spells. Underscores among the digits are ignored. -/
def integer? (text : List Char) : Option Int :=
  let (negative, text) := cutSign text
  let (base, text) := cutBase text
  match text.filter (· != '_') with
  | [] => none
  | digits => (Text.numeral? base digits).map fun n => if negative then -(n : Int) else n

/-- Can a value hold the integer? -/
def fitsSigned (n : Int) : Bool := Int64.minValue.toInt ≤ n && n ≤ Int64.maxValue.toInt

/-- Does the integer fit in 64 bits without a sign? -/
def fitsUnsigned (n : Int) : Bool := 0 ≤ n && n < UInt64.size

/-- The parts of a decimal number: its digits, and the power of ten that they count. -/
structure Decimal where
  digits : List Char
  exponent : Int
  deriving DecidableEq, Repr

/-- The number behind the `e` of a decimal number. -/
def exponent? (text : List Char) : Option Int :=
  let (negative, digits) := cutSign text
  if digits.isEmpty || !digits.all Text.isDigit then none
  else (Text.numeral? 10 digits).map fun n => if negative then -(n : Int) else n

/-- The decimal number that a text without a sign spells. It has a digit before its
exponent, and a point may stand anywhere among its digits. -/
def decimal? (text : List Char) : Option Decimal :=
  let whole := text.takeWhile Text.isDigit
  let (fraction, rest) :=
    match text.dropWhile Text.isDigit with
    | '.' :: rest => (rest.takeWhile Text.isDigit, rest.dropWhile Text.isDigit)
    | rest => ([], rest)
  let number (exponent : Int) : Decimal := ⟨whole ++ fraction, exponent - fraction.length⟩
  if (whole ++ fraction).isEmpty then none
  else match rest with
    | [] => some (number 0)
    | c :: rest => if c = 'e' ∨ c = 'E' then (exponent? rest).map number else none

/-- The least number that is too large for a floating-point number of 64 bits: it lies
halfway between the largest of these and the next power of two. -/
def tooLarge : Nat := (2 * Nat.pow 2 53 - 1) * Nat.pow 2 970

/-- Is the number too large for a floating-point number? The position of its first
digit decides, unless the number has as many digits as the bound. -/
def Decimal.overflows (number : Decimal) : Bool :=
  let digits := number.digits.dropWhile (· == '0')
  let magnitude := digits.length + number.exponent
  let n := (Text.numeral? 10 digits).getD 0
  if digits.isEmpty || magnitude < 309 then false
  else if 309 < magnitude then true
  else if 0 ≤ number.exponent then tooLarge ≤ n * Nat.pow 10 number.exponent.toNat
  else tooLarge * Nat.pow 10 (-number.exponent).toNat ≤ n

/-- What a text means that spells a floating-point number. -/
inductive Float64
  | finite
  | infinite (negative : Bool)
  | notANumber
  deriving DecidableEq, Repr

/-- The floating-point number that a text spells. -/
def float? (text : List Char) : Option Float64 :=
  let (negative, text) := cutSign text
  let word := (String.ofList text).toLower
  if ["inf", "infinity", ".inf"].contains word then some (.infinite negative)
  else if ["nan", ".nan"].contains word then some .notANumber
  else (decimal? text).map fun number =>
    if number.overflows then .infinite negative else .finite

/-- The value of a plain scalar, unless it is a number that no value can hold. Blanks
around a word or number do not count; numbers that are not finite are texts, written
in one way. -/
def plainValue? (text : String) : Option Value :=
  let chars := Text.trim text.toList
  match truth? (String.ofList chars) with
  | some b => some (.bool b)
  | none =>
    let number := integer? chars
    match number.filter fitsSigned with
    | some n => some (.int n)
    | none =>
      if number.any fitsUnsigned then none
      else match float? chars with
        | some .finite => none
        | some (.infinite negative) => some (.text (if negative then "-.inf" else ".inf"))
        | some .notANumber => some (.text ".nan")
        | none => some (.text text)

end BuildPlan.Manifest
