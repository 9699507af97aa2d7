/-!
# BuildPlan.Template.Reference

How a template refers to variables. A reference is `$name` with the longest
name that follows, or `${name}`; `$$` is an escaped dollar. A name starts with
a letter or an underscore and goes on with letters, digits, underscores and
dots. A dollar that starts none of these stands for itself.

`pieces` reads a whole template; `wholeReference` recognises a template that is
a single reference and nothing else.
-/

namespace BuildPlan.Template

/-- May a name start with the character? -/
def isNameStart (c : Char) : Bool :=
  ('a' ≤ c && c ≤ 'z') || ('A' ≤ c && c ≤ 'Z') || c == '_'

/-- May a name go on with the character? -/
def isNameChar (c : Char) : Bool := isNameStart c || ('0' ≤ c && c ≤ '9') || c == '.'

/-- A stretch of a template. -/
inductive Piece
  /-- A character that stands for itself. -/
  | char (c : Char)
  /-- An escaped dollar. -/
  | dollar
  /-- A variable, written with braces or without. -/
  | reference (name : String) (braced : Bool)
  deriving DecidableEq, Repr

/-- The piece's spelling in a template. -/
def Piece.written : Piece → List Char
  | .char c => [c]
  | .dollar => ['$', '$']
  | .reference name true => '$' :: '{' :: name.toList ++ ['}']
  | .reference name false => '$' :: name.toList

/-- The longest name at the start of a text, and what follows it. -/
def leadingName : List Char → Option (List Char × List Char)
  | [] => none
  | c :: rest =>
    if isNameStart c then some (c :: rest.takeWhile isNameChar, rest.dropWhile isNameChar)
    else none

/-- The escape or reference that a dollar starts, and what follows it. -/
def afterDollar : List Char → Option (Piece × List Char)
  | '$' :: rest => some (.dollar, rest)
  | '{' :: rest =>
    match leadingName rest with
    | some (name, '}' :: after) => some (.reference (.ofList name) true, after)
    | _ => none
  | rest =>
    match leadingName rest with
    | some (name, after) => some (.reference (.ofList name) false, after)
    | none => none

/-- The first piece of the text `c :: rest`, and what follows it. -/
def nextPiece (c : Char) (rest : List Char) : Piece × List Char :=
  if c = '$' then (afterDollar rest).getD (.char '$', rest) else (.char c, rest)

theorem length_dropWhile_le {α : Type} (p : α → Bool) (l : List α) :
    (l.dropWhile p).length ≤ l.length :=
  (List.dropWhile_suffix p).length_le

theorem length_of_leadingName {text name after : List Char}
    (h : leadingName text = some (name, after)) : after.length < text.length := by
  match text with
  | [] => simp [leadingName] at h
  | c :: rest =>
    rw [leadingName] at h
    split at h
    · simp only [Option.some.injEq, Prod.mk.injEq] at h
      have := length_dropWhile_le isNameChar rest
      rw [← h.2, List.length_cons]
      omega
    · cases h

theorem length_of_afterDollar {text after : List Char} {p : Piece}
    (h : afterDollar text = some (p, after)) : after.length ≤ text.length := by
  unfold afterDollar at h
  split at h
  · cases h; simp
  · split at h
    · next found =>
      cases h
      have := length_of_leadingName found
      simp only [List.length_cons] at this ⊢
      omega
    · cases h
  · split at h
    · next found =>
      cases h
      exact Nat.le_of_lt (length_of_leadingName found)
    · cases h

theorem length_nextPiece_le (c : Char) (rest : List Char) :
    (nextPiece c rest).2.length ≤ rest.length := by
  unfold nextPiece
  split
  · cases found : afterDollar rest with
    | none => simp
    | some pair => simpa using length_of_afterDollar found
  · simp

/-- The pieces of a template, from left to right. -/
def pieces : List Char → List Piece
  | [] => []
  | c :: rest => (nextPiece c rest).1 :: pieces (nextPiece c rest).2
termination_by text => text.length
decreasing_by
  have := length_nextPiece_le c rest
  simp only [List.length_cons]
  omega

/-- Is the text a name from end to end? -/
def isName : List Char → Bool
  | [] => false
  | c :: rest => isNameStart c && rest.all isNameChar

/-- What stands between a brace at the start and a brace at the end. -/
def unbrace : List Char → Option (List Char)
  | '{' :: body => if body.getLast? = some '}' then some body.dropLast else none
  | _ => none

/-- The name, when a text is exactly one reference. -/
def wholeReference (text : String) : Option String :=
  match text.toList with
  | '$' :: inner =>
    let name := (unbrace inner).getD inner
    if isName name then some (.ofList name) else none
  | _ => none

end BuildPlan.Template
