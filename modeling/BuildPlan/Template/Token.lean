/-!
# BuildPlan.Template.Token

Path markers and the command tokens that carry them. A marker stands for the
inputs or the outputs of a build step, which only the writer of a build file
can spell. During expansion it travels as one private-use character; afterwards
each argument is cut at those characters into text and markers.
-/

namespace BuildPlan

/-- A placeholder for the paths of a build step. -/
inductive Marker
  /-- The single input of a compile or copy step. -/
  | source
  /-- All inputs of a link or archive step. -/
  | sources
  /-- The single output of a step. -/
  | target
  /-- All outputs of a step. -/
  | targets
  deriving DecidableEq, Repr

namespace Marker

def all : List Marker := [source, sources, target, targets]

/-- The variable that binds the marker in command templates. -/
def name : Marker → String
  | source => "SOURCE"
  | sources => "SOURCES"
  | target => "TARGET"
  | targets => "TARGETS"

/-- The character that stands for the marker during expansion. -/
def sentinel : Marker → Char
  | source => '\uE000'
  | sources => '\uE001'
  | target => '\uE002'
  | targets => '\uE003'

/-- The marker a character stands for. -/
def ofSentinel? (c : Char) : Option Marker := all.find? fun m => m.sentinel = c

/-- Does the marker stand for inputs? -/
def isInput : Marker → Bool
  | source | sources => true
  | target | targets => false

@[simp] theorem ofSentinel?_sentinel (m : Marker) : ofSentinel? m.sentinel = some m := by
  cases m <;> rfl

theorem sentinel_of_ofSentinel? {c : Char} {m : Marker} (h : ofSentinel? c = some m) :
    m.sentinel = c := by
  simpa using List.find?_some h

end Marker

/-- A stretch of a command argument. -/
inductive TokenPart
  | text (text : String)
  | marker (marker : Marker)
  deriving DecidableEq, Repr

/-- One argument of a command after expansion. -/
structure Token where
  parts : List TokenPart
  deriving DecidableEq, Repr

namespace Token

/-- Text that has been read, last character first, as a part when there is any. -/
def pendingText : List Char → List TokenPart
  | [] => []
  | text => [.text (.ofList text.reverse)]

/-- Cut the rest of an argument at its markers; `pending` is the text read last, reversed. -/
def cut (pending : List Char) : List Char → List TokenPart
  | [] => pendingText pending
  | c :: rest =>
    match Marker.ofSentinel? c with
    | some m => pendingText pending ++ .marker m :: cut [] rest
    | none => cut (c :: pending) rest

/-- The token of an expanded argument. Only the empty argument has an empty text part. -/
def parse (argument : String) : Token :=
  match cut [] argument.toList with
  | [] => ⟨[.text ""]⟩
  | parts => ⟨parts⟩

def ofText (text : String) : Token := ⟨[.text text]⟩

/-- The literal text of a token that is a single stretch of text. -/
def text? (t : Token) : Option String :=
  match t.parts with
  | [.text text] => some text
  | _ => none

def hasMarker (t : Token) : Bool :=
  t.parts.any fun
    | .marker _ => true
    | .text _ => false

/-- The token's text, with each part spelled by the given functions. -/
def lower (text : String → String) (marker : Marker → String) (t : Token) : String :=
  String.join (t.parts.map fun
    | .text s => text s
    | .marker m => marker m)

/-- The token for display, with markers spelled as variables. -/
def display (t : Token) : String := t.lower id fun m => "$" ++ m.name

end Token

end BuildPlan
