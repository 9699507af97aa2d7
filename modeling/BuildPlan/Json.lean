/-!
# BuildPlan.Json

JSON texts for reports, laid out with two spaces a level. Only what reports are
made of: strings, arrays and objects whose fields keep their order.
-/

namespace BuildPlan

/-- A JSON value of a report. -/
inductive Json
  | text (text : String)
  | array (items : List Json)
  | object (fields : List (String × Json))

namespace Json

def texts (items : List String) : Json := .array (items.map .text)

/-- The characters with an escape sequence of one letter. -/
def escapes : List (Char × Char) :=
  [('"', '"'), ('\\', '\\'), ('\x08', 'b'), ('\t', 't'), ('\n', 'n'), ('\x0c', 'f'), ('\r', 'r')]

def hexDigit (n : Nat) : Char := Nat.digitChar n

/-- A character inside a quoted text. Other control characters are written by code point. -/
def escapeChar (c : Char) : List Char :=
  match escapes.lookup c with
  | some letter => ['\\', letter]
  | none =>
    if c.toNat < 0x20 then ['\\', 'u', '0', '0', hexDigit (c.toNat / 16), hexDigit (c.toNat % 16)]
    else [c]

def quote (text : String) : String :=
  .ofList ('"' :: text.toList.flatMap escapeChar ++ ['"'])

/-- A line break and the indentation of a level. -/
def newline (level : Nat) : String := .ofList ('\n' :: .replicate (2 * level) ' ')

/-- Items between brackets, each on lines of its own one level further in. -/
def enclose (level : Nat) (opening closing : Char) (items : List String) : String :=
  if items.isEmpty then .ofList [opening, closing]
  else
    .singleton opening ++ ",".intercalate (items.map (newline (level + 1) ++ ·)) ++ newline level
      ++ .singleton closing

mutual

/-- The text of a value that starts on a line of the given level. -/
def renderAt (level : Nat) : Json → String
  | .text s => quote s
  | .array items => enclose level '[' ']' (renderItems (level + 1) items)
  | .object fields => enclose level '{' '}' (renderFields (level + 1) fields)

def renderItems (level : Nat) : List Json → List String
  | [] => []
  | item :: rest => item.renderAt level :: renderItems level rest

def renderFields (level : Nat) : List (String × Json) → List String
  | [] => []
  | (name, value) :: rest =>
    (quote name ++ ": " ++ value.renderAt level) :: renderFields level rest

end

def render (json : Json) : String := json.renderAt 0

end Json

end BuildPlan
