/-!
# BuildPlan.Text.Shell

One word of a command line for `/bin/sh`. A word of safe characters stands for
itself. In any other word the characters that the shell could interpret stand
between single quotes, and a single quote is written `\'` outside them. Quotes
are opened where they are first needed and closed only before a single quote
or at the end, so inert characters may stand on either side.
-/

namespace BuildPlan.Text

def isAlphanumeric (c : Char) : Bool :=
  ('a' ≤ c && c ≤ 'z') || ('A' ≤ c && c ≤ 'Z') || ('0' ≤ c && c ≤ '9')

/-- Characters that never make a word need quotes. -/
def isShellSafe (c : Char) : Bool :=
  isAlphanumeric c || "-_./=:,+@%^".toList.contains c

/-- Characters copied as they are, inside quotes and outside. All of non-ASCII is inert. -/
def isShellInert (c : Char) : Bool :=
  isAlphanumeric c || ",./_-".toList.contains c || 0x80 ≤ c.val

/-- Quote the rest of a word; `inside` tells whether a quote is open. -/
def quoteChars : Bool → List Char → List Char
  | inside, [] => if inside then ['\''] else []
  | inside, c :: rest =>
    if isShellInert c then c :: quoteChars inside rest
    else if c = '\'' then
      (if inside then ['\'', '\\', '\''] else ['\\', '\'']) ++ quoteChars false rest
    else if inside then c :: quoteChars true rest
    else '\'' :: c :: quoteChars true rest

/-- The text as one word of a shell command. -/
def shellWord (text : String) : String :=
  if text.isEmpty then "''"
  else if text.toList.all isShellSafe then text
  else .ofList (quoteChars false text.toList)

end BuildPlan.Text
