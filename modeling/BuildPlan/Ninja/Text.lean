import BuildPlan.Template.Token
import BuildPlan.Text.Replace
import BuildPlan.Text.Shell

/-!
# BuildPlan.Ninja.Text

How paths and commands are spelled in a Ninja file. A dollar starts an escape
there, so a literal dollar is written twice; in the paths of a `build` line a
dollar also protects blanks and colons. The paths of a step are spelled as the
variables `$in` and `$out`.
-/

namespace BuildPlan.Ninja

/-- A character of a path in a `build` line. -/
def escapePathChar (c : Char) : List Char :=
  if c = '$' ∨ c = ' ' ∨ c = ':' then ['$', c] else [c]

def escapePath (path : String) : String := .ofList (path.toList.flatMap escapePathChar)

def escapePaths (paths : List String) : String := " ".intercalate (paths.map escapePath)

/-- The variable that holds the paths a marker stands for. -/
def markerVariable (m : Marker) : String := if m.isInput then "$in" else "$out"

/-- Literal text of a command: one word for the shell, with its dollars written twice. -/
def commandText (text : String) : String := Text.doubleDollars (Text.shellWord text)

def commandToken (token : Token) : String := token.lower commandText markerVariable

def commandLine (tokens : List Token) : String := " ".intercalate (tokens.map commandToken)

end BuildPlan.Ninja
