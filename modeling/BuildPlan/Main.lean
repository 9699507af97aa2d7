import BuildPlan.Run

/-!
# BuildPlan.Main

The command line program, on the files of the system it runs on.
-/

namespace BuildPlan

/-- An action that reports its failure as a text. -/
def attempt {α : Type} (action : IO α) : IO (Except String α) := do
  try return .ok (← action)
  catch error => return .error error.toString

def systemHost : Host IO where
  has path := do
    match ← attempt (IO.FS.realPath path.spelling) with
    | .ok _ => return true
    | .error _ => return false
  read path := attempt (IO.FS.readFile path.spelling)
  write path text := attempt (IO.FS.writeFile path.spelling text)

end BuildPlan

open BuildPlan in
/-- Print what an invocation asks for; problems go to the error stream. -/
def main (words : List String) : IO UInt32 := do
  match CommandLine.parse words with
  | .error .displayHelp =>
    IO.println CommandLine.UsageError.displayHelp.message
    return 0
  | .error .displayVersion =>
    IO.println CommandLine.UsageError.displayVersion.message
    return 0
  | .error problem =>
    IO.eprintln s!"error: {problem.message}"
    return 2
  | .ok invocation =>
    match ← (Run.run systemHost invocation).run with
    | .ok text =>
      IO.print text
      return 0
    | .error problem =>
      IO.eprintln s!"error: {problem.message}"
      return 1
