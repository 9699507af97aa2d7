import BuildPlan.Graph.Traversal

/-!
# BuildPlan.Graph.NamedCycle

Cycles as they are reported: names rotated so that the smallest one comes
first, and closed by repeating it.
-/

namespace BuildPlan.Graph

def leastName (first : String) (rest : List String) : String :=
  rest.foldl (fun least name => if name < least then name else least) first

/-- The names of a cycle, starting at the first occurrence of the smallest one. -/
def rotateToLeast : List String → List String
  | [] => []
  | first :: rest =>
    let least := leastName first rest
    (first :: rest).dropWhile (· ≠ least) ++ (first :: rest).takeWhile (· ≠ least)

/-- The cycle closed by repeating its first name. -/
def close (names : List String) : List String := names ++ names.head?.toList

/-- A cycle of names as it is reported. -/
def namedCycle (names : List String) : List String := close (rotateToLeast names)

end BuildPlan.Graph
