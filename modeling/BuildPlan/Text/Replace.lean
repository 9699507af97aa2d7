/-!
# BuildPlan.Text.Replace

Replacing every occurrence of a pattern, from left to right and without
overlap. The replacement is not searched again.
-/

namespace BuildPlan.Text

/-- The text with each occurrence of `pattern` replaced. The empty pattern occurs nowhere. -/
def replaceChars (pattern replacement : List Char) : List Char → List Char
  | [] => []
  | c :: rest =>
    match pattern with
    | [] => c :: rest
    | _ :: more =>
      if pattern.isPrefixOf (c :: rest) then
        replacement ++ replaceChars pattern replacement (rest.drop more.length)
      else c :: replaceChars pattern replacement rest
termination_by text => text.length
decreasing_by
  · simp only [List.length_drop, List.length_cons]; omega
  · simp

def replaceAll (pattern replacement text : String) : String :=
  .ofList (replaceChars pattern.toList replacement.toList text.toList)

/-- Write every dollar twice. -/
def doubleDollars (text : String) : String :=
  .ofList (text.toList.flatMap fun c => if c = '$' then ['$', '$'] else [c])

end BuildPlan.Text
