/-!
# BuildPlan.Flag

Merging lists of flags. Some flags take the next word as their argument, as in
`-framework Cocoa`; such a pair is one unit, so that two frameworks survive a
merge while a repeated one does not. A list keeps its units in the order in
which they first appeared.
-/

namespace BuildPlan

/-- The flags whose argument is the word that follows. -/
structure SeparatedFlags where
  flags : List String
  deriving DecidableEq, Repr, Inhabited

namespace SeparatedFlags

def none : SeparatedFlags := ⟨[]⟩

/-- Does the flag take the next word as its argument? -/
def takesArgument (separated : SeparatedFlags) (flag : String) : Bool :=
  separated.flags.contains flag

def union (x y : SeparatedFlags) : SeparatedFlags := ⟨x.flags ++ y.flags⟩

end SeparatedFlags

/-- A flag, with its argument when it takes one. -/
inductive FlagUnit
  | single (flag : String)
  | pair (flag argument : String)
  deriving DecidableEq, Repr

namespace FlagUnit

def words : FlagUnit → List String
  | single flag => [flag]
  | pair flag argument => [flag, argument]

/-- The units of a list of flags. A flag at the end has no argument to take. -/
def ofFlags (separated : SeparatedFlags) : List String → List FlagUnit
  | [] => []
  | [flag] => [single flag]
  | flag :: next :: rest =>
    if separated.takesArgument flag then pair flag next :: ofFlags separated rest
    else single flag :: ofFlags separated (next :: rest)

def flags (units : List FlagUnit) : List String := units.flatMap words

/-- Cutting a list of flags into units loses nothing. -/
theorem flags_ofFlags (separated : SeparatedFlags) (words : List String) :
    flags (ofFlags separated words) = words := by
  fun_induction ofFlags separated words with
  | case1 => rfl
  | case2 => rfl
  | case3 flag next rest _ ih => simpa [flags, FlagUnit.words] using ih
  | case4 flag next rest _ ih => simpa [flags, FlagUnit.words] using ih

end FlagUnit

namespace Flag

/-- The units that are not in `seen`, each at its first occurrence. -/
def newUnits : List FlagUnit → List FlagUnit → List FlagUnit
  | _, [] => []
  | seen, unit :: rest =>
    if unit ∈ seen then newUnits seen rest else unit :: newUnits (unit :: seen) rest

/-- `base` followed by the units of `extra` that it does not contain. -/
def merge (separated : SeparatedFlags) (base extra : List String) : List String :=
  base ++ FlagUnit.flags
    (newUnits (FlagUnit.ofFlags separated base) (FlagUnit.ofFlags separated extra))

/-- The flags with every repeated unit left out. -/
def deduplicate (separated : SeparatedFlags) (flags : List String) : List String :=
  merge separated [] flags

/-- `base` followed by the items of `extra` that are not the same as one before them. -/
def appendNew {α : Type} (same : α → α → Bool) (base extra : List α) : List α :=
  extra.foldl (fun acc item => if acc.any (same item) then acc else acc ++ [item]) base

/-- `base` followed by the texts of `extra` that it does not contain. -/
def mergeUnique (base extra : List String) : List String := appendNew (· == ·) base extra

end Flag

end BuildPlan
