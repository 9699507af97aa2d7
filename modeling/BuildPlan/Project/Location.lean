import BuildPlan.Project

/-!
# BuildPlan.Project.Location

Where a project's paths lie: on disk below the root directory, and in a normal
form that is computed from the components alone.
-/

namespace BuildPlan

/-- A path under normalisation. -/
structure Location where
  rooted : Bool := false
  /-- The remaining components, last one first. -/
  upward : List String := []
  deriving DecidableEq, Repr

namespace Location

/-- Follow one more component. Going up removes the last component, whatever it
is, and is kept only where there is none to remove. -/
def step (location : Location) : Path.Component → Location
  | .root => { rooted := true }
  | .here => location
  | .up =>
    match location.upward with
    | [] => { location with upward := [".."] }
    | _ :: rest => { location with upward := rest }
  | .name text => { location with upward := text :: location.upward }

/-- The path to the location. -/
def toPath (location : Location) : Path :=
  ⟨(if location.rooted then "/" else "") ++ "/".intercalate location.upward.reverse⟩

end Location

namespace Project

/-- The place of a path on disk. -/
def onDisk (p : Project) (path : Path) : Path := p.rootDir.join path

/-- The normal form of a path below the root directory. -/
def absolute (p : Project) (path : Path) : Path :=
  ((p.onDisk path).components.foldl Location.step {}).toPath

end Project

end BuildPlan
