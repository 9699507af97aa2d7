import BuildPlan.Disk

/-!
# BuildPlan.Host

The system that a run asks for files. A problem comes with the system's own
wording. A `Disk` is such a system, whose writing changes the disk.
-/

namespace BuildPlan

/-- The files of a system, reached in the monad `m`. -/
structure Host (m : Type → Type) where
  /-- Is there a file or directory at the end of a path? -/
  has : Path → m Bool
  read : Path → m (Except String String)
  write : Path → String → m (Except String Unit)

/-- The host whose files are those of a disk. -/
def Disk.host : Host (StateM Disk) where
  has path := return (← get).exists? path
  read path := return ((← get).read path).mapError FileProblem.message
  write path text := do
    match (← get).write path text with
    | .error problem => return .error problem.message
    | .ok disk =>
      set disk
      return .ok ()

end BuildPlan
