import BuildPlan.Assoc
import BuildPlan.Path

/-!
# BuildPlan.Disk

A tree of files and directories with a working directory, and what becomes of a
path when it is followed through the tree. Every step but the first must start
in a directory that exists, so `missing/../file` leads nowhere although its
components cancel.
-/

namespace BuildPlan

/-- A file with its text, or a directory. -/
inductive FileTree
  | file (text : String)
  | directory (entries : List (String × FileTree))

/-- Why a file cannot be read or written. -/
inductive FileProblem
  | notFound
  | notADirectory
  | isADirectory
  /-- A name, or the whole path, has too many bytes. -/
  | nameTooLong
  /-- A path with a NUL character cannot be given to the system. -/
  | nulInName
  deriving DecidableEq, Repr

def FileProblem.message : FileProblem → String
  | .notFound => "No such file or directory (os error 2)"
  | .notADirectory => "Not a directory (os error 20)"
  | .isADirectory => "Is a directory (os error 21)"
  | .nameTooLong => "File name too long (os error 36)"
  | .nulInName => "file name contained an unexpected NUL byte"

namespace FileTree

def emptyDirectory : FileTree := .directory []

/-- What a directory holds. A file holds nothing. -/
def entries : FileTree → List (String × FileTree)
  | .file _ => []
  | .directory entries => entries

/-- What lies at the end of a walk down through directories. -/
def get? : FileTree → List String → Option FileTree
  | tree, [] => some tree
  | .file _, _ :: _ => none
  | .directory entries, name :: rest => (entries.lookup name).bind (·.get? rest)

/-- Put a tree at the end of a walk down, making the directories that are missing. -/
def put (new : FileTree) : FileTree → List String → FileTree
  | _, [] => new
  | tree, name :: rest =>
    .directory (Assoc.put name
      (put new ((tree.entries.lookup name).getD emptyDirectory) rest) tree.entries)

end FileTree

/-- A tree of files with the directory from which relative paths are followed. -/
structure Disk where
  root : FileTree
  workDir : List String

namespace Disk

/-- The stretches of a path between its slashes. -/
def stretches (path : Path) : List String := (path.chars.splitOn '/').map .ofList

/-- Where following a path starts. -/
def start (disk : Disk) (path : Path) : List String := if path.isAbsolute then [] else disk.workDir

def nameLimit : Nat := 255

def pathLimit : Nat := 4095

/-- Refuse a path that no file can have. -/
def checkPath (path : Path) : Except FileProblem Unit :=
  if path.chars.contains '\x00' then .error .nulInName
  else if pathLimit < path.spelling.utf8ByteSize then .error .nameTooLong
  else if path.spelling.isEmpty then .error .notFound
  else .ok ()

/-- Take one step from a place. Nothing and `.` stay there, `..` goes up. -/
def step (disk : Disk) (place : List String) (stretch : String) :
    Except FileProblem (List String) :=
  match disk.root.get? place with
  | none => .error .notFound
  | some (.file _) => .error .notADirectory
  | some (.directory entries) =>
    if stretch = "" ∨ stretch = "." then .ok place
    else if stretch = ".." then .ok place.dropLast
    else if nameLimit < stretch.utf8ByteSize then .error .nameTooLong
    else if Assoc.has stretch entries then .ok (place ++ [stretch])
    else .error .notFound

def walk (disk : Disk) (place : List String) (stretches : List String) :
    Except FileProblem (List String) :=
  stretches.foldlM disk.step place

/-- The place that a path leads to. The empty path leads nowhere. -/
def follow (disk : Disk) (path : Path) : Except FileProblem (List String) := do
  checkPath path
  disk.walk (disk.start path) (stretches path)

/-- Is there a file or directory at the end of the path? -/
def exists? (disk : Disk) (path : Path) : Bool := (disk.follow path).isOk

/-- The text of the file at the end of the path. -/
def read (disk : Disk) (path : Path) : Except FileProblem String := do
  match disk.root.get? (← disk.follow path) with
  | some (.file text) => .ok text
  | some (.directory _) => .error .isADirectory
  | none => .error .notFound

/-- The place that a path names for a file, which need not exist yet. A path that
ends in a slash, `.` or `..` can only name a directory. -/
def placeToWrite (disk : Disk) (path : Path) : Except FileProblem (List String) := do
  checkPath path
  let names := (stretches path).filter (!·.isEmpty)
  match names.getLast? with
  | none => .error .isADirectory
  | some name =>
    let directory ← disk.walk (disk.start path) names.dropLast
    match disk.root.get? directory with
    | none => .error .notFound
    | some (.file _) => .error .notADirectory
    | some (.directory entries) =>
      if name = "." ∨ name = ".." ∨ path.chars.getLast? = some '/' then .error .isADirectory
      else if nameLimit < name.utf8ByteSize then .error .nameTooLong
      else match entries.lookup name with
        | some (.directory _) => .error .isADirectory
        | some (.file _) | none => .ok (directory ++ [name])

/-- Write a file, in place of the one at the end of the path if there is one. -/
def write (disk : Disk) (path : Path) (text : String) : Except FileProblem Disk := do
  return { disk with root := .put (.file text) disk.root (← disk.placeToWrite path) }

end Disk

end BuildPlan
