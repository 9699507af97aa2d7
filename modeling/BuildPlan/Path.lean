/-!
# BuildPlan.Path

File paths with `/` between their components. A path keeps its spelling, which
is what outputs and digests show, while two paths name the same file when their
components agree: repeated and trailing slashes and every `.` but a leading one
are ignored, and `..` is never folded.
-/

namespace BuildPlan

/-- A path as it was spelled. -/
structure Path where
  spelling : String
  deriving DecidableEq, Repr, Inhabited

namespace Path

/-- One step of a path. -/
inductive Component
  /-- The leading `/` of an absolute path. -/
  | root
  /-- A leading `.`. -/
  | here
  /-- `..` -/
  | up
  | name (text : String)
  deriving DecidableEq, Repr

def chars (p : Path) : List Char := p.spelling.toList

/-- What a stretch between slashes stands for, away from the start of the path. -/
def component? : List Char → Option Component
  | [] => none
  | ['.'] => none
  | ['.', '.'] => some .up
  | text => some (.name (.ofList text))

def isAbsolute (p : Path) : Bool := p.chars.head? == some '/'

/-- The steps of the path from left to right. -/
def components (p : Path) : List Component :=
  match p.chars.splitOn '/' with
  | [] => []
  | first :: rest =>
    let start :=
      if p.isAbsolute then some .root
      else if first = ['.'] then some .here
      else component? first
    start.toList ++ rest.filterMap component?

/-- Do two spellings name the same file? -/
def same (p q : Path) : Bool := p.components == q.components

theorem same_iff {p q : Path} : p.same q = true ↔ p.components = q.components := by
  simp [same]

@[simp] theorem same_refl (p : Path) : p.same p = true := by simp [same]

theorem same_comm (p q : Path) : p.same q = q.same p := by
  rw [Bool.eq_iff_iff, same_iff, same_iff, eq_comm]

/-- The path reached by following `p` from `base`. An absolute `p` stands alone. -/
def join (base p : Path) : Path :=
  if p.isAbsolute then p
  else if base.spelling.isEmpty || base.chars.getLast? == some '/' then
    ⟨base.spelling ++ p.spelling⟩
  else ⟨base.spelling ++ "/" ++ p.spelling⟩

/-- The last component, when it is an ordinary name. -/
def fileName (p : Path) : Option String :=
  match p.components.getLast? with
  | some (.name text) => some text
  | _ => none

/-- A file name cut at its last dot. A name whose only dot comes first has no extension. -/
def cutExtension (name : String) : String × Option String :=
  let parts := name.toList.splitOn '.'
  match ['.'].intercalate parts.dropLast, parts.getLast? with
  | [], _ => (name, none)
  | stem, some extension => (.ofList stem, some (.ofList extension))
  | _, none => (name, none)

def fileStem (p : Path) : Option String := p.fileName.map fun name => (cutExtension name).1

/-- The extension of the file name with its dot, or nothing at all. -/
def suffix (p : Path) : String :=
  match p.fileName.bind fun name => (cutExtension name).2 with
  | some extension => "." ++ extension
  | none => ""

end Path

end BuildPlan
