import BuildPlan.Project
import BuildPlan.Toolchain.Kind
import BuildPlan.Version

/-!
# BuildPlan.Manifest

Descriptions of projects as they are written down, and the projects they
describe. Targets that copy files are declared after all others, so their
sources can name any target that is not a copy itself; links, defaults and
groups are made once every target exists.
-/

namespace BuildPlan

namespace Manifest

/-- The kinds of target that a manifest can declare. -/
inductive TargetKind
  | staticLibrary
  | sharedLibrary
  | program
  | object
  | interface
  /-- Copy into a directory. -/
  | install
  /-- Copy one file to a path. -/
  | installAs
  deriving DecidableEq, Repr, Inhabited

namespace TargetKind

def all : List TargetKind :=
  [staticLibrary, sharedLibrary, program, object, interface, install, installAs]

def name : TargetKind → String
  | staticLibrary => "static_library"
  | sharedLibrary => "shared_library"
  | program => "program"
  | object => "object"
  | interface => "interface"
  | install => "install"
  | installAs => "install_as"

def copies : TargetKind → Bool
  | install | installAs => true
  | staticLibrary | sharedLibrary | program | object | interface => false

end TargetKind

/-- A target as it is written down. -/
structure TargetDecl where
  name : String
  kind : TargetKind
  /-- Source files; a target that copies may name targets here too. -/
  sources : List String := []
  /-- The names of the targets it depends on. -/
  link : List String := []
  outputName : Option String := none
  publicReqs : Requirements := {}
  privateReqs : Requirements := {}
  /-- Where a target that copies puts its files. -/
  dest : Option Path := none
  deriving DecidableEq, Repr, Inhabited

end Manifest

/-- A project as it is written down. -/
structure Manifest where
  version : Version
  project : String
  buildDir : Path := ⟨"build"⟩
  toolchain : ToolchainKind := .gcc
  platform : Option Platform := none
  vars : List (String × Value) := []
  /-- Fields of tools that replace what the toolchain has set. -/
  tools : List (String × ToolFields) := []
  targets : List Manifest.TargetDecl
  defaults : List String := []
  aliases : List (String × List String) := []

namespace Manifest

/-- The file that holds a project's manifest unless another one is named. -/
def defaultFileName : String := "Kumitatefile"

def environment (m : Manifest) : Except BuildError Environment := do
  let env ← Environment.withToolchain (m.toolchain.toolchain (m.platform.getD .host))
  let env := m.vars.foldl (fun env (name, value) => env.setVar name value) env
  return m.tools.foldl (fun env (tool, fields) => env.setFields tool fields) env

/-- The targets in the order in which they are declared. -/
def declarationOrder (m : Manifest) : List TargetDecl :=
  m.targets.filter (!·.kind.copies) ++ m.targets.filter (·.kind.copies)

/-- What a source of a target that copies stands for: the target declared under
that name, else a path. -/
def installSource (p : Project) (source : String) : InstallSource :=
  match p.findTarget source with
  | some id => .target id
  | none => .path ⟨source⟩

/-- Declare the target itself. A destination belongs to targets that copy and to no others. -/
def declareTarget (env : EnvironmentId) (decl : TargetDecl) : Build TargetId := do
  let sources := decl.sources.map Path.mk
  match decl.kind, decl.dest with
  | .install, some dest =>
    let p ← get
    Project.declareInstall decl.name env (decl.sources.map (installSource p)) (.directory dest)
  | .installAs, some dest =>
    let p ← get
    Project.declareInstall decl.name env (decl.sources.map (installSource p)) (.file dest)
  | .install, none | .installAs, none => throw (.target decl.name .missingDestination)
  | _, some _ => throw (.target decl.name .misplacedDestination)
  | .staticLibrary, none => Project.declareCompiled decl.name .staticLibrary env sources
  | .sharedLibrary, none => Project.declareCompiled decl.name .sharedLibrary env sources
  | .program, none => Project.declareCompiled decl.name .program env sources
  | .object, none => Project.declareCompiled decl.name .object env sources
  | .interface, none => Project.declareInterface decl.name []

/-- Declare a target with its requirements and the name of its output. -/
def declare (env : EnvironmentId) (decl : TargetDecl) : Build TargetId := do
  let id ← declareTarget env decl
  modify (·.editTarget id fun target => { target with
    publicReqs := decl.publicReqs
    privateReqs := decl.privateReqs
    outputName := decl.outputName })
  return id

/-- The target with the given name, which must exist. -/
def requireTarget (name : String) : Build TargetId := do (← get).requireTarget name

/-- Make a target depend on the targets it names. -/
def linkAll (id : TargetId) (names : List String) : Build Unit :=
  names.forM fun name => do Project.link id (← requireTarget name)

/-- Declare everything that the manifest describes. -/
def populate (m : Manifest) (env : EnvironmentId) : Build Unit := do
  let declared ← m.declarationOrder.mapM fun decl => return (← declare env decl, decl.link)
  declared.forM fun (id, names) => linkAll id names
  m.defaults.forM fun name => do
    let id ← requireTarget name
    modify (·.setDefault id)
  m.aliases.forM fun (group, names) => do
    let ids ← names.mapM requireTarget
    modify (·.addGroup group ids)

/-- The project that the manifest describes, in a directory. -/
def toProject (m : Manifest) (root : Path) : Except BuildError Project := do
  let (env, p) := Project.addEnvironment
    { name := m.project, rootDir := root, buildDir := m.buildDir } (← m.environment)
  match (m.populate env).run.run p with
  | (.ok (), p) => .ok p
  | (.error e, _) => .error e

end Manifest

end BuildPlan
