import BuildPlan.Environment
import BuildPlan.NodeGraph
import BuildPlan.Target

/-!
# BuildPlan.Project

A build description: environments, targets and nodes, addressed by their
positions. Operations that can fail run in `Build`, whose state outlives a
failure, so what an operation has changed before it fails stays changed.
-/

namespace BuildPlan

/-- A complete build description. -/
structure Project where
  name : String
  /-- The directory that sources are found in. -/
  rootDir : Path := ⟨"."⟩
  /-- The directory that products are written to. -/
  buildDir : Path := ⟨"build"⟩
  /-- Are validation findings errors? -/
  strict : Bool := false
  environments : Array Environment := #[]
  targets : Array Target := #[]
  graph : NodeGraph := {}
  /-- The targets chosen to be built by default. -/
  defaults : List TargetId := []
  groups : List (String × List TargetId) := []

/-- Changes of a project that may fail and keep what they have changed. -/
abbrev Build := ExceptT BuildError (StateM Project)

namespace Project

/-! ### Looking things up -/

def environment? (p : Project) (id : EnvironmentId) : Option Environment :=
  p.environments[id.index]?

def target? (p : Project) (id : TargetId) : Option Target := p.targets[id.index]?

/-- The ids of the targets in declaration order. -/
def targetIds (p : Project) : List TargetId := (List.range p.targets.size).map TargetId.mk

def findTarget (p : Project) (name : String) : Option TargetId :=
  (p.targets.findIdx? fun target => target.name = name).map TargetId.mk

/-- The target with the given name, which must exist. -/
def requireTarget (p : Project) (name : String) : Except BuildError TargetId :=
  match p.findTarget name with
  | some id => .ok id
  | none => .error (.unknownTarget name)

def targetName (p : Project) (id : TargetId) : String := ((p.target? id).map Target.name).getD ""

def targetEnvironment? (p : Project) (id : TargetId) : Option Environment :=
  ((p.target? id).bind Target.env).bind p.environment?

/-- The targets that a target is linked to. -/
def dependenciesOf (p : Project) (id : TargetId) : List TargetId :=
  ((p.target? id).map Target.dependencies).getD []

def outputsOf (p : Project) (id : TargetId) : List NodeId :=
  ((p.target? id).map Target.outputs).getD []

/-- The targets built by default: the chosen ones, or all when none was chosen. -/
def defaultTargets (p : Project) : List TargetId :=
  if p.defaults.isEmpty then p.targetIds else p.defaults

/-! ### Changing targets -/

/-- Change a target and leave the collected requirements of all targets alone. -/
def modifyTarget (p : Project) (id : TargetId) (change : Target → Target) : Project :=
  { p with targets := p.targets.modify id.index change }

/-- Discard the collected requirements of every target. -/
def forgetRequirements (p : Project) : Project :=
  { p with targets := p.targets.map fun target => { target with collected := none } }

/-- Edit a target, which may change what its dependents collect. -/
def editTarget (p : Project) (id : TargetId) (change : Target → Target) : Project :=
  p.forgetRequirements.modifyTarget id change

def editEnvironment (p : Project) (id : EnvironmentId) (change : Environment → Environment) :
    Project :=
  { p with environments := p.environments.modify id.index change }

/-! ### Declaring -/

def addEnvironment (p : Project) (env : Environment) : EnvironmentId × Project :=
  (⟨p.environments.size⟩, { p with environments := p.environments.push env })

/-- The node for a path, made when there is none. -/
def file (p : Project) (path : Path) : NodeId × Project :=
  let (id, graph) := p.graph.file path
  (id, { p with graph })

def files (p : Project) : List Path → List NodeId × Project
  | [] => ([], p)
  | path :: rest =>
    let (id, p) := p.file path
    let (ids, p) := p.files rest
    (id :: ids, p)

/-- Make an environment's id available in `Build`. -/
def declareEnvironment (env : Environment) : Build EnvironmentId :=
  modifyGet (·.addEnvironment env)

/-- Declare a target. Its name must be new. -/
def addTarget (target : Target) : Build TargetId := do
  let p ← get
  if (p.findTarget target.name).isSome then throw (.duplicateTarget target.name)
  set { p with targets := p.targets.push target }
  return ⟨p.targets.size⟩

/-- Declare a target that compiles sources. The nodes of the sources are made first. -/
def declareCompiled (name : String) (type : TargetType) (env : EnvironmentId)
    (sources : List Path) : Build TargetId := do
  let ids ← modifyGet (·.files sources)
  addTarget { name, type, env := some env, sources := ids }

/-- Declare a target without sources that asks its dependents for include directories. -/
def declareInterface (name : String) (includeDirs : List Path) : Build TargetId :=
  addTarget { name, type := .interface, publicReqs := { includeDirs } }

/-- Declare a target that copies its sources. -/
def declareInstall (name : String) (env : EnvironmentId) (sources : List InstallSource)
    (destination : Destination) : Build TargetId :=
  addTarget { name, type := .install, env := some env, pending := some { sources, destination } }

/-- Make a target depend on another one. Repeating a link changes nothing. -/
def link (id dependency : TargetId) : Build Unit := do
  let p ← get
  if (p.target? dependency).isNone then throw (.unknownTarget s!"#{dependency.index}")
  match p.target? id with
  | none => throw (.unknownTarget s!"#{id.index}")
  | some target =>
    if dependency ∈ target.dependencies then return ()
    set (p.editTarget id fun target =>
      { target with dependencies := target.dependencies ++ [dependency] })

/-- Build a target by default. -/
def setDefault (p : Project) (id : TargetId) : Project :=
  { p with defaults := if id ∈ p.defaults then p.defaults else p.defaults ++ [id] }

/-- Add targets to a named group. -/
def addGroup (p : Project) (name : String) (targets : List TargetId) : Project :=
  { p with
    groups := Assoc.alter name [] (fun known => Flag.appendNew (· == ·) known targets) p.groups }

end Project

end BuildPlan
