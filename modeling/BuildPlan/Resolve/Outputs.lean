import BuildPlan.Resolve.Objects

/-!
# BuildPlan.Resolve.Outputs

The libraries and programs that targets produce from their objects.
-/

namespace BuildPlan.Resolve

def primaryToolchain (p : Project) (id : TargetId) : Option Toolchain :=
  (p.targetEnvironment? id).bind Environment.toolchain

/-- Where the output of a target is written to. -/
def outputPath (p : Project) (id : TargetId) (target : Target) : Path :=
  p.buildDir.join
    ⟨target.outputName.getD (artifactName (primaryToolchain p id) target.type target.name)⟩

def commandStyle (p : Project) (id : TargetId) : CommandStyle :=
  ((primaryToolchain p id).map Toolchain.style).getD .unix

/-- The field that holds the template for a target's output. -/
def outputVar (p : Project) (id : TargetId) (target : Target) : String :=
  ((primaryToolchain p id).bind (·.linkVar target.type)).getD
    (match target.type with
      | .staticLibrary => "libcmd"
      | .sharedLibrary => "sharedcmd"
      | _ => "progcmd")

/-- The outputs of everything that a target depends on. -/
def dependencyOutputs (p : Project) (id : TargetId) : List NodeId :=
  (p.transitiveDependencies id).flatMap p.outputsOf

/-- Make the output node of a target with its dependencies and its step. -/
def makeOutput (id : TargetId) (target : Target) (deps : List (List NodeId)) (step : BuildStep) :
    Build Unit := do
  let p ← get
  let (output, graph) := p.graph.addProduct (outputPath p id target)
  set { p with graph := graph.modify output fun node => deps.foldl Node.depends node }
  setProductStep output step
  modify (·.modifyTarget id fun target => { target with outputs := [output] })

/-- The step that bundles a target's objects into a static library. -/
def archiveStep (p : Project) (id : TargetId) (target : Target) (env : EnvironmentId)
    (requirements : EffectiveRequirements) : BuildStep where
  tool := ((primaryToolchain p id).map Toolchain.archiver).getD "ar"
  commandVar := outputVar p id target
  kind := .archive
  sources := target.objects
  context := some { requirements, style := commandStyle p id }
  env := some env

/-- The targets whose outputs are linked into a target: objects first, then
libraries, and in both groups each target before the ones it depends on. -/
def linkedTargets (p : Project) (id : TargetId) : List TargetId :=
  let typeIs (test : TargetType → Bool) (dep : TargetId) : Bool :=
    (p.target? dep).any fun target => test target.type
  let deps := (p.transitiveDependencies id).reverse.filter (typeIs TargetType.linksIntoDependents)
  deps.filter (typeIs (· = .object)) ++ deps.filter (typeIs (· ≠ .object))

/-- The language whose compiler drives the linker. -/
def linkLanguage (p : Project) (id : TargetId) : String :=
  let languages := p.allLanguages id
  if languages.contains "cxx" || languages.contains "objcxx" then "cxx" else "c"

def linkStep (p : Project) (id : TargetId) (target : Target) (env : EnvironmentId)
    (requirements : EffectiveRequirements) : BuildStep where
  tool := ((primaryToolchain p id).map Toolchain.linker).getD "link"
  commandVar := outputVar p id target
  kind := .link
  language := some (linkLanguage p id)
  sources := target.objects ++ (linkedTargets p id).flatMap p.outputsOf
  context := some {
    requirements := { requirements with
      linkFlags := Flag.merge (p.separatedFlags id) requirements.linkFlags
        (target.auxiliaryInputs.map (·.2)) }
    style := commandStyle p id }
  env := some env

/-- Make the output of a target that has been compiled. A library or program
without any objects has no output. -/
def produce (id : TargetId) (env : EnvironmentId) : Build Unit := do
  let p ← get
  match p.target? id with
  | none => return ()
  | some target =>
    match target.type with
    | .object =>
      modify (·.modifyTarget id fun target => { target with outputs := target.objects })
    | .staticLibrary =>
      if target.objects.isEmpty then return ()
      let requirements ← Project.effectiveRequirements id .link
      let p ← get
      makeOutput id target [target.objects, dependencyOutputs p id]
        (archiveStep p id target env requirements)
    | .sharedLibrary | .program =>
      if target.objects.isEmpty then return ()
      let requirements ← Project.effectiveRequirements id .link
      let p ← get
      makeOutput id target
        [target.objects, dependencyOutputs p id, target.auxiliaryInputs.map (·.1)]
        (linkStep p id target env requirements)
    | .interface | .install => return ()

end BuildPlan.Resolve
