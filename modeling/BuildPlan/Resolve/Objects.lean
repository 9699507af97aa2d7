import BuildPlan.Project.Location
import BuildPlan.Project.Usage

/-!
# BuildPlan.Resolve.Objects

The objects of a target. Each target compiles into a directory of its own, and
a source that occurs twice, by whatever spelling, is compiled once.
-/

namespace BuildPlan.Resolve

/-- The first toolchain that compiles sources with the given suffix by a tool that exists. -/
def findHandler (env : Environment) (suffix : String) : Option (Toolchain × SourceHandler) :=
  env.toolchains.findSome? fun tc =>
    (tc.sourceHandler suffix).bind fun handler =>
      if env.hasTool handler.tool then some (tc, handler) else none

/-- The first handler that turns linker inputs with the given suffix into flags. -/
def findAuxiliary (env : Environment) (suffix : String) : Option AuxiliaryHandler :=
  env.toolchains.findSome? (·.auxiliaryHandler suffix)

/-- Does the primary toolchain pass sources with the given suffix to the linker? -/
def isLinkInput (env : Environment) (suffix : String) : Bool :=
  env.toolchain.any (·.isLinkInput suffix)

/-- Where a target's source is compiled to. -/
def objectPath (buildDir : Path) (target : String) (source : Path) (objectSuffix : String) : Path :=
  (buildDir.join ⟨"obj." ++ target⟩).join
    ⟨(source.fileStem.getD source.spelling) ++ objectSuffix⟩

def compileStep (tc : Toolchain) (handler : SourceHandler) (env : EnvironmentId) (source : NodeId)
    (object : Path) (requirements : EffectiveRequirements) : BuildStep where
  tool := handler.tool
  commandVar := handler.commandVar
  kind := .compile
  language := some handler.language
  sources := [source]
  depfile := handler.depfile.map fun spec =>
    ⟨Text.replaceAll depfileTarget object.spelling spec⟩
  depsStyle := handler.depsStyle
  context := some { requirements, style := tc.style }
  env := some env

/-- Attach a step to a product that no step makes yet. -/
def setProductStep (id : NodeId) (step : BuildStep) : Build Unit := do
  let p ← get
  let graph ← p.graph.setStep id step
  set { p with graph }

/-- The sources that a target has compiled so far, by normal form. -/
abbrev CompiledSources := List (Path × NodeId)

def makeObject (target : TargetId) (env : EnvironmentId) (tc : Toolchain) (handler : SourceHandler)
    (requirements : EffectiveRequirements) (source : NodeId) : Build NodeId := do
  let p ← get
  let sourcePath : Path := ⟨p.graph.name source⟩
  let path := objectPath p.buildDir (p.targetName target) sourcePath handler.objectSuffix
  if let some earlier := (p.graph.find path).bind p.graph.step? then
    let other := (earlier.sources.head?.map p.graph.name).getD "another source"
    throw (.target (p.targetName target) (.sharedObject other sourcePath path))
  let (object, graph) := p.graph.addProduct path
  let headers := ((graph.node? source).map Node.deps).getD []
  let graph := graph.modify object fun node =>
    (node.depends [source]).dependsImplicitly headers
  set { p with graph }
  setProductStep object (compileStep tc handler env source path requirements)
  return object

/-- What the sources of a target have come to. -/
structure Compilation where
  objects : List NodeId := []
  auxiliary : List (NodeId × String) := []
  languages : List String := []
  compiled : CompiledSources := []

/-- Add an object, unless it is there already. -/
def Compilation.addObject (c : Compilation) (id : NodeId) : Compilation :=
  { c with objects := Node.addNew c.objects [id] }

/-- Take in one source: as a linker flag, as an object, or as a linker input.
Sources that are none of these are passed over. -/
def compileSource (target : TargetId) (envId : EnvironmentId)
    (requirements : EffectiveRequirements) (c : Compilation) (source : NodeId) :
    Build Compilation := do
  let p ← get
  let path : Path := ⟨p.graph.name source⟩
  let suffix := path.suffix
  match p.environment? envId with
  | none => return c
  | some env =>
    if let some handler := findAuxiliary env suffix then
      return { c with auxiliary := c.auxiliary ++ [(source, handler.flagFor path.spelling)] }
    match findHandler env suffix with
    | none => return if isLinkInput env suffix then c.addObject source else c
    | some (tc, handler) =>
      let key := p.absolute path
      let c := { c with languages := Target.insertLanguage handler.language c.languages }
      match c.compiled.find? fun (known, _) => key.same known with
      | some (_, object) => return c.addObject object
      | none =>
        let object ← makeObject target envId tc handler requirements source
        return { c.addObject object with compiled := (key, object) :: c.compiled }

end BuildPlan.Resolve
