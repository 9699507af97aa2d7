import BuildPlan.Resolve.Objects

/-!
# BuildPlan.Resolve.Installs

Install targets. Their sources may be other targets' outputs, those of other
install targets included, which are then copied first. A target's plan is taken
before its sources are looked at, so each target is copied once, whatever
targets name each other.
-/

namespace BuildPlan.Resolve

def copyStep (env : Option EnvironmentId) (source : NodeId) : BuildStep where
  tool := "copy"
  commandVar := "copycmd"
  kind := .copy
  sources := [source]
  env := env

def copyNode (env : Option EnvironmentId) (source : NodeId) (path : Path) : Build NodeId := do
  let p ← get
  let (copy, graph) := p.graph.addProduct path
  set { p with graph := graph.modify copy (·.depends [source]) }
  setProductStep copy (copyStep env source)
  return copy

/-- The name under which a node is copied into a directory. -/
def copiedName (graph : NodeGraph) (source : NodeId) : Path :=
  let name := graph.name source
  ⟨(Path.fileName ⟨name⟩).getD name⟩

/-- Copy nodes to their destination. Only one node can take a given name. -/
def copyAll (target : String) (env : Option EnvironmentId) (sources : List NodeId) :
    Destination → Build (List NodeId)
  | .directory dir =>
    sources.mapM fun source => do
      copyNode env source (dir.join (copiedName (← get).graph source))
  | .file path =>
    match sources with
    | [] => return []
    | [source] => return [← copyNode env source path]
    | _ => throw (.target target (.tooManySources sources.length))

/-- Add the nodes of a source to those found so far. A target is installed first. -/
def findSource (install : TargetId → Build Unit) (found : List NodeId) :
    InstallSource → Build (List NodeId)
  | .target dep => do
    install dep
    return Node.addNew found ((← get).outputsOf dep)
  | .node node => return Node.addNew found [node]
  | .path path => do
    let node ← modifyGet (·.file path)
    return Node.addNew found [node]

/-- Carry out the plan of an install target, if it has one. `depth` bounds how far
install targets may name each other. -/
def installWithin : Nat → TargetId → Build Unit
  | 0, _ => return ()
  | depth + 1, id => do
    let p ← get
    match p.target? id with
    | none => return ()
    | some target =>
      match target.pending with
      | none => return ()
      | some plan =>
        set (p.modifyTarget id fun target => { target with pending := none })
        let sources ← plan.sources.foldlM (findSource (installWithin depth)) []
        let outputs ← copyAll target.name target.env sources plan.destination
        modify (·.modifyTarget id fun target => { target with outputs, resolved := true })

/-- Carry out the plan of an install target and of those it names. Every step down
takes another target's plan, so their number bounds the depth. -/
def install (id : TargetId) : Build Unit := do
  installWithin ((← get).targets.size + 1) id

end BuildPlan.Resolve
