import BuildPlan.Project.Validation
import BuildPlan.Resolve.Commands
import BuildPlan.Resolve.Installs
import BuildPlan.Resolve.Outputs

/-!
# BuildPlan.Resolve

Resolution gives every target its nodes and every node its command. First the
targets that compile are visited, dependencies before dependents; then install
targets, whose sources may be outputs of any target. The commands of each phase
are expanded at its end.
-/

namespace BuildPlan

namespace Resolve

/-- Mark a target as having its nodes. -/
def markResolved (id : TargetId) : Build Unit :=
  modify (·.modifyTarget id fun target => { target with resolved := true })

/-- Compile a target's sources and make its output. -/
def compileTarget (id : TargetId) (env : EnvironmentId) (sources : List NodeId) : Build Unit := do
  let requirements ← Project.effectiveRequirements id .compile
  let c ← sources.foldlM (compileSource id env requirements) {}
  modify (·.modifyTarget id fun target => { target with
    objects := c.objects
    auxiliaryInputs := c.auxiliary
    languages := Target.mergeLanguages target.languages c.languages })
  produce id env
  markResolved id

/-- The first phase for one target. Install targets wait for the second phase, and
a target without an environment is left alone unless it asks for nothing to be done. -/
def resolveTarget (id : TargetId) : Build Unit := do
  match (← get).target? id with
  | none => return ()
  | some target =>
    if target.resolved then return ()
    match target.type, target.env with
    | .interface, _ => markResolved id
    | .install, _ => return ()
    | _, none => return ()
    | _, some env => compileTarget id env target.sources

/-- Make the node of a named group of targets. -/
def makeGroup (name : String) (targets : List TargetId) : Build Unit := do
  let p ← get
  let outputs := targets.flatMap p.outputsOf
  let (id, graph) := p.graph.group name
  set { p with graph := graph.modify id (·.depends outputs) }

/-- Both phases of resolution. A cycle among the targets is found before anything is changed. -/
def resolveAll : Build Unit := do
  let order ← (← get).buildOrder
  order.forM resolveTarget
  expandCommands 0
  let firstOfPhaseTwo := (← get).graph.size
  order.forM install
  (← get).groups.forM fun (name, targets) => makeGroup name targets
  expandCommands firstOfPhaseTwo

end Resolve

namespace Project

/-- Refuse a strict project that has problems. -/
def enforce (exist : Path → Bool) : Build Unit := do
  let p ← get
  match p.validate exist with
  | [] => return ()
  | problems@(first :: _) =>
    if p.strict then throw (.validation first problems.length)

/-- Resolve every target and validate the result. Problems that validation finds
are errors in strict mode only. -/
def resolve (exist : Path → Bool) : Build Unit := do
  Resolve.resolveAll
  enforce exist

end Project

end BuildPlan
