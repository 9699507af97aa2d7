import BuildPlan.Project.Dependencies

/-!
# BuildPlan.Project.Usage

The requirements that apply when a target is built: its private ones, followed
by the public ones of every target it depends on. They are collected once and
kept with the target until targets or links change.
-/

namespace BuildPlan.Project

/-- The flags that take an argument in the toolchains of a target's environment. -/
def separatedFlags (p : Project) (id : TargetId) : SeparatedFlags :=
  match p.targetEnvironment? id with
  | none => .none
  | some env => env.toolchains.foldl (fun flags tc => flags.union tc.separatedFlags) .none

def publicReqs (p : Project) (id : TargetId) : Requirements :=
  ((p.target? id).map Target.publicReqs).getD {}

def privateReqs (p : Project) (id : TargetId) : Requirements :=
  ((p.target? id).map Target.privateReqs).getD {}

/-- The requirements that apply when a target is built, collected from the graph. -/
def gatherRequirements (p : Project) (id : TargetId) : Requirements :=
  (p.reachedTargets id).foldl (fun reqs dep => reqs.merge (p.separatedFlags id) (p.publicReqs dep))
    (p.privateReqs id)

/-- The requirements that apply when a target is built, as collected the first time. -/
def collectRequirements (id : TargetId) : StateM Project Requirements := do
  let p ← get
  match (p.target? id).bind Target.collected with
  | some reqs => return reqs
  | none =>
    let reqs := p.gatherRequirements id
    set (p.modifyTarget id fun target => { target with collected := some reqs })
    return reqs

/-- The compile flags that the primary toolchain implies for what a target produces. -/
def impliedFlags (p : Project) (id : TargetId) : List String :=
  match (p.targetEnvironment? id).bind Environment.toolchain, p.target? id with
  | some tc, some target => tc.flagsFor target.type
  | _, _ => []

/-- The requirements of a target's compile or link step. -/
def effectiveRequirements (id : TargetId) (scope : RequirementScope) :
    StateM Project EffectiveRequirements := do
  let effective := EffectiveRequirements.ofRequirements (← collectRequirements id) scope
  match scope with
  | .link => return effective
  | .compile =>
    let p ← get
    let compileFlags :=
      Flag.merge (p.separatedFlags id) effective.compileFlags (p.impliedFlags id)
    return { effective with compileFlags }

end BuildPlan.Project
