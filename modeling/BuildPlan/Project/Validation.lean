import BuildPlan.Project.Dependencies
import BuildPlan.Project.Location

/-!
# BuildPlan.Project.Validation

Problems that do not keep a project from being described: cycles among targets
and nodes, and sources that are neither on disk nor produced by a step. What is
on disk is given by a predicate on paths.
-/

namespace BuildPlan.Project

/-- The nodes that are sources of some target, each once. -/
def sourceNodes (p : Project) : List NodeId :=
  (p.targets.toList.flatMap Target.sources).eraseDups

/-- The path of a source that no step produces. -/
def unbuiltPath? (p : Project) (id : NodeId) : Option Path :=
  if p.graph.isBuilt id then none else (p.graph.node? id).bind Node.path?

def unbuiltSources (p : Project) : List Path := p.sourceNodes.filterMap p.unbuiltPath?

def missingSources (p : Project) (exist : Path → Bool) : List Path :=
  p.unbuiltSources.filter fun path => !exist (p.onDisk path)

/-- Every problem of the project. -/
def validate (p : Project) (exist : Path → Bool) : List BuildError :=
  (p.cyclesAmong p.targetIds).map .dependencyCycle
    ++ p.graph.cycle?.toList.map .dependencyCycle
    ++ (p.missingSources exist).map .missingSource

end BuildPlan.Project
