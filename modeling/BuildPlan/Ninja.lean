import BuildPlan.Ninja.Edge
import BuildPlan.Ninja.Rule

/-!
# BuildPlan.Ninja

A resolved project as a Ninja file: its rules, each once, in the order of the
first node that uses them, then the edges in node order, then what is built by
default.
-/

namespace BuildPlan

namespace Ninja

structure File where
  project : String
  buildDir : Path
  rules : List Rule
  edges : List Edge
  defaults : List String
  deriving DecidableEq, Repr, Inhabited

/-- What a node contributes to the file. -/
structure Statement where
  /-- The rule that the edge refers to, unless the file format provides it. -/
  rule : Option Rule
  edge : Edge
  deriving DecidableEq, Repr, Inhabited

/-- The statement of a node. A file that no step makes has none. -/
def statement? (p : Project) (id : NodeId) (node : Node) : Except BuildError (Option Statement) :=
  match node.kind with
  | .group _ => .ok (some ⟨none, .ofGroup p.graph node⟩)
  | .file _ none => .ok none
  | .file _ (some step) => do
    let rule ← Rule.ofStep p id step
    return some ⟨some rule, .ofStep p.graph node step rule.name⟩

/-- The statements of all nodes in node order. -/
def statements (p : Project) : Except BuildError (List Statement) := do
  return (← p.graph.entries.mapM fun (id, node) => statement? p id node).filterMap id

/-- The rules, each name at its first occurrence. -/
def distinctRules (rules : List Rule) : List Rule :=
  Flag.appendNew (fun rule known => rule.name == known.name) [] rules

def defaultOutputs (p : Project) : List String :=
  (p.defaultTargets.flatMap p.outputsOf).map p.graph.name

def File.ofProject (p : Project) : Except BuildError File := do
  let statements ← statements p
  return {
    project := p.name
    buildDir := p.buildDir
    rules := distinctRules (statements.filterMap Statement.rule)
    edges := statements.map Statement.edge
    defaults := defaultOutputs p }

def File.lines (file : File) : List String :=
  [s!"# Generated by kumitate for project {file.project}.", "ninja_required_version = 1.5",
      s!"builddir = {Text.doubleDollars file.buildDir.spelling}", ""]
    ++ file.rules.flatMap Rule.lines
    ++ file.edges.flatMap Edge.lines
    ++ (if file.defaults.isEmpty then [] else ["", s!"default {escapePaths file.defaults}"])

def File.render (file : File) : String := String.join (file.lines.map (· ++ "\n"))

end Ninja

/-- The text of a resolved project's Ninja file. -/
def Project.ninja (p : Project) : Except BuildError String := do
  return (← Ninja.File.ofProject p).render

end BuildPlan
