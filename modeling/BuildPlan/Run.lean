import BuildPlan.CommandLine
import BuildPlan.Host
import BuildPlan.Manifest.Reader
import BuildPlan.Ninja
import BuildPlan.Report
import BuildPlan.Resolve

/-!
# BuildPlan.Run

Carrying out what a command line asks for: the manifest is loaded and its
project resolved, then the command does its work. Errors tell what was being
done when they arose.
-/

namespace BuildPlan

/-- What was being done with a project. -/
inductive Stage
  | building
  | resolving
  | generating
  deriving DecidableEq, Repr

def Stage.message : Stage → String
  | .building => "building project"
  | .resolving => "resolving project"
  | .generating => "generating Ninja file"

/-- Why a run has stopped. -/
inductive RunError
  | load (path : Path) (reason : String)
  /-- The manifest does not describe a project. -/
  | manifest (path : Path) (error : BuildError)
  | project (stage : Stage) (error : BuildError)
  | report (error : BuildError)
  | write (path : Path) (reason : String)
  deriving DecidableEq, Repr

namespace RunError

/-- An error's own wording, followed by that of the error that it stands for. -/
def chain (error : BuildError) : String :=
  match error with
  | .validation first _ => error.message ++ ": " ++ first.message
  | _ => error.message

/-- The wording of an error. What is wrong with a manifest is left to the error in it. -/
def message : RunError → String
  | load path reason =>
    s!"loading manifest at {path.spelling}: failed to read {path.spelling}: {reason}"
  | manifest path _ => s!"loading manifest at {path.spelling}"
  | project stage error => stage.message ++ ": " ++ chain error
  | report error => chain error
  | write path reason => s!"writing {path.spelling}: {reason}"

/-- The library's error behind a failed run, unless it failed at a file. -/
def cause? : RunError → Option BuildError
  | load _ _ | write _ _ => none
  | manifest _ error | project _ error | report error => some error

end RunError

namespace CommandLine.Invocation

def root (invocation : Invocation) : Path := invocation.directory.getD ⟨"."⟩

def manifestPath (invocation : Invocation) : Path := invocation.root.join invocation.file

end CommandLine.Invocation

namespace Run

open CommandLine (Invocation)

variable {m : Type → Type} [Monad m]

/-- A run that may stop early. -/
abbrev RunM (m : Type → Type) := ExceptT RunError m

/-- Take a result or stop the run. -/
def orStop {ε α : Type} (wrap : ε → RunError) : Except ε α → RunM m α
  | .ok a => return a
  | .error e => throw (wrap e)

/-- The sources that are on the host, by their paths on disk. -/
def presentSources (host : Host m) (p : Project) : m (List Path) :=
  (p.unbuiltSources.map p.onDisk).filterM host.has

/-- Resolve a project and validate it against the files of the host. -/
def resolve (host : Host m) (p : Project) : RunM m Project := do
  let stop : BuildError → RunError := .project .resolving
  let (result, p) := Resolve.resolveAll.run.run p
  orStop stop result
  let present ← presentSources (m := m) host p
  let (result, p) := (Project.enforce present.contains).run.run p
  orStop stop result
  return p

/-- The resolved project that the manifest describes. -/
def loadProject (host : Host m) (invocation : Invocation) : RunM m Project := do
  let path := invocation.manifestPath
  let text ← orStop (.load path) (← host.read path)
  let manifest ← orStop (.manifest path) (Manifest.parse path.spelling text)
  let p ← orStop (.project .building) (manifest.toProject invocation.root)
  resolve host { p with strict := invocation.strict }

/-- Carry out an invocation. The result is the text to print. -/
def run (host : Host m) (invocation : Invocation) : RunM m String := do
  let p ← loadProject host invocation
  match invocation.command with
  | .ninja file =>
    let text ← orStop (.project .generating) p.ninja
    let path := invocation.root.join file
    orStop (.write path) (← host.write path text)
    return ""
  | .graph => do
    let report ← orStop .report p.report
    return report.render ++ "\n"
  | .check => return s!"{p.name}: {p.targets.size} targets, {p.graph.size} nodes\n"

end Run

end BuildPlan
