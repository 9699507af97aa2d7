import BuildPlan.Ninja.Text
import BuildPlan.Project

/-!
# BuildPlan.Ninja.Rule

The rules of a Ninja file. A rule's name is made of the step's tool and a digest
of the rule's body, so steps whose commands read the same share a rule and the
file does not depend on the order in which nodes were made.

A step whose command could not be expanded runs its template as it stands, with
the path variables spelled as the file spells them.
-/

namespace BuildPlan.Ninja

/-- What a rule runs and shows. -/
structure RuleBody where
  command : String
  description : String
  /-- How the command reports the headers it has read. -/
  deps : Option String := none
  deriving DecidableEq, Repr, Inhabited

structure Rule where
  name : String
  body : RuleBody
  deriving DecidableEq, Repr, Inhabited

namespace RuleBody

/-- The bytes that identify a body: its three texts, each after its length. -/
def encode (body : RuleBody) : List UInt8 :=
  [body.command, body.description, body.deps.getD ""].flatMap EffectiveRequirements.encodeText

/-- The first twelve digits of the body's SHA-256 digest. -/
def shortDigest (body : RuleBody) : String := .ofList ((Digest.sha256 body.encode).toList.take 12)

end RuleBody

/-- The tool's name with everything but ASCII letters and digits written as `_`. -/
def plainName (tool : String) : String :=
  .ofList (tool.toList.map fun c => if Text.isAlphanumeric c then c else '_')

/-- The rule for a body that the tool runs. -/
def Rule.ofBody (tool : String) (body : RuleBody) : Rule :=
  ⟨plainName tool ++ "_" ++ body.shortDigest, body⟩

/-! ### Commands -/

/-- Spell the references to one marker as the file spells it, those in braces first. -/
def spellMarker (command : String) (m : Marker) : String :=
  Text.replaceAll ("$" ++ m.name) (markerVariable m)
    (Text.replaceAll ("$\x7b" ++ m.name ++ "\x7d") (markerVariable m) command)

/-- Spell the references to all markers, the longer names first. -/
def spellMarkers (template : String) : String :=
  [Marker.sources, .source, .targets, .target].foldl spellMarker template

def template? (p : Project) (step : BuildStep) : Option Value := do
  (← p.environment? (← step.env)).field? step.tool step.commandVar

/-- The command of a step that has not been expanded. -/
def fallbackCommand (p : Project) (id : NodeId) (step : BuildStep) : Except BuildError String :=
  match template? p step with
  | none => .error (.substitution (.noCommand (p.graph.name id) step.tool step.commandVar))
  | some template => do return spellMarkers (← template.render)

def stepCommand (p : Project) (id : NodeId) (step : BuildStep) : Except BuildError String :=
  match step.command with
  | some tokens => .ok (commandLine tokens)
  | none => fallbackCommand p id step

def RuleBody.ofStep (p : Project) (id : NodeId) (step : BuildStep) :
    Except BuildError RuleBody := do
  return {
    command := ← stepCommand p id step
    description := step.kind.label ++ " $out"
    deps := step.depsStyle.map DepsStyle.name }

def Rule.ofStep (p : Project) (id : NodeId) (step : BuildStep) : Except BuildError Rule := do
  return .ofBody step.tool (← RuleBody.ofStep p id step)

/-! ### Writing -/

/-- The lines of a rule, with an empty one at the end. -/
def Rule.lines (rule : Rule) : List String :=
  [s!"rule {rule.name}", s!"  command = {rule.body.command}",
      s!"  description = {rule.body.description}"]
    ++ rule.body.deps.toList.map (s!"  deps = {·}") ++ [""]

end BuildPlan.Ninja
