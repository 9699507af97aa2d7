import BuildPlan.Project

/-!
# BuildPlan.Resolve.Commands

Expanding the command templates of built nodes. A template is expanded over the
environment with the step's own bindings on top, so that the words one node adds
to a tool's fields cannot reach another node.
-/

namespace BuildPlan.Resolve

/-- The bindings of the path markers. -/
def markerBindings : List (String × Value) := Marker.all.map fun m => (m.name, .marker m)

/-- The tool fields that a kind of step extends, each with the words it takes. -/
def extendedFields : StepKind → List (String × String)
  | .compile => [("includes", "includes"), ("defines", "defines"), ("flags", "extra_flags")]
  | .link => [("flags", "ldflags"), ("libs", "libs"), ("libdirs", "libdirs")]
  | .archive | .copy => []

/-- The binding of a tool's field followed by words of the step. -/
def extendField (env : Environment) (tool field : String) (words : List String) : String × Value :=
  (tool ++ "." ++ field, .list ((env.field? tool field).toList ++ [.ofTexts words]))

/-- The fields of the step's tool, extended by the words of its context. -/
def contextBindings (env : Environment) (step : BuildStep) (context : StepContext) :
    List (String × Value) :=
  (extendedFields step.kind).filterMap fun (field, key) =>
    (context.fieldWords.lookup key).map (extendField env step.tool field)

/-- The command of the compiler that should link the step's language, when the
linker's own command should not. -/
def driverCommand (env : Environment) (step : BuildStep) : Option Value := do
  let driver ← (← env.toolchain).linkDriver (← step.language)
  if driver = step.tool then none else env.field? driver "cmd"

/-- The bindings of a step, in the order in which they are made. -/
def stepBindings (env : Environment) (step : BuildStep) : List (String × Value) :=
  match step.context with
  | none => markerBindings
  | some context =>
    let driver :=
      match step.kind with
      | .link => driverCommand env step
      | .compile | .archive | .copy => none
    markerBindings ++ contextBindings env step context
      ++ driver.toList.map fun command => (step.tool ++ ".cmd", command)

/-- The expanded command of a step. There is none when the environment or the
template is missing or when the template refers to an undefined variable. -/
def expandStep (p : Project) (step : BuildStep) : Except BuildError (Option (List Token)) :=
  match step.env.bind p.environment? with
  | none => .ok none
  | some env =>
    match env.field? step.tool step.commandVar with
    | none => .ok none
    | some template => do
      let ns ← env.namespaceWith (stepBindings env step)
      match Template.substTokens template ns with
      | .ok tokens => .ok (some tokens)
      | .error (.missingVariable _) => .ok none
      | .error e => .error e

/-- Expand the command of a node that is built and has no command yet. -/
def expandNode (id : NodeId) : Build Unit := do
  let p ← get
  match p.graph.step? id with
  | none => return ()
  | some step =>
    if step.command.isSome then return ()
    match ← expandStep p step with
    | none => return ()
    | some command => set { p with graph := p.graph.setCommand id command }

/-- Expand the commands of the nodes from position `start` on. -/
def expandCommands (start : Nat) : Build Unit := do
  ((← get).graph.ids.drop start).forM expandNode

end BuildPlan.Resolve
