import BuildPlan.Template.Expand
import BuildPlan.Toolchain

/-!
# BuildPlan.Environment

An environment maps tool names such as `cc` to their fields and holds variables
of its own. Command templates are expanded against its namespace view, in which
each tool is a nested namespace that hides a variable of the same name.
-/

namespace BuildPlan

/-- The fields of a tool, in the order in which they were first set. -/
abbrev ToolFields := List (String × Value)

/-- Tools, variables and the toolchains that configured them. -/
structure Environment where
  tools : List (String × ToolFields) := []
  vars : List (String × Value) := []
  /-- The toolchains by priority; the first one is the primary one. -/
  toolchains : List Toolchain := []

/-- What a top-level name of an environment stands for. -/
inductive EnvironmentEntry
  | tool (fields : ToolFields)
  | var (value : Value)

namespace ToolFields

/-- Append items to a list field. A value that is no list becomes its first item,
unless it is empty. -/
def append (field : String) (items : List Value) (fields : ToolFields) : ToolFields :=
  Assoc.alter field (.list []) (fun old =>
    match old with
    | .list before => .list (before ++ items)
    | scalar => .list ((if scalar.isEmpty then [] else [scalar]) ++ items)) fields

end ToolFields

namespace Environment

/-- An environment with the variables that every build has. -/
def initial : Environment where
  vars := [("build_dir", .text "build"), ("variant", .text "default")]

def tool? (env : Environment) (name : String) : Option ToolFields := env.tools.lookup name

def field? (env : Environment) (tool field : String) : Option Value :=
  (env.tool? tool).bind (·.lookup field)

def hasTool (env : Environment) (name : String) : Bool := (env.tool? name).isSome

/-- Change a tool's fields; a tool that does not exist yet starts without any. -/
def alterTool (env : Environment) (name : String) (change : ToolFields → ToolFields) :
    Environment :=
  { env with tools := Assoc.alter name [] change env.tools }

def setField (env : Environment) (tool field : String) (value : Value) : Environment :=
  env.alterTool tool (Assoc.put field value)

/-- Set several fields of a tool, which exists afterwards even if there are none. -/
def setFields (env : Environment) (tool : String) (fields : ToolFields) : Environment :=
  env.alterTool tool (Assoc.putAll fields)

def var? (env : Environment) (name : String) : Option Value := env.vars.lookup name

def setVar (env : Environment) (name : String) (value : Value) : Environment :=
  { env with vars := Assoc.put name value env.vars }

/-- What a name stands for. A tool hides a variable. -/
def lookup (env : Environment) (name : String) : Option EnvironmentEntry :=
  match env.tool? name with
  | some fields => some (.tool fields)
  | none => (env.var? name).map .var

/-- The primary toolchain. -/
def toolchain (env : Environment) : Option Toolchain := env.toolchains.head?

def setUp (env : Environment) (tc : Toolchain) : Environment :=
  tc.tools.foldl (fun env (tool, fields) => env.setFields tool fields) env

/-- Let a toolchain configure the environment. What it has set stays when a tool
that it requires is missing. -/
def addToolchain (tc : Toolchain) : ExceptT BuildError (StateM Environment) Unit := do
  modify (·.setUp tc)
  let env ← get
  match tc.requiredTools.find? fun tool => !env.hasTool tool with
  | some tool => throw (.toolNotFound tool)
  | none => set { env with toolchains := env.toolchains ++ [tc] }

def withToolchain (tc : Toolchain) : Except BuildError Environment :=
  match (addToolchain tc).run.run initial with
  | (.ok (), env) => .ok env
  | (.error e, _) => .error e

def toNamespace (env : Environment) : Namespace :=
  .ofPairs (env.vars ++ env.tools.map fun (name, fields) => (name, .scope (.ofPairs fields)))

/-- The environment's namespace under the given overrides. -/
def namespaceWith (env : Environment) (overrides : List (String × Value)) :
    Except BuildError Namespace :=
  env.toNamespace.layer overrides

def subst (env : Environment) (template : String) (overrides : List (String × Value)) :
    Except BuildError String := do
  Template.subst template (← env.namespaceWith overrides)

/-- Expand a template under the given overrides and cut the result into words. -/
def substWords (env : Environment) (template : String) (overrides : List (String × Value)) :
    Except BuildError (List String) := do
  Template.substWords template (← env.namespaceWith overrides)

end Environment

end BuildPlan
