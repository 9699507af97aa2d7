import BuildPlan.Manifest
import BuildPlan.Manifest.Scalar
import BuildPlan.Yaml

/-!
# BuildPlan.Manifest.Reader

Reading a manifest from YAML. A text may be any scalar, however it is written.
Where a sequence or a mapping is expected, a plain null is an empty one, and an
optional field that is null counts as left out. A choice may be written as a mapping
from its name to null. Fields that a manifest does not have are refused.
-/

namespace BuildPlan.Manifest

/-- Why a text is no manifest. -/
inductive Problem
  /-- The text is not a YAML document, or its entries cannot be told apart. -/
  | document (problem : Yaml.Problem)
  | missingField (name : String)
  | unknownField (name : String)
  /-- A node is not what its place asks for. -/
  | expected (what : String)
  /-- A number that no value can hold. -/
  | number (text : String)
  deriving DecidableEq, Repr

def Problem.message : Problem → String
  | document problem => problem.message
  | missingField name => s!"missing field '{name}'"
  | unknownField name => s!"unknown field '{name}'"
  | expected what => s!"expected {what}"
  | number text => s!"number out of range: {text}"

/-! ### Shapes -/

def readText : Yaml.Node → Except Problem String
  | .scalar _ text => .ok text
  | _ => .error (.expected "a scalar")

def readPath (node : Yaml.Node) : Except Problem Path := Path.mk <$> readText node

/-- Does the node count as left out? It is a plain null or a block without text. -/
def isLeftOut (node : Yaml.Node) : Bool :=
  match node with
  | .scalar .block text => text.isEmpty
  | _ => node.isNull

/-- Something that may be left out. -/
def readOptional {α : Type} (read : Yaml.Node → Except Problem α) (node : Yaml.Node) :
    Except Problem (Option α) :=
  if isLeftOut node then .ok none else some <$> read node

def readItems {α : Type} (read : Yaml.Node → Except Problem α) (node : Yaml.Node) :
    Except Problem (List α) :=
  match node with
  | .sequence items => items.mapM read
  | _ => if node.isNull then .ok [] else .error (.expected "a sequence")

def readEntries {α : Type} (read : Yaml.Node → Except Problem α) (node : Yaml.Node) :
    Except Problem (List (String × α)) :=
  match node with
  | .mapping entries =>
    match Yaml.Node.merged entries with
    | .ok entries => entries.mapM fun (key, value) => return (key, ← read value)
    | .error problem => .error (.document problem)
  | _ => if node.isNull then .ok [] else .error (.expected "a mapping")

/-- The name of a choice: a text, or the only key of a mapping to null. -/
def readChoiceName : Yaml.Node → Except Problem String
  | .mapping [(.named name, value)] =>
    if value.isNull then .ok name else .error (.expected "null")
  | node => readText node

/-- The choice that a name stands for. -/
def readChoice {α : Type} (what : String) (name : α → String) (choices : List α)
    (node : Yaml.Node) : Except Problem α := do
  let text ← readChoiceName node
  match choices.find? fun choice => name choice = text with
  | some choice => .ok choice
  | none => .error (.expected what)

/-! ### Fields -/

/-- The entries of a mapping that has the given fields and no others. -/
def readFields (known : List String) (node : Yaml.Node) :
    Except Problem (List (String × Yaml.Node)) := do
  let fields ← readEntries .ok node
  match fields.find? fun (name, _) => !known.contains name with
  | some (name, _) => .error (.unknownField name)
  | none => .ok fields

/-- A field that must be there. -/
def required {α : Type} (fields : List (String × Yaml.Node)) (name : String)
    (read : Yaml.Node → Except Problem α) : Except Problem α :=
  match fields.lookup name with
  | some node => read node
  | none => .error (.missingField name)

/-- A field that has a value without being there. -/
def withDefault {α : Type} (fields : List (String × Yaml.Node)) (name : String)
    (read : Yaml.Node → Except Problem α) (default : α) : Except Problem α :=
  match fields.lookup name with
  | some node => read node
  | none => .ok default

def textList (fields : List (String × Yaml.Node)) (name : String) : Except Problem (List String) :=
  withDefault fields name (readItems readText) []

def pathList (fields : List (String × Yaml.Node)) (name : String) : Except Problem (List Path) :=
  withDefault fields name (readItems readPath) []

/-! ### Values -/

mutual

/-- The value of a variable or of a tool's field. -/
def readValue : Yaml.Node → Except Problem Value
  | .scalar .plain text =>
    match plainValue? text with
    | some value => .ok value
    | none => .error (.number text)
  | .scalar _ text => .ok (.text text)
  | .sequence items => do return .list (← readValues items)
  | .mapping _ => .error (.expected "a value")

def readValues : List Yaml.Node → Except Problem (List Value)
  | [] => .ok []
  | node :: rest => do return (← readValue node) :: (← readValues rest)

end

def readVersion (node : Yaml.Node) : Except Problem Version := do
  match Version.parse? (← readText node) with
  | some version => .ok version
  | none => .error (.expected "a semantic version")

def toolchainName : ToolchainKind → String
  | .gcc => "gcc"
  | .clang => "clang"
  | .msvc => "msvc"

def platformName : Platform → String
  | .linux => "linux"
  | .macos => "macos"
  | .windows => "windows"

/-! ### The manifest -/

/-- What a target asks for. -/
def readRequirements (node : Yaml.Node) : Except Problem Requirements := do
  let fields ← readFields
    ["include_dirs", "link_dirs", "link_libs", "defines", "compile_flags", "link_flags"] node
  return {
    includeDirs := ← pathList fields "include_dirs"
    linkDirs := ← pathList fields "link_dirs"
    linkLibs := ← textList fields "link_libs"
    defines := ← textList fields "defines"
    compileFlags := ← textList fields "compile_flags"
    linkFlags := ← textList fields "link_flags" }

def readTarget (node : Yaml.Node) : Except Problem TargetDecl := do
  let fields ← readFields
    ["name", "type", "sources", "link", "output_name", "public", "private", "dest"] node
  return {
    name := ← required fields "name" readText
    kind := ← required fields "type" (readChoice "a target type" TargetKind.name TargetKind.all)
    sources := ← textList fields "sources"
    link := ← textList fields "link"
    outputName := ← withDefault fields "output_name" (readOptional readText) none
    publicReqs := ← withDefault fields "public" readRequirements {}
    privateReqs := ← withDefault fields "private" readRequirements {}
    dest := ← withDefault fields "dest" (readOptional readPath) none }

def ofNode (node : Yaml.Node) : Except Problem Manifest := do
  let fields ← readFields
    ["kumitate_version", "project", "build_dir", "toolchain", "platform", "vars", "tools",
      "targets", "defaults", "aliases"] node
  return {
    version := ← required fields "kumitate_version" readVersion
    project := ← required fields "project" readText
    buildDir := ← withDefault fields "build_dir" readPath ⟨"build"⟩
    toolchain := ← withDefault fields "toolchain"
      (readChoice "a toolchain" toolchainName [.gcc, .clang, .msvc]) .gcc
    platform := ← withDefault fields "platform"
      (readOptional (readChoice "a platform" platformName [.linux, .macos, .windows])) none
    vars := ← withDefault fields "vars" (readEntries readValue) []
    tools := ← withDefault fields "tools" (readEntries (readEntries readValue)) []
    targets := ← required fields "targets" (readItems readTarget)
    defaults := ← textList fields "defaults"
    aliases := ← withDefault fields "aliases" (readEntries (readItems readText)) [] }

def ofText (text : String) : Except Problem Manifest :=
  match Yaml.parse text with
  | .ok node => ofNode node
  | .error problem => .error (.document problem)

/-- The manifest that the text of a file describes. -/
def parse (path : String) (text : String) : Except BuildError Manifest :=
  match ofText text with
  | .ok m => .ok m
  | .error problem => .error (.manifest path problem.message)

end BuildPlan.Manifest
