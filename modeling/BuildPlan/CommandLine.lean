import BuildPlan.Manifest

/-!
# BuildPlan.CommandLine

What the words of a command line ask for. Options come first and may be
written apart from their values or joined to them; then comes the command with
its own words. A value that stands apart is taken as the option's once the next
option or the end is reached, so a fault in the words of a command is found
before a repeated option in front of it.
-/

namespace BuildPlan.CommandLine

/-- What to do with a project. -/
inductive Command
  /-- Write its Ninja file. -/
  | ninja (file : Path)
  /-- Print its report. -/
  | graph
  /-- Resolve it and nothing else. -/
  | check
  deriving DecidableEq, Repr

/-- The command when none is named. -/
def defaultCommand : Command := .ninja ⟨"build.ninja"⟩

structure Invocation where
  /-- The manifest, relative to the directory. -/
  file : Path := ⟨Manifest.defaultFileName⟩
  directory : Option Path := none
  verbose : Bool := false
  strict : Bool := false
  command : Command := defaultCommand
  deriving DecidableEq, Repr

/-- Why a command line asks for no work. -/
inductive UsageError
  | displayHelp
  | displayVersion
  | unknownArgument
  | invalidSubcommand
  /-- An option without its value. -/
  | invalidValue
  /-- An option that is given twice. -/
  | argumentConflict
  /-- A value for a switch, which takes none. -/
  | tooManyValues
  deriving DecidableEq, Repr

def UsageError.message : UsageError → String
  | displayHelp =>
    "usage: kumitate [-f FILE] [-C DIR] [-v] [--strict] [ninja [FILE] | graph | check]"
  | displayVersion => "kumitate 0.1.0"
  | unknownArgument => "unexpected argument"
  | invalidSubcommand => "unrecognized subcommand"
  | invalidValue => "a value is required"
  | argumentConflict => "an argument cannot be used multiple times"
  | tooManyValues => "unexpected value"

/-- An option with a value. -/
inductive Setting
  | file
  | directory
  deriving DecidableEq, Repr

/-- An option without a value. -/
inductive Switch
  | verbose
  | strict
  | help
  | version
  deriving DecidableEq, Repr

inductive CliOption
  | setting (setting : Setting)
  | switch (switch : Switch)
  deriving DecidableEq, Repr

/-- The options by their long names. -/
def longOptions : List (String × CliOption) :=
  [("file", .setting .file), ("directory", .setting .directory), ("verbose", .switch .verbose),
    ("strict", .switch .strict), ("help", .switch .help), ("version", .switch .version)]

/-- The options by their letters. -/
def shortOptions : List (Char × CliOption) :=
  [('f', .setting .file), ('C', .setting .directory), ('v', .switch .verbose),
    ('h', .switch .help), ('V', .switch .version)]

/-! ### The words of a command -/

def commandNames : List String := ["ninja", "graph", "check", "help"]

/-- A word after its two dashes, cut at the first `=`. -/
def cutValue (word : List Char) : String × Option String :=
  match word.dropWhile (· != '=') with
  | [] => (.ofList word, none)
  | _ :: value => (.ofList (word.takeWhile (· != '=')), some (.ofList value))

/-- Is the word an option, as opposed to a name, a value or a lone dash? -/
def isOption (word : String) : Bool :=
  match word.toList with
  | '-' :: _ :: _ => true
  | _ => false

/-- What an option among a command's own words leads to. Commands know help only. -/
def commandOption (word : String) : UsageError :=
  match word.toList with
  | '-' :: '-' :: long =>
    match cutValue long with
    | ("help", none) => .displayHelp
    | ("help", some _) => .tooManyValues
    | _ => .unknownArgument
  | '-' :: 'h' :: _ => .displayHelp
  | _ => .unknownArgument

/-- The operands of a command that takes at most `limit` of them. Every word after
`--` is an operand. -/
def operands : (limit : Nat) → (trailing : Bool) → List String → Except UsageError (List String)
  | _, _, [] => .ok []
  | limit, trailing, word :: rest =>
    if !trailing && word = "--" then operands limit true rest
    else if !trailing && isOption word then .error (commandOption word)
    else
      match limit with
      | 0 => .error .unknownArgument
      | limit + 1 => do return word :: (← operands limit trailing rest)

/-- What asking for help with some commands leads to. Commands have no commands of their own. -/
def helpFor : List String → UsageError
  | [] => .displayHelp
  | [name] => if commandNames.contains name then .displayHelp else .invalidSubcommand
  | _ => .invalidSubcommand

def parseCommand (name : String) (words : List String) : Except UsageError Command :=
  match name with
  | "help" => .error (helpFor words)
  | "ninja" => do
    match ← operands 1 false words with
    | file :: _ => return .ninja ⟨file⟩
    | [] => return defaultCommand
  | "graph" => do
    let _ ← operands 0 false words
    return .graph
  | _ => do
    let _ ← operands 0 false words
    return .check

/-! ### Options -/

structure Draft where
  file : Option Path := none
  directory : Option Path := none
  verbose : Bool := false
  strict : Bool := false
  /-- A setting whose value stands apart, with the value if it has been reached. -/
  pending : Option (Setting × Option String) := none
  deriving DecidableEq, Repr

namespace Draft

/-- Give a setting its value. -/
def assign (draft : Draft) (setting : Setting) (value : String) : Except UsageError Draft :=
  match setting, draft.file, draft.directory with
  | .file, none, _ => .ok { draft with file := some ⟨value⟩ }
  | .directory, _, none => .ok { draft with directory := some ⟨value⟩ }
  | .file, some _, _ | .directory, _, some _ => .error .argumentConflict

/-- Take the pending value as its setting's. -/
def settle (draft : Draft) : Except UsageError Draft :=
  match draft.pending with
  | none => .ok draft
  | some (_, none) => .error .invalidValue
  | some (setting, some value) => { draft with pending := none }.assign setting value

/-- Give a setting a value that is joined to its name. -/
def join (draft : Draft) (setting : Setting) (value : String) : Except UsageError Draft := do
  (← draft.settle).assign setting value

/-- Expect a setting's value next. -/
def expect (draft : Draft) (setting : Setting) : Except UsageError Draft := do
  return { ← draft.settle with pending := some (setting, none) }

def turnOn (draft : Draft) (switch : Switch) : Except UsageError Draft := do
  let draft ← draft.settle
  match switch with
  | .help => .error .displayHelp
  | .version => .error .displayVersion
  | .verbose =>
    if draft.verbose then .error .argumentConflict else return { draft with verbose := true }
  | .strict =>
    if draft.strict then .error .argumentConflict else return { draft with strict := true }

/-- Read a word that starts with two dashes. -/
def long (draft : Draft) (word : List Char) : Except UsageError Draft :=
  let (name, value) := cutValue word
  match longOptions.lookup name, value with
  | none, _ => .error .unknownArgument
  | some (.setting setting), some value => draft.join setting value
  | some (.setting setting), none => draft.expect setting
  | some (.switch _), some _ => .error .tooManyValues
  | some (.switch switch), none => draft.turnOn switch

/-- Read a word of letters behind one dash. The first letter that is a setting takes
the rest of the word as its value, less an `=` in front. -/
def short (draft : Draft) : List Char → Except UsageError Draft
  | [] => .ok draft
  | letter :: rest =>
    match shortOptions.lookup letter with
    | none => .error .unknownArgument
    | some (.switch switch) => do (← draft.turnOn switch).short rest
    | some (.setting setting) =>
      match rest with
      | [] => draft.expect setting
      | '=' :: value => draft.join setting (.ofList value)
      | value => draft.join setting (.ofList value)

/-- The setting that waits for its value. -/
def awaiting? (draft : Draft) : Option Setting :=
  match draft.pending with
  | some (setting, none) => some setting
  | _ => none

/-- The invocation, once all words are read. -/
def finish (draft : Draft) (command : Command) : Except UsageError Invocation := do
  let draft ← draft.settle
  return {
    file := draft.file.getD ⟨Manifest.defaultFileName⟩
    directory := draft.directory
    verbose := draft.verbose
    strict := draft.strict
    command }

end Draft

/-! ### The whole line -/

/-- Nothing may follow `--` in front of a command. -/
def afterDashes (draft : Draft) : List String → Except UsageError Invocation
  | [] => draft.finish defaultCommand
  | word :: _ =>
    .error (if commandNames.contains word then .unknownArgument else .invalidSubcommand)

/-- Read the words after the options of `draft`. -/
def parseFrom (draft : Draft) : List String → Except UsageError Invocation
  | [] => draft.finish defaultCommand
  | word :: rest =>
    if draft.awaiting?.isNone && commandNames.contains word then do
      draft.finish (← parseCommand word rest)
    else
      match word.toList, draft.awaiting? with
      | ['-', '-'], _ => afterDashes draft rest
      | '-' :: '-' :: name, _ => do parseFrom (← draft.long name) rest
      | '-' :: letter :: more, _ => do parseFrom (← draft.short (letter :: more)) rest
      | _, some setting => parseFrom { draft with pending := some (setting, some word) } rest
      | _, none => .error .invalidSubcommand

def parse (words : List String) : Except UsageError Invocation := parseFrom {} words

end BuildPlan.CommandLine
