import BuildPlan.Proofs.Ninja
import BuildPlan.Proofs.Project.Dependencies
import BuildPlan.Proofs.Text.Words
import Mathlib.Data.List.Forall2

/-!
# BuildPlan.Proofs.Ninja.BuildLine

What Ninja reads in the build lines of a file. A path ends at a blank, a colon or a bar that
no dollar protects, so the names of nodes come back as they were if each has a character and
none has one that the format cannot protect. The lines then say of every node that is made,
and of every group, what it is made from.
-/

namespace BuildPlan

/-- Does the node have a statement in a build file? A file has one if a step makes it. -/
def Node.isStated (node : Node) : Bool :=
  match node.kind with
  | .file _ step => step.isSome
  | .group _ => true

namespace Ninja

/-! ### Reading -/

/-- A piece of a build line. -/
inductive Lexeme
  | path (text : List Char)
  | blank
  | colon
  | bar
  deriving DecidableEq, Repr

/-- One more character in front. It belongs to the path that starts there. -/
def Lexeme.push (c : Char) : List Lexeme → List Lexeme
  | .path text :: rest => .path (c :: text) :: rest
  | lexemes => .path [c] :: lexemes

/-- Characters that end a line, wherever they stand. -/
def endsLine (c : Char) : Bool := c == '\n' || c == '\r' || c == '\x00'

/-- The pieces of a line. A dollar makes the blank, the colon or the dollar behind it part of a
path, and means nothing in front of other characters. -/
def lex : List Char → Option (List Lexeme)
  | [] => some []
  | ['$'] => none
  | '$' :: c :: rest =>
    if c = '$' ∨ c = ' ' ∨ c = ':' then (lex rest).map (Lexeme.push c) else none
  | ' ' :: rest => (lex rest).map (.blank :: ·)
  | ':' :: rest => (lex rest).map (.colon :: ·)
  | '|' :: rest => (lex rest).map (.bar :: ·)
  | c :: rest => if endsLine c then none else (lex rest).map (Lexeme.push c)

/-- The paths up to the next colon or bar, and what starts there. -/
def takePaths : List Lexeme → List String × List Lexeme
  | .path text :: rest => (.ofList text :: (takePaths rest).1, (takePaths rest).2)
  | .blank :: rest => takePaths rest
  | lexemes => ([], lexemes)

/-- What a build line says. -/
structure BuildLine where
  outputs : List String
  rule : String
  inputs : List String
  implicits : List String
  deriving DecidableEq, Repr

/-- Read a build line: the outputs up to a colon, the rule and its inputs, and behind a bar
the implicit inputs. -/
def readLine (line : String) : Option BuildLine := do
  match takePaths (← lex line.toList) with
  | ("build" :: outputs, .colon :: rest) =>
    match takePaths rest with
    | (rule :: inputs, []) => some ⟨outputs, rule, inputs, []⟩
    | (rule :: inputs, .bar :: rest) =>
      match takePaths rest with
      | (implicits, []) => some ⟨outputs, rule, inputs, implicits⟩
      | _ => none
    | _ => none
  | _ => none

/-- The lines of a text, and what stands behind the last line end. -/
def textLines (text : String) : List String := (text.toList.splitOn '\n').map .ofList

/-- Does the line begin a build statement? The bindings of a statement are indented. -/
def isBuildLine (line : String) : Bool := "build ".toList.isPrefixOf line.toList

/-- The lines of a text that begin a build statement. -/
def buildLines (text : String) : List String := (textLines text).filter isBuildLine

/-- A name that a build line can hold: Ninja cannot protect a bar or the end of a line. -/
def Spellable (name : String) : Prop :=
  name ≠ "" ∧ ∀ c ∈ name.toList, c ≠ '|' ∧ endsLine c = false

/-- The next piece is no path. -/
def Apart : List Char → Prop
  | [] => True
  | c :: _ => c = ' ' ∨ c = ':' ∨ c = '|'

variable {name : String} {names : List String} {rest : List Char}

theorem apart_blank (rest : List Char) : Apart (' ' :: rest) := .inl rfl

theorem apart_colon (rest : List Char) : Apart (':' :: rest) := .inr (.inl rfl)

theorem lex_plain {c : Char} (hc : c ≠ '$' ∧ c ≠ ' ' ∧ c ≠ ':' ∧ c ≠ '|')
    (hline : endsLine c = false) (rest : List Char) :
    lex (c :: rest) = (lex rest).map (Lexeme.push c) := by
  obtain ⟨hdollar, hblank, hcolon, hbar⟩ := hc
  rw [lex]
  · simp [hline]
  all_goals simp_all

/-- A protected character is read as itself. -/
theorem lex_escapePathChar {c : Char} (hbar : c ≠ '|') (hline : endsLine c = false)
    (rest : List Char) : lex (escapePathChar c ++ rest) = (lex rest).map (Lexeme.push c) := by
  unfold escapePathChar
  split
  · next hc => simp [lex, hc]
  · next hc =>
      rw [not_or, not_or] at hc
      exact lex_plain ⟨hc.1, hc.2.1, hc.2.2, hbar⟩ hline rest

theorem lex_escaped {text : List Char} (h : ∀ c ∈ text, c ≠ '|' ∧ endsLine c = false)
    (rest : List Char) :
    lex (text.flatMap escapePathChar ++ rest) = (lex rest).map (text.foldr Lexeme.push) := by
  induction text with
  | nil => exact Option.map_id'.symm
  | cons c text ih =>
      have hc := h c List.mem_cons_self
      rw [List.flatMap_cons, List.append_assoc, lex_escapePathChar hc.1 hc.2,
        ih fun d hd => h d (List.mem_cons_of_mem _ hd), Option.map_map]
      rfl

/-- Characters in front of something that is no path are a path. -/
theorem foldr_push {text : List Char} (hne : text ≠ []) {lexemes : List Lexeme}
    (h : ∀ path rest, lexemes ≠ .path path :: rest) :
    text.foldr Lexeme.push lexemes = .path text :: lexemes := by
  induction text with
  | nil => exact absurd rfl hne
  | cons c text ih =>
      rw [List.foldr_cons]
      -- the last character starts the path, and those before it join it
      by_cases htext : text = []
      · subst htext
        rw [List.foldr_nil, Lexeme.push]
        exact h
      · rw [ih htext, Lexeme.push]

theorem Apart.lexemes (h : Apart rest) {lexemes : List Lexeme} (hlex : lex rest = some lexemes)
    (path : List Char) (others : List Lexeme) : lexemes ≠ .path path :: others := by
  rintro rfl
  match rest, h with
  | [], _ => simp [lex] at hlex
  | _ :: _, .inl rfl => simp [lex] at hlex
  | _ :: _, .inr (.inl rfl) => simp [lex] at hlex
  | _ :: _, .inr (.inr rfl) => simp [lex] at hlex

/-- The name in front is read as it is. -/
theorem lex_escapePath (h : Spellable name) (hrest : Apart rest) :
    lex ((escapePath name).toList ++ rest) =
      (lex rest).map (Lexeme.path name.toList :: ·) := by
  have hne : name.toList ≠ [] := by simpa using h.1
  rw [escapePath, String.toList_ofList, lex_escaped h.2]
  exact Option.map_congr fun lexemes hlex => foldr_push hne (hrest.lexemes hlex)

/-- The names of a list, a blank between two of them. -/
def lexemes (names : List String) : List Lexeme :=
  (names.map fun name => .path name.toList).intersperse .blank

/-- What follows the first name of a list. -/
theorem toList_escapePaths_cons (name : String) (names : List String) :
    (escapePaths (name :: names)).toList =
      (escapePath name).toList ++
        if names.isEmpty then [] else ' ' :: (escapePaths names).toList := by
  cases names with
  | nil => simp [escapePaths]
  | cons next names => exact Text.toList_intercalate_blank _ _ _

theorem lex_escapePaths (h : ∀ name ∈ names, Spellable name) (hrest : Apart rest) :
    lex ((escapePaths names).toList ++ rest) = (lex rest).map (lexemes names ++ ·) := by
  induction names with
  | nil => exact Option.map_id'.symm
  | cons name names ih =>
      have hname := h name List.mem_cons_self
      cases names with
      | nil =>
          rw [toList_escapePaths_cons, List.isEmpty_nil, if_pos rfl, List.append_nil]
          exact lex_escapePath hname hrest
      | cons next names =>
          have ih := ih fun other hother => h other (List.mem_cons_of_mem _ hother)
          rw [toList_escapePaths_cons, List.isEmpty_cons, if_neg (by decide), List.append_assoc,
            List.cons_append, lex_escapePath hname (apart_blank _), lex, ih, Option.map_map,
            Option.map_map]
          rfl

theorem takePaths_lexemes (names : List String) (rest : List Lexeme) :
    takePaths (lexemes names ++ rest) = (names ++ (takePaths rest).1, (takePaths rest).2) := by
  induction names with
  | nil => rfl
  | cons name names ih =>
      cases names with
      | nil => simp [lexemes, takePaths]
      | cons next names =>
          simp only [lexemes, List.map_cons, List.intersperse_cons_cons] at ih ⊢
          rw [List.cons_append, List.cons_append, takePaths, takePaths, ih]
          simp

theorem takePaths_lexemes_nil (names : List String) : takePaths (lexemes names) = (names, []) := by
  simpa [takePaths] using takePaths_lexemes names []

/-! ### Edges -/

/-- A name of letters, digits and underscores needs no escapes. -/
theorem escapePath_of_plain (h : ∀ c ∈ name.toList, c ≠ '$' ∧ c ≠ ' ' ∧ c ≠ ':') :
    escapePath name = name := by
  have hplain : name.toList.flatMap escapePathChar = name.toList.flatMap fun c => [c] :=
    List.flatMap_congr fun c hc => by simp [escapePathChar, h c hc]
  rw [escapePath, hplain, List.flatMap_singleton', String.ofList_toList]

/-- The names in an edge can be held by a build line, the rule's name stands for itself, and
the name of the dependency file is one line. -/
structure Edge.Legible (edge : Edge) : Prop where
  output : Spellable edge.output
  rule : Spellable edge.rule
  plain : escapePath edge.rule = edge.rule
  inputs : ∀ name ∈ edge.inputs, Spellable name
  implicits : ∀ name ∈ edge.implicits, Spellable name
  depfile : ∀ path ∈ edge.depfile, '\n' ∉ path.toList

/-- What the build line of an edge says. -/
def Edge.content (edge : Edge) : BuildLine :=
  ⟨[edge.output], edge.rule, edge.inputs, edge.implicits⟩

/-- The end of a build line: the implicit inputs, if there are any. -/
def implicitPart (names : List String) : List Char :=
  if names.isEmpty then [] else ' ' :: '|' :: ' ' :: (escapePaths names).toList

theorem toList_buildLine {edge : Edge} (h : edge.Legible) :
    edge.buildLine.toList = (escapePaths ["build", edge.output]).toList ++
      ':' :: ' ' :: ((escapePaths (edge.rule :: edge.inputs)).toList ++
        implicitPart edge.implicits) := by
  have hbuild : escapePath "build" = "build" := escapePath_of_plain (by simp)
  rw [Edge.buildLine, implicitPart]
  simp only [toList_escapePaths_cons, hbuild, h.plain]
  cases edge.inputs <;> cases edge.implicits <;> simp [escapePaths, toString]

theorem lex_implicitPart (h : ∀ name ∈ names, Spellable name) :
    lex (implicitPart names) =
      some (if names.isEmpty then [] else .blank :: .bar :: .blank :: lexemes names) := by
  unfold implicitPart
  split
  · rfl
  · have hnames : lex ((escapePaths names).toList ++ []) = _ := lex_escapePaths h trivial
    simp only [List.append_nil] at hnames
    simp [lex, hnames]

theorem apart_implicitPart (names : List String) : Apart (implicitPart names) := by
  unfold implicitPart
  split
  · exact trivial
  · exact apart_blank _

theorem lex_buildLine {edge : Edge} (h : edge.Legible) :
    lex edge.buildLine.toList = some (lexemes ["build", edge.output] ++
      .colon :: .blank :: (lexemes (edge.rule :: edge.inputs) ++
        if edge.implicits.isEmpty then []
        else .blank :: .bar :: .blank :: lexemes edge.implicits)) := by
  have hbuild : Spellable "build" := ⟨by simp, by simp [endsLine]⟩
  have hfirst : ∀ name ∈ ["build", edge.output], Spellable name := by
    simpa using ⟨hbuild, h.output⟩
  have hsecond : ∀ name ∈ edge.rule :: edge.inputs, Spellable name := by
    simpa using ⟨h.rule, h.inputs⟩
  rw [toList_buildLine h, lex_escapePaths hfirst (apart_colon _), lex, lex,
    lex_escapePaths hsecond (apart_implicitPart _), lex_implicitPart h.implicits]
  rfl

/-- A build line is read as the edge that it was written for. -/
theorem readLine_buildLine {edge : Edge} (h : edge.Legible) :
    readLine edge.buildLine = some edge.content := by
  unfold readLine Edge.content
  simp only [lex_buildLine h, Option.bind_eq_bind, Option.bind_some, takePaths_lexemes,
    takePaths]
  -- the bar is written only if there is something behind it
  cases hnames : edge.implicits with
  | nil => simp [takePaths, takePaths_lexemes_nil]
  | cons name names => simp [takePaths, takePaths_lexemes, takePaths_lexemes_nil]

/-! ### The lines of a text -/

/-- What is printed for some lines, each with a line end. -/
def printed (lines : List String) : String := String.join (lines.map (· ++ "\n"))

/-- What is printed for the edges of a file. -/
def File.edgeText (file : File) : String := printed (file.edges.flatMap Edge.lines)

variable {lines : List String} {line : String}

theorem printed_append (lines others : List String) :
    printed (lines ++ others) = printed lines ++ printed others := by
  simp [printed]

/-- The edges are printed after some lines and before others. -/
theorem exists_render_eq (file : File) :
    ∃ before after, file.render = printed before ++ file.edgeText ++ printed after := by
  obtain ⟨before, after, hlines⟩ : ∃ before after,
      file.lines = before ++ file.edges.flatMap Edge.lines ++ after := ⟨_, _, rfl⟩
  refine ⟨before, after, ?_⟩
  rw [File.edgeText, ← printed_append, ← printed_append, ← hlines]
  rfl

theorem textLines_append (text rest : String) :
    textLines (text ++ "\n" ++ rest) = textLines text ++ textLines rest := by
  have hsplit : (text ++ "\n" ++ rest).toList.splitOn '\n' =
      text.toList.splitOn '\n' ++ rest.toList.splitOn '\n' := by
    rw [String.toList_append, String.toList_append, List.append_assoc]
    exact List.splitOnP_append_cons _ _ (beq_self_eq_true '\n')
  rw [textLines, hsplit, List.map_append]
  rfl

/-- The build lines of a text are those of its printed lines, each of which may hold
several. -/
theorem buildLines_printed (lines : List String) :
    buildLines (printed lines) = lines.flatMap buildLines := by
  induction lines with
  | nil => rfl
  | cons line lines ih =>
      rw [printed, List.map_cons, String.join_cons, buildLines, textLines_append,
        List.filter_append]
      exact congrArg (buildLines line ++ ·) ih

theorem textLines_of_unbroken (h : '\n' ∉ line.toList) : textLines line = [line] := by
  have hsplit : line.toList.splitOn '\n' = [line.toList] := by
    refine List.splitOnP_eq_singleton fun c hc => ?_
    rw [beq_eq_false_iff_ne]
    intro heq
    exact h (heq ▸ hc)
  rw [textLines, hsplit, List.map_singleton, String.ofList_toList]

/-- Nothing that can be read ends a line. -/
theorem endsLine_of_lex {text : List Char} {lexemes : List Lexeme} (h : lex text = some lexemes) :
    ∀ c ∈ text, endsLine c = false := by
  fun_induction lex text generalizing lexemes with
  | case1 => simp
  | case2 | case4 | case8 => cases h
  | case3 c rest hc ih =>
      obtain ⟨others, hrest, -⟩ := Option.map_eq_some_iff.mp h
      have hplain : endsLine c = false := by
        rcases hc with rfl | rfl | rfl <;> decide
      exact List.forall_mem_cons.mpr ⟨by decide, List.forall_mem_cons.mpr ⟨hplain, ih hrest⟩⟩
  | case5 rest ih | case6 rest ih | case7 rest ih =>
      obtain ⟨others, hrest, -⟩ := Option.map_eq_some_iff.mp h
      exact List.forall_mem_cons.mpr ⟨by decide, ih hrest⟩
  | case9 c rest _ _ _ _ _ hc ih =>
      obtain ⟨others, hrest, -⟩ := Option.map_eq_some_iff.mp h
      exact List.forall_mem_cons.mpr ⟨Bool.eq_false_iff.mpr hc, ih hrest⟩

theorem buildLines_buildLine {edge : Edge} (h : edge.Legible) :
    buildLines edge.buildLine = [edge.buildLine] := by
  have hunbroken : '\n' ∉ edge.buildLine.toList := fun hmem =>
    absurd (endsLine_of_lex (lex_buildLine h) _ hmem) (by decide)
  have hfirst : isBuildLine edge.buildLine = true := by
    rw [isBuildLine, List.isPrefixOf_iff_prefix, Edge.buildLine]
    simp [toString]
  rw [buildLines, textLines_of_unbroken hunbroken, List.filter_cons_of_pos hfirst, List.filter_nil]

theorem mem_doubleDollars {text : String} {c : Char} :
    c ∈ (Text.doubleDollars text).toList ↔ c ∈ text.toList := by
  rw [Text.doubleDollars, String.toList_ofList, List.mem_flatMap]
  constructor
  · rintro ⟨d, hd, hc⟩
    have heq : c = d := by
      split at hc
      · next hdollar => simpa [hdollar] using hc
      · exact List.mem_singleton.mp hc
    exact heq ▸ hd
  · intro hc
    refine ⟨c, hc, ?_⟩
    split
    · next hdollar => simp [hdollar]
    · exact List.mem_singleton_self c

/-- A dependency file whose name is one line adds no build line. -/
theorem buildLines_depfile {path : String} (h : '\n' ∉ path.toList) :
    buildLines s!"  depfile = {Text.doubleDollars path}" = [] := by
  have hunbroken : '\n' ∉ (s!"  depfile = {Text.doubleDollars path}").toList := by
    simpa [toString, mem_doubleDollars] using h
  rw [buildLines, textLines_of_unbroken hunbroken]
  simp [isBuildLine, toString]

/-- The build lines of what is printed for edges are those of their statements. -/
theorem buildLines_edgeText {file : File} (h : ∀ edge ∈ file.edges, edge.Legible) :
    buildLines file.edgeText = file.edges.map Edge.buildLine := by
  rw [File.edgeText, buildLines_printed, List.flatMap_assoc, List.map_eq_flatMap]
  refine List.flatMap_congr fun edge hedge => ?_
  have hdepfile : (edge.depfile.toList.map fun path =>
      s!"  depfile = {Text.doubleDollars path}").flatMap buildLines = [] := by
    rw [List.flatMap_map, List.flatMap_eq_nil_iff]
    intro path hpath
    exact buildLines_depfile ((h edge hedge).depfile path (Option.mem_toList.mp hpath))
  rw [Edge.lines, List.flatMap_cons, hdepfile, buildLines_buildLine (h edge hedge),
    List.append_nil]

/-! ### Rule names -/

/-- A character of a rule's name. -/
def isPlain (c : Char) : Bool := Text.isAlphanumeric c || c == '_'

theorem isAlphanumeric_hexDigits (count n : Nat) :
    ∀ c ∈ Digest.hexDigits count n, Text.isAlphanumeric c = true := by
  induction count generalizing n with
  | zero => simp [Digest.hexDigits]
  | succ count ih =>
      have hdigit : ∀ digit : Fin 16, Text.isAlphanumeric (Nat.digitChar digit) = true := by decide
      intro c hc
      rw [Digest.hexDigits, List.mem_append, List.mem_singleton] at hc
      rcases hc with hc | rfl
      · exact ih (n / 16) c hc
      · exact hdigit ⟨n % 16, Nat.mod_lt n (by decide)⟩

theorem isAlphanumeric_sha256 (message : List UInt8) :
    ∀ c ∈ (Digest.sha256 message).toList, Text.isAlphanumeric c = true := by
  intro c hc
  rw [Digest.sha256, String.toList_ofList, List.mem_flatMap] at hc
  obtain ⟨word, -, hc⟩ := hc
  exact isAlphanumeric_hexDigits 8 word.toNat c hc

theorem isPlain_ruleName (tool : String) (body : RuleBody) :
    ∀ c ∈ (Rule.ofBody tool body).name.toList, isPlain c = true := by
  intro c hc
  simp only [Rule.ofBody, String.toList_append, List.mem_append] at hc
  rcases hc with (hc | hc) | hc
  · simp only [plainName, String.toList_ofList, List.mem_map] at hc
    obtain ⟨d, -, rfl⟩ := hc
    split
    · next hd => simp [isPlain, hd]
    · decide
  · obtain rfl : c = '_' := by simpa using hc
    decide
  · rw [RuleBody.shortDigest, String.toList_ofList] at hc
    simp [isPlain, isAlphanumeric_sha256 _ c (List.mem_of_mem_take hc)]

theorem ruleName_ne_empty (tool : String) (body : RuleBody) :
    (Rule.ofBody tool body).name ≠ "" := by
  simp [Rule.ofBody]

theorem exists_of_ruleOfStep {p : Project} {id : NodeId} {step : BuildStep} {rule : Rule}
    (h : Rule.ofStep p id step = .ok rule) : ∃ body, rule = .ofBody step.tool body := by
  cases hbody : RuleBody.ofStep p id step with
  | error e => simp [Rule.ofStep, hbody, bind, Except.bind] at h
  | ok body =>
      simp only [Rule.ofStep, hbody, bind, Except.bind, pure, Except.pure, Except.ok.injEq] at h
      exact ⟨body, h.symm⟩

theorem spellable_of_plain (hne : name ≠ "") (h : ∀ c ∈ name.toList, isPlain c = true) :
    Spellable name ∧ escapePath name = name := by
  have hother : ∀ c d, isPlain c = true → isPlain d = false → c ≠ d := by
    rintro c d hc hd rfl
    rw [hc] at hd
    cases hd
  refine ⟨⟨hne, fun c hc => ⟨hother c '|' (h c hc) (by decide), ?_⟩⟩,
    escapePath_of_plain fun c hc => ⟨hother c '$' (h c hc) (by decide),
      hother c ' ' (h c hc) (by decide), hother c ':' (h c hc) (by decide)⟩⟩
  have hline : c ≠ '\n' ∧ c ≠ '\r' ∧ c ≠ '\x00' := ⟨hother c _ (h c hc) (by decide),
    hother c _ (h c hc) (by decide), hother c _ (h c hc) (by decide)⟩
  simp [endsLine, hline]

/-! ### The edges of a file -/

/-- A build line says what the node is made from, or which nodes the group stands for. -/
def Says (p : Project) (id : NodeId) (node : Node) (line : BuildLine) : Prop :=
  match node.kind with
  | .file path (some step) =>
    line.outputs = [path.spelling] ∧
      (∃ rule, Rule.ofStep p id step = .ok rule ∧ line.rule = rule.name) ∧
      line.inputs = step.sources.map p.graph.name ∧
      ∃ others : List NodeId, line.implicits = others.map p.graph.name ∧ others.Nodup ∧
        ∀ dep, dep ∈ others ↔ dep ∈ node.deps ∧ dep ∉ step.sources
  | .file _ none => False
  | .group name => line = ⟨[name], "phony", node.explicitDeps.map p.graph.name, []⟩

/-- If a step makes the node, the name of its dependency file is one line. -/
def UnbrokenDepfile (node : Node) : Prop :=
  match node.kind with
  | .file _ (some step) => ∀ path ∈ step.depfile, '\n' ∉ path.spelling.toList
  | _ => True

variable {p : Project} {node : Node}

theorem spellable_name (h : ∀ node ∈ p.graph.nodes, Spellable node.name) (id : NodeId) :
    Spellable (p.graph.name id) := by
  unfold NodeGraph.name
  cases hnode : p.graph.node? id with
  | none => exact ⟨by simp, by simp [endsLine]⟩
  | some node => exact h node (Array.mem_of_getElem? hnode)

theorem mem_implicitDeps {step : BuildStep} {dep : NodeId} :
    dep ∈ Edge.implicitDeps node step ↔ dep ∈ node.deps ∧ dep ∉ step.sources := by
  simp [Edge.implicitDeps]

theorem spellable_names (h : ∀ node ∈ p.graph.nodes, Spellable node.name) (ids : List NodeId) :
    ∀ name ∈ ids.map p.graph.name, Spellable name :=
  List.forall_mem_map.mpr fun id _ => spellable_name h id

theorem legible_ofGroup (hnode : node ∈ p.graph.nodes)
    (h : ∀ node ∈ p.graph.nodes, Spellable node.name) : (Edge.ofGroup p.graph node).Legible := by
  have hphony : Spellable "phony" ∧ escapePath "phony" = "phony" :=
    spellable_of_plain (by simp) (by simp [isPlain, Text.isAlphanumeric])
  exact ⟨h node hnode, hphony.1, hphony.2, spellable_names h _, by simp [Edge.ofGroup],
    by simp [Edge.ofGroup]⟩

theorem legible_ofStep (hnode : node ∈ p.graph.nodes)
    (h : ∀ node ∈ p.graph.nodes, Spellable node.name) {path : Path} {step : BuildStep}
    (hkind : node.kind = .file path (some step)) (hdepfile : UnbrokenDepfile node)
    (body : RuleBody) :
    (Edge.ofStep p.graph node step (Rule.ofBody step.tool body).name).Legible := by
  have hrule := spellable_of_plain (ruleName_ne_empty step.tool body)
    (isPlain_ruleName step.tool body)
  refine ⟨h node hnode, hrule.1, hrule.2, spellable_names h _, spellable_names h _, ?_⟩
  intro text htext
  obtain ⟨depfile, hsome, rfl⟩ := Option.map_eq_some_iff.mp htext
  unfold UnbrokenDepfile at hdepfile
  rw [hkind] at hdepfile
  exact hdepfile depfile hsome

/-- The edge of a node can be read, and says what the node says. -/
theorem says_of_statement? {id : NodeId} {statement : Statement}
    (hnode : node ∈ p.graph.nodes) (hnames : ∀ node ∈ p.graph.nodes, Spellable node.name)
    (hdepfile : UnbrokenDepfile node) (h : statement? p id node = .ok (some statement)) :
    statement.edge.Legible ∧ Says p id node statement.edge.content := by
  unfold statement? at h
  unfold Says
  cases hkind : node.kind with
  | group name =>
      rw [hkind] at h
      cases h
      refine ⟨legible_ofGroup hnode hnames, ?_⟩
      simp [Edge.content, Edge.ofGroup, Node.name, hkind]
  | file path step =>
      rw [hkind] at h
      cases step with
      | none => cases h
      | some step =>
          cases hrule : Rule.ofStep p id step with
          | error e => simp [hrule, bind, Except.bind] at h
          | ok rule =>
              simp only [hrule, bind, Except.bind, pure, Except.pure, Except.ok.injEq,
                Option.some.injEq] at h
              subst h
              obtain ⟨body, rfl⟩ := exists_of_ruleOfStep hrule
              refine ⟨legible_ofStep hnode hnames hkind hdepfile body, ?_⟩
              refine ⟨?_, ⟨_, hrule, rfl⟩, rfl, Edge.implicitDeps node step, rfl,
                Project.nodup_eraseDups _, fun dep => mem_implicitDeps⟩
              simp [Edge.content, Edge.ofStep, Node.name, hkind]

/-- A loop over all elements, of which only those that pass the test give something. -/
theorem forall₂_of_mapM {α β : Type} {f : α → Except BuildError (Option β)} {test : α → Bool}
    {as : List α} {R : α → β → Prop} (htest : ∀ a b, f a = .ok b → b.isSome = test a)
    (hR : ∀ a ∈ as, ∀ b, f a = .ok (some b) → R a b) {bs : List (Option β)}
    (h : as.mapM f = .ok bs) : List.Forall₂ R (as.filter test) (bs.filterMap id) := by
  induction as generalizing bs with
  | nil =>
      cases h
      exact .nil
  | cons a as ih =>
      simp only [List.mapM_cons, bind, Except.bind] at h
      cases hfirst : f a with
      | error e => simp [hfirst] at h
      | ok b =>
          cases hrest : as.mapM f with
          | error e => simp [hfirst, hrest] at h
          | ok rest =>
              simp only [hfirst, hrest, pure, Except.pure, Except.ok.injEq] at h
              subst h
              have hothers := ih (fun other hother => hR other (List.mem_cons_of_mem _ hother))
                hrest
              have hpasses := htest a b hfirst
              cases b with
              | none =>
                  rw [List.filter_cons_of_neg (by simp [← hpasses])]
                  exact hothers
              | some b =>
                  rw [List.filter_cons_of_pos (by simp [← hpasses])]
                  exact .cons (hR a List.mem_cons_self b hfirst) hothers

theorem mem_nodes_of_mem_entries {graph : NodeGraph} {entry : NodeId × Node}
    (h : entry ∈ graph.entries) : entry.2 ∈ graph.nodes := by
  rw [NodeGraph.entries, List.mem_map] at h
  obtain ⟨⟨node, index⟩, hmem, rfl⟩ := h
  exact Array.mem_toList_iff.mp (List.fst_mem_of_mem_zipIdx hmem)

theorem isSome_of_statement? {id : NodeId} {statement : Option Statement}
    (h : statement? p id node = .ok statement) : statement.isSome = node.isStated := by
  have hpath := path_of_statement? h
  rw [Node.isStated]
  unfold nodeOutput? at hpath
  cases hkind : node.kind with
  | group name =>
      rw [hkind] at hpath
      cases statement with
      | none => cases hpath
      | some statement => rfl
  | file path step =>
      rw [hkind] at hpath
      cases statement <;> cases step <;> first | rfl | cases hpath

/-- The build lines of what a file prints for its edges. There is one for each node that is
made and for each group, in the order of the nodes, and Ninja reads in it what the node
says. -/
theorem forall₂_says {text : String} (h : p.ninja = .ok text)
    (hnames : ∀ node ∈ p.graph.nodes, Spellable node.name)
    (hdepfiles : ∀ node ∈ p.graph.nodes, UnbrokenDepfile node) :
    ∃ file before after, File.ofProject p = .ok file ∧
      text = printed before ++ file.edgeText ++ printed after ∧
      List.Forall₂
        (fun (entry : NodeId × Node) line =>
          ∃ read, readLine line = some read ∧ Says p entry.1 entry.2 read)
        (p.graph.entries.filter fun entry => entry.2.isStated) (buildLines file.edgeText) := by
  cases hfile : File.ofProject p with
  | error e => simp [Project.ninja, hfile, bind, Except.bind] at h
  | ok file =>
      simp only [Project.ninja, hfile, bind, Except.bind, pure, Except.pure,
        Except.ok.injEq] at h
      obtain ⟨before, after, hrender⟩ := exists_render_eq file
      refine ⟨file, before, after, rfl, h ▸ hrender, ?_⟩
      rw [File.ofProject, statements_eq] at hfile
      cases hall : p.graph.entries.mapM fun entry => statement? p entry.1 entry.2 with
      | error e => simp [hall, bind, Except.bind] at hfile
      | ok all =>
          simp only [hall, bind, Except.bind, pure, Except.pure, Except.ok.injEq] at hfile
          have hsays : List.Forall₂
              (fun (entry : NodeId × Node) (statement : Statement) =>
                statement.edge.Legible ∧ Says p entry.1 entry.2 statement.edge.content)
              (p.graph.entries.filter fun entry => entry.2.isStated) (all.filterMap id) :=
            forall₂_of_mapM (fun entry _ => isSome_of_statement?)
              (fun entry hentry statement =>
                let hnode := mem_nodes_of_mem_entries hentry
                says_of_statement? hnode hnames (hdepfiles _ hnode)) hall
          obtain ⟨hlegible, -⟩ := (List.forall₂_and_left _ _).mp hsays.flip
          have hedges : file.edges = (all.filterMap id).map Statement.edge := by rw [← hfile]
          rw [buildLines_edgeText (hedges ▸ List.forall_mem_map.mpr hlegible), hedges,
            List.map_map, List.forall₂_map_right_iff]
          exact hsays.imp fun entry statement hread =>
            ⟨_, readLine_buildLine hread.1, hread.2⟩

/-- A file with a blank, a colon and dollars in its path that is made from another one and has
to wait for a third, and a group of it. -/
def protectedPaths : Project :=
  let step : BuildStep :=
    { tool := "copy", commandVar := "CMD", kind := .copy, sources := [⟨0⟩], command := some [] }
  { name := "demo"
    graph.nodes := #[⟨.file ⟨"a b:c"⟩ none, [], []⟩, ⟨.file ⟨"order"⟩ none, [], []⟩,
      ⟨.file ⟨"C:/my dir/$x"⟩ (some step), [⟨0⟩], [⟨1⟩, ⟨0⟩, ⟨1⟩]⟩,
      ⟨.group "all", [⟨2⟩], []⟩] }

theorem forall₂_says_protectedPaths :
    ∃ text file before after, protectedPaths.ninja = .ok text ∧
      (∀ node ∈ protectedPaths.graph.nodes, Spellable node.name) ∧
      (∀ node ∈ protectedPaths.graph.nodes, UnbrokenDepfile node) ∧
      File.ofProject protectedPaths = .ok file ∧
      text = printed before ++ file.edgeText ++ printed after ∧
      List.Forall₂
        (fun (entry : NodeId × Node) line =>
          ∃ read, readLine line = some read ∧ Says protectedPaths entry.1 entry.2 read)
        (protectedPaths.graph.entries.filter fun entry => entry.2.isStated)
        (buildLines file.edgeText) := by
  have hninja : ∃ text, protectedPaths.ninja = .ok text := ⟨_, rfl⟩
  have hnames : ∀ node ∈ protectedPaths.graph.nodes, Spellable node.name := by
    simp [protectedPaths, Spellable, Node.name, endsLine]
  have hdepfiles : ∀ node ∈ protectedPaths.graph.nodes, UnbrokenDepfile node := by
    simp [protectedPaths, UnbrokenDepfile]
  obtain ⟨text, htext⟩ := hninja
  obtain ⟨file, before, after, hfile, hrender, hsays⟩ := forall₂_says htext hnames hdepfiles
  exact ⟨text, file, before, after, htext, hnames, hdepfiles, hfile, hrender, hsays⟩

/-- A file whose dependency file has a line end in its name. -/
def brokenDepfile : Project :=
  let step : BuildStep :=
    { tool := "copy", commandVar := "CMD", kind := .copy, sources := [⟨0⟩], command := some []
      depfile := some ⟨"d\nbuild x: phony"⟩ }
  { name := "demo"
    graph.nodes := #[⟨.file ⟨"a"⟩ none, [], []⟩, ⟨.file ⟨"b"⟩ (some step), [⟨0⟩], []⟩] }

/-- The second line of the name is a build line of its own. -/
theorem not_forall_forall₂_says : ¬ ∀ (p : Project) (text : String), p.ninja = .ok text →
    (∀ node ∈ p.graph.nodes, Spellable node.name) →
    ∃ file before after, File.ofProject p = .ok file ∧
      text = printed before ++ file.edgeText ++ printed after ∧
      List.Forall₂
        (fun (entry : NodeId × Node) line =>
          ∃ read, readLine line = some read ∧ Says p entry.1 entry.2 read)
        (p.graph.entries.filter fun entry => entry.2.isStated) (buildLines file.edgeText) := by
  intro hall
  have hninja : ∃ text, brokenDepfile.ninja = .ok text := ⟨_, rfl⟩
  have hnames : ∀ node ∈ brokenDepfile.graph.nodes, Spellable node.name := by
    simp [brokenDepfile, Spellable, Node.name, endsLine]
  obtain ⟨text, htext⟩ := hninja
  obtain ⟨file, -, -, hfile, -, hsays⟩ := hall brokenDepfile text htext hnames
  have hedges : ∃ rule, file.edges = [⟨"b", rule, ["a"], [], some "d\nbuild x: phony"⟩] :=
    ⟨_, congrArg File.edges (Except.ok.inj hfile).symm⟩
  obtain ⟨rule, hedges⟩ := hedges
  have hmem : "build x: phony" ∈ buildLines file.edgeText := by
    rw [File.edgeText, buildLines_printed, hedges]
    refine List.mem_flatMap.mpr ⟨"  depfile = d\nbuild x: phony", ?_, by decide⟩
    simp [Edge.lines, Text.doubleDollars, toString]
  -- there is one node that is made, so this would be its line
  have hentries : (brokenDepfile.graph.entries.filter fun entry => entry.2.isStated) =
    [(⟨1⟩, brokenDepfile.graph.nodes[1])] := rfl
  rw [hentries, List.forall₂_cons_left_iff] at hsays
  obtain ⟨line, lines, ⟨read, hread, hsays, -⟩, hnil, heq⟩ := hsays
  rw [List.forall₂_nil_left_iff] at hnil
  rw [heq, hnil, List.mem_singleton] at hmem
  subst hmem
  have hread' : readLine "build x: phony" = some ⟨["x"], "phony", [], []⟩ := by decide
  rw [hread'] at hread
  cases hread
  exact absurd hsays (by decide)

end Ninja

end BuildPlan
