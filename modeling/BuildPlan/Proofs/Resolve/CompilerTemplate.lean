import BuildPlan.Proofs.Environment
import BuildPlan.Proofs.Resolve.CompileSteps
import BuildPlan.Proofs.Resolve.ListTemplates
import BuildPlan.Proofs.Template.Words
import BuildPlan.Toolchain.Gcc

/-!
# BuildPlan.Proofs.Resolve.CompilerTemplate

The commands of the Unix compilers. Their template is a text, which is cut into words
after its expansion. So an include directory or a definition comes out as the words that
it has, side by side, and it is one token exactly if there is no blank in it.
-/

namespace BuildPlan

/-- What stands between the blanks of a Unix compiler's template. -/
def Toolchain.unixChunks (tool : String) : List String :=
  ["$" ++ (tool ++ "." ++ "cmd"), "$" ++ (tool ++ "." ++ "flags"),
    "$" ++ (tool ++ "." ++ "includes"), "$" ++ (tool ++ "." ++ "defines"),
    "$" ++ (tool ++ "." ++ "depflags"), "-c", "-o", "$TARGET", "$SOURCE"]

/-- The command of a Unix compiler tool. -/
def Toolchain.Flavor.driver (flavor : Flavor) (tool : String) : String :=
  if tool = "cxx" then flavor.cxx else flavor.cc

/-- The fields of a Unix compiler tool as it is set up, but for its flags. -/
def Toolchain.unixFields (tool command : String) (flags : List String) : ToolFields :=
  Assoc.put "flags" (.ofTexts flags) (unixCompiler tool command).2

theorem Toolchain.unixFields_eq (tool command : String) (flags : List String) :
    unixFields tool command flags =
      [("cmd", .text command), ("flags", .ofTexts flags), ("includes", .list []),
        ("defines", .list []), ("depflags", .text ("-MD -MF " ++ (depfileTarget ++ ".d"))),
        ("objcmd", .text (unixCompileTemplate tool))] := by
  have hdepflags : s!"-MD -MF {depfileTarget}.d" = "-MD -MF " ++ (depfileTarget ++ ".d") := by
    decide
  rw [unixFields, unixCompiler, hdepflags]
  rfl

/-- A Unix toolchain is the only one of the environment. Its compilers are as it has set
them up, but for the flags. -/
structure Environment.UsesUnix (env : Environment) (flavor : Toolchain.Flavor)
    (platform : Platform) (flags : String → List String) : Prop where
  distinct : env.DistinctTools
  toolchains : env.toolchains = [.unix flavor platform]
  fields : ∀ tool ∈ ["cc", "cxx"],
    ∀ binding ∈ Toolchain.unixFields tool (flavor.driver tool) (flags tool),
      env.field? tool binding.1 = some binding.2

theorem Toolchain.unixCompileTemplate_eq (tool : String) :
    unixCompileTemplate tool = " ".intercalate (unixChunks tool) := by
  apply String.toList_injective
  simp [unixCompileTemplate, unixChunks, toString]

namespace StepContext

/-- The include directories of a Unix step, as they are shown to a compiler. -/
def includeWords (reqs : EffectiveRequirements) : List String :=
  reqs.includes.map fun dir => "-I" ++ dir.spelling

/-- The definitions of a Unix step, as they are shown to a compiler. -/
def defineWords (reqs : EffectiveRequirements) : List String := reqs.defines.map ("-D" ++ ·)

/-- A kind of field is extended by its words, if there are any. -/
theorem lookup_fieldWords (context : StepContext) (key : String) :
    context.fieldWords.lookup key = (List.lookup key
      [("includes", context.requirements.includes.map
          fun dir => context.style.includeOption ++ dir.spelling),
        ("defines", context.requirements.defines.map (context.style.defineOption ++ ·)),
        ("extra_flags", context.requirements.compileFlags),
        ("ldflags", context.requirements.linkFlags),
        ("libs", context.requirements.linkLibs.map context.style.libraryArgument),
        ("libdirs", context.requirements.linkDirs.map
          fun dir => context.style.libraryDirOption ++ dir.spelling)]).filter (!·.isEmpty) := by
  refine Assoc.lookup_filter_value ?_ (fun words : List String => !words.isEmpty) key
  have hkeys : ["includes", "defines", "extra_flags", "ldflags", "libs", "libdirs"].Nodup := by
    decide
  exact hkeys

end StepContext

namespace Resolve

open Build Project StepContext Template

variable {p q : Project} {env : Environment} {step : BuildStep} {reqs : EffectiveRequirements}
  {ns : Namespace} {tokens : List Token} {entry tool field key : String} {words own : List String}
  {value : Value}

/-! ### Entries of requirements -/

/-- The step runs a Unix compiler by the template that the toolchain has set up. -/
structure RunsUnixCompiler (p : Project) (step : BuildStep) (env : Environment)
    (reqs : EffectiveRequirements) : Prop where
  environment : step.env.bind p.environment? = some env
  kind : step.kind = .compile
  context : step.context = some { requirements := reqs, style := .unix }
  tool : step.tool = "cc" ∨ step.tool = "cxx"
  template : env.field? step.tool step.commandVar =
    some (.text (Toolchain.unixCompileTemplate step.tool))

/-- A tool's name that templates can refer to and that is not the one of a marker. -/
structure ToolName (tool : String) : Prop where
  name : isName tool.toList = true
  dotless : '.' ∉ tool.toList
  marker : ∀ m : Marker, tool ≠ m.name

theorem toolName_unix (h : tool = "cc" ∨ tool = "cxx" ∨ tool = "link") : ToolName tool := by
  rcases h with rfl | rfl | rfl
  all_goals
    refine ⟨by decide, by decide, fun m => ?_⟩
    cases m <;> decide

theorem ToolName.isName_field (h : ToolName tool) (hfield : field.toList.all isNameChar = true) :
    isName (tool ++ "." ++ field).toList = true := by
  have hchars : (tool ++ "." ++ field).toList = tool.toList ++ '.' :: field.toList := by simp
  rw [hchars]
  exact isName_append h.name (by simpa [isNameChar] using hfield)

theorem RunsUnixCompiler.toolName (h : RunsUnixCompiler p step env reqs) : ToolName step.tool :=
  toolName_unix (h.tool.imp_right .inl)

/-- The words of an extended field are on their way in the template. -/
theorem RunsUnixCompiler.carries (h : RunsUnixCompiler p step env reqs)
    (hkey : (field, key) ∈ extendedFields step.kind)
    (hwords : (fieldWords { requirements := reqs, style := .unix }).lookup key = some words)
    (hchunk : "$" ++ (step.tool ++ "." ++ field) ∈ Toolchain.unixChunks step.tool)
    (hns : env.namespaceWith (stepBindings env step) = .ok ns) (hentry : entry ∈ words)
    (hliteral : Literal entry) :
    Carries ns [] (Toolchain.unixCompileTemplate step.tool) entry := by
  have hget := get_extendedField h.context hkey hwords h.toolName.dotless hns
  have hname := h.toolName.isName_field (extendedFields_names _ _ hkey).2
  rw [Toolchain.unixCompileTemplate_eq]
  refine Carries.intercalate (Carries.reference hname fun text htext => ?_) hchunk
  obtain ⟨-, _, hvalue, hrender⟩ := referenceText_eq_ok_iff.mp htext
  rw [hget] at hvalue
  cases hvalue
  -- the entry is an item of the list that the step adds
  refine carries_of_render (List.mem_append_right _ List.mem_cons_self) hrender fun text htext => ?_
  refine carries_of_render (List.mem_map.mpr ⟨entry, hentry, rfl⟩) htext fun text htext => ?_
  cases htext
  exact hliteral.carries ns _

/-- The entries that requirements pass to a Unix compiler. -/
def unixEntries (reqs : EffectiveRequirements) : List String :=
  includeWords reqs ++ defineWords reqs

theorem ne_empty_of_unixEntries (h : entry ∈ unixEntries reqs) : entry ≠ "" := by
  have hshown : ∃ (option text : String), entry = option ++ text ∧ option ≠ "" := by
    rcases List.mem_append.mp h with h | h
    · obtain ⟨dir, -, rfl⟩ := List.mem_map.mp h
      exact ⟨"-I", dir.spelling, rfl, by decide⟩
    · obtain ⟨define, -, rfl⟩ := List.mem_map.mp h
      exact ⟨"-D", define, rfl, by decide⟩
  obtain ⟨option, text, rfl, hoption⟩ := hshown
  simp [hoption]

theorem RunsUnixCompiler.carries_entry (h : RunsUnixCompiler p step env reqs)
    (hns : env.namespaceWith (stepBindings env step) = .ok ns) (hentry : entry ∈ unixEntries reqs)
    (hliteral : Literal entry) :
    Carries ns [] (Toolchain.unixCompileTemplate step.tool) entry := by
  have hshown : ∀ {field key : String} {words : List String},
      (field, key) ∈ extendedFields .compile →
      (fieldWords { requirements := reqs, style := .unix }).lookup key =
        (some words).filter (!·.isEmpty) →
      "$" ++ (step.tool ++ "." ++ field) ∈ Toolchain.unixChunks step.tool → entry ∈ words →
      Carries ns [] (Toolchain.unixCompileTemplate step.tool) entry := by
    intro field key words hkey hlookup hchunk hmem
    have hwords : (some words).filter (!·.isEmpty) = some words :=
      Option.filter_eq_some_iff.mpr ⟨rfl, by simpa using List.ne_nil_of_mem hmem⟩
    exact h.carries (h.kind ▸ hkey) (hlookup.trans hwords) hchunk hns hmem hliteral
  rcases List.mem_append.mp hentry with hentry | hentry
  · have hkey : ("includes", "includes") ∈ extendedFields .compile := by decide
    exact hshown hkey (lookup_fieldWords _ _) (by simp [Toolchain.unixChunks]) hentry
  · have hkey : ("defines", "defines") ∈ extendedFields .compile := by decide
    exact hshown hkey (lookup_fieldWords _ _) (by simp [Toolchain.unixChunks]) hentry

/-- The words of an entry are tokens side by side, which are the entry itself exactly if
there is no blank in it. -/
def Arrives (entry : String) (tokens : List Token) : Prop :=
  (textWords entry).map Token.ofText <:+: tokens ∧
    (Token.ofText entry ∈ tokens ↔ ∀ c ∈ entry.toList, Text.isBlank c = false)

theorem RunsUnixCompiler.arrives (h : RunsUnixCompiler p step env reqs)
    (hexpand : expandStep p step = .ok (some tokens)) (hentry : entry ∈ unixEntries reqs)
    (hliteral : Literal entry) : Arrives entry tokens := by
  obtain ⟨ns, hns, hmatch⟩ := expands_of_expandStep hexpand env _ h.environment h.template
  have hcarries := h.carries_entry hns hentry hliteral
  split at hmatch
  · next found hfound =>
      cases hmatch
      rw [substTokens_text] at hfound
      obtain ⟨words, hwords, htokens⟩ := bind_eq_ok_iff.mp hfound
      cases htokens
      have hcarried := hcarries words hwords
      refine ⟨?_, ofText_mem_iff hliteral (ne_empty_of_unixEntries hentry) hwords hcarried⟩
      rw [← hliteral.map_parse]
      exact hcarried.map _
  · cases hmatch
  · exact hmatch.elim

/-! ### What the names of a template stand for -/

theorem segments_marker (m : Marker) : segments m.name = [m.name] :=
  segments_of_not_mem (by cases m <;> decide)

theorem ToolName.apart_marker (h : ToolName tool) (hfield : '.' ∉ field.toList) (m : Marker) :
    Apart (segments (tool ++ "." ++ field)) (segments m.name) := by
  rw [segments_marker, segments_field h.dotless hfield]
  simp [Apart, h.marker m, Ne.symm (h.marker m)]

/-- What a step binds by its context: fields of the step's tool. -/
theorem mem_contextBindings {context : StepContext} {binding : String × Value}
    (h : binding ∈ contextBindings env step context) :
    ∃ field key words, (field, key) ∈ extendedFields step.kind ∧
      context.fieldWords.lookup key = some words ∧ binding.1 = step.tool ++ "." ++ field := by
  obtain ⟨⟨field, key⟩, hkey, hbound⟩ := List.mem_filterMap.mp h
  obtain ⟨words, hwords, rfl⟩ := Option.map_eq_some_iff.mp hbound
  exact ⟨field, key, words, hkey, hwords, rfl⟩

theorem name_injective {m m' : Marker} (h : m.name = m'.name) : m = m' := by
  revert h
  cases m <;> cases m' <;> decide

/-- Every marker is bound once. -/
theorem exists_markerBindings_eq (m : Marker) :
    ∃ before after, markerBindings = before ++ (m.name, .marker m) :: after ∧
      ∀ binding ∈ after, ∃ other, other ≠ m ∧ binding.1 = Marker.name other := by
  have hmem : m ∈ Marker.all := by cases m <;> decide
  have hnodup : Marker.all.Nodup := by decide
  obtain ⟨before, after, hall⟩ := List.append_of_mem hmem
  rw [hall] at hnodup
  refine ⟨before.map fun m => (m.name, .marker m), after.map fun m => (m.name, .marker m), ?_,
    fun binding hbinding => ?_⟩
  · rw [markerBindings, hall, List.map_append, List.map_cons]
  · obtain ⟨other, hother, rfl⟩ := List.mem_map.mp hbinding
    refine ⟨other, ?_, rfl⟩
    rintro rfl
    exact (List.nodup_cons.mp hnodup.of_append_right).1 hother

theorem expandWords_marker {chain : List String} {m : Marker}
    (hget : ns.get m.name = some (.marker m)) (hnew : m.name ∉ chain) :
    expandWords ns chain ("$" ++ m.name) = .ok [String.singleton m.sentinel] := by
  have hfound : referenceText ns chain m.name = .ok (String.singleton m.sentinel) :=
    referenceText_eq_ok_iff.mpr ⟨hnew, _, hget, rfl⟩
  have hname : isName m.name.toList = true := by cases m <;> decide
  have hdollar : '$' ∉ (String.singleton m.sentinel).toList := by cases m <;> decide
  have hwords : wordsOf (String.singleton m.sentinel) = [String.singleton m.sentinel] := by
    cases m <;> decide
  rw [expandWords_reference hname, hfound]
  change expandWords ns (chain ++ [m.name]) (String.singleton m.sentinel) = _
  rw [expandWords, expandPieces_of_not_mem _ _ hdollar]
  exact congrArg Except.ok hwords

/-- The argument that names the dependency file beside the object. -/
theorem expandWords_depfile {chain : List String} (hget : ns.get "TARGET" = some (.marker .target))
    (hnew : "TARGET" ∉ chain) :
    expandWords ns chain (depfileTarget ++ ".d") =
      .ok [String.singleton Marker.target.sentinel ++ ".d"] := by
  have hfound : referenceText ns chain "TARGET" = .ok (String.singleton Marker.target.sentinel) :=
    referenceText_eq_ok_iff.mpr ⟨hnew, _, hget, rfl⟩
  have hpieces : pieces (depfileTarget ++ ".d").toList =
      [.reference "TARGET" true, .char '.', .char 'd'] := by cbv
  have hdollar : '$' ∉ (String.singleton Marker.target.sentinel).toList := by decide
  rw [expandWords, hpieces, expandPieces_reference hfound, expandPieces_of_not_mem _ _ hdollar,
    expandPieces, expandPieces, expandPieces]
  exact congrArg Except.ok (by decide)

section Names

variable {context : StepContext} (htool : ToolName step.tool)
  (hcontext : step.context = some context)
  (hns : env.namespaceWith (stepBindings env step) = .ok ns)

include htool hcontext hns

/-- The markers stand for themselves in the templates of a step. -/
theorem get_marker (m : Marker) : ns.get m.name = some (.marker m) := by
  obtain ⟨before, after, hmarkers, hafter⟩ := exists_markerBindings_eq m
  have hfield : ∀ {other : String}, '.' ∉ other.toList →
      Apart (segments m.name) (segments (step.tool ++ "." ++ other)) :=
    fun hother => (htool.apart_marker hother m).symm
  rw [stepBindings_eq hcontext, hmarkers, List.append_assoc, List.append_assoc,
    List.cons_append] at hns
  refine Namespace.get_layer hns fun binding hbinding => ?_
  rcases List.mem_append.mp hbinding with hbinding | hbinding
  · obtain ⟨other, hother, hname⟩ := hafter binding hbinding
    have hne : m.name ≠ other.name := fun heq => hother (name_injective heq).symm
    rw [hname, segments_marker, segments_marker]
    simp [Apart, hne, Ne.symm hne]
  rcases List.mem_append.mp hbinding with hbinding | hbinding
  · obtain ⟨other, key, -, hkey, -, hname⟩ := mem_contextBindings hbinding
    exact hname ▸ hfield (extendedFields_names _ _ hkey).1
  · exact name_of_mem_driverBindings hbinding ▸ hfield (by decide)

/-- A field that the step neither extends nor replaces is the tool's own. -/
theorem get_ownField (hdistinct : env.DistinctTools) (hfield : '.' ∉ field.toList)
    (hown : ∀ key words, (field, key) ∈ extendedFields step.kind →
      context.fieldWords.lookup key ≠ some words)
    (hdriver : field = "cmd" → driverBindings env step = [])
    (hvalue : env.field? step.tool field = some value) :
    ns.get (step.tool ++ "." ++ field) = some value := by
  refine (Namespace.get_inserts_apart hns fun binding hbinding => ?_).trans
    (hdistinct.get_field htool.dotless hfield hvalue)
  rw [stepBindings_eq hcontext] at hbinding
  rcases List.mem_append.mp hbinding with hbinding | hbinding
  · rcases List.mem_append.mp hbinding with hbinding | hbinding
    · obtain ⟨m, -, rfl⟩ := List.mem_map.mp hbinding
      exact htool.apart_marker hfield m
    · obtain ⟨other, key, words, hkey, hwords, hname⟩ := mem_contextBindings hbinding
      have hne : field ≠ other := by
        rintro rfl
        exact hown key words hkey hwords
      rw [hname]
      exact apart_fields htool.dotless hfield (extendedFields_names _ _ hkey).1 hne
  · have hne : field ≠ "cmd" := fun heq => List.ne_nil_of_mem hbinding (hdriver heq)
    rw [name_of_mem_driverBindings hbinding]
    exact apart_fields htool.dotless hfield (by decide) hne

/-- A field that the step extends spells what the tool's own field does, and the words of
the step. -/
theorem exists_spells_field (hdistinct : env.DistinctTools)
    (hkey : (field, key) ∈ extendedFields step.kind)
    (hwords : context.fieldWords.lookup key = (some words).filter (!·.isEmpty))
    (hvalue : env.field? step.tool field = some value) (hspells : Spells value own)
    (hliteral : ∀ word ∈ words, Literal word) :
    ∃ value, ns.get (step.tool ++ "." ++ field) = some value ∧ Spells value (own ++ words) := by
  cases words with
  | nil =>
      refine ⟨value, get_ownField htool hcontext hns hdistinct (extendedFields_names _ _ hkey).1
        (fun other words hother hlookup => ?_) (absurd · (ne_cmd_of_extendedFields hkey)) hvalue,
        by rwa [List.append_nil]⟩
      have hsame := List.inj_on_of_nodup_map (nodup_extendedFields step.kind) hkey hother rfl
      cases hsame
      rw [hwords] at hlookup
      cases hlookup
  | cons word rest =>
      have hget := get_extendedField hcontext hkey hwords htool.dotless hns
      rw [hvalue] at hget
      refine ⟨_, hget, ?_⟩
      have hall := spells_list (.cons hspells (.cons (spells_ofTexts hliteral) .nil))
      rwa [List.flatten_cons, List.flatten_cons, List.flatten_nil, List.append_nil] at hall

/-- A reference to a field of the tool's own comes to the words that the field spells. -/
theorem expandWords_ownField (hdistinct : env.DistinctTools) (hfield : '.' ∉ field.toList)
    (hchars : field.toList.all isNameChar = true)
    (hown : ∀ key words, (field, key) ∈ extendedFields step.kind →
      context.fieldWords.lookup key ≠ some words)
    (hdriver : field = "cmd" → driverBindings env step = [])
    (hvalue : env.field? step.tool field = some value) (hspells : Spells value own) :
    expandWords ns [] ("$" ++ (step.tool ++ "." ++ field)) = .ok (own.flatMap textWords) :=
  hspells.expandWords (htool.isName_field hchars) List.not_mem_nil
    (get_ownField htool hcontext hns hdistinct hfield hown hdriver hvalue)

/-- A reference to a field that the step extends comes to the field's words and the step's. -/
theorem expandWords_extendedField (hdistinct : env.DistinctTools)
    (hkey : (field, key) ∈ extendedFields step.kind)
    (hwords : context.fieldWords.lookup key = (some words).filter (!·.isEmpty))
    (hvalue : env.field? step.tool field = some value) (hspells : Spells value own)
    (hliteral : ∀ word ∈ words, Literal word) :
    expandWords ns [] ("$" ++ (step.tool ++ "." ++ field)) =
      .ok (own.flatMap textWords ++ words.flatMap textWords) := by
  obtain ⟨_, hget, hall⟩ :=
    exists_spells_field htool hcontext hns hdistinct hkey hwords hvalue hspells hliteral
  rw [hall.expandWords (htool.isName_field (extendedFields_names _ _ hkey).2)
    List.not_mem_nil hget, List.flatMap_append]

/-- A reference to a marker comes to its sentinel. -/
theorem expandWords_ownMarker (m : Marker) :
    expandWords ns [] ("$" ++ m.name) = .ok [String.singleton m.sentinel] :=
  expandWords_marker (get_marker htool hcontext hns m) List.not_mem_nil

/-- The options for the dependency file beside the object. -/
theorem expandWords_depflags (hdistinct : env.DistinctTools) (hkind : step.kind = .compile)
    (hvalue : env.field? step.tool "depflags" =
      some (.text ("-MD -MF " ++ (depfileTarget ++ ".d")))) :
    expandWords ns [] ("$" ++ (step.tool ++ "." ++ "depflags")) =
      .ok ["-MD", "-MF", String.singleton Marker.target.sentinel ++ ".d"] := by
  have hget : ns.get (step.tool ++ "." ++ "depflags") = some _ :=
    get_ownField htool hcontext hns hdistinct (by decide) (by simp [hkind, extendedFields])
      (absurd · (by decide)) hvalue
  have hfound : referenceText ns [] (step.tool ++ "." ++ "depflags") =
      .ok ("-MD -MF " ++ (depfileTarget ++ ".d")) :=
    referenceText_eq_ok_iff.mpr ⟨List.not_mem_nil, _, hget, rfl⟩
  have hchunks : "-MD -MF " ++ (depfileTarget ++ ".d") =
      " ".intercalate ["-MD", "-MF", depfileTarget ++ ".d"] := by decide
  have hnew : "TARGET" ∉ [step.tool ++ "." ++ "depflags"] := by
    intro hmem
    have hchars := congrArg String.toList (List.mem_singleton.mp hmem)
    have hdot : '.' ∈ "TARGET".toList := by rw [hchars]; simp
    exact absurd hdot (by decide)
  have hdepfile := expandWords_depfile (get_marker htool hcontext hns .target) hnew
  have hdeps : Literal "-MD" := by decide
  have hfile : Literal "-MF" := by decide
  rw [expandWords_reference (htool.isName_field (by decide)), hfound]
  change expandWords ns [step.tool ++ "." ++ "depflags"] _ = _
  rw [hchunks, expandWords_intercalate, List.mapM_cons, List.mapM_cons, List.mapM_cons,
    List.mapM_nil, hdeps.expandWords, hfile.expandWords, hdepfile]
  exact congrArg Except.ok (by decide)

end Names

/-! ### The exact command -/

/-- The command by which a source is compiled. -/
def compileTokens (driver : String) (flags : List String) (reqs : EffectiveRequirements) :
    List Token :=
  (driver :: (flags ++ reqs.compileFlags ++ includeWords reqs ++ defineWords reqs).flatMap
      textWords).map .ofText
    ++ [.ofText "-MD", .ofText "-MF", ⟨[.marker .target, .text ".d"]⟩, .ofText "-c", .ofText "-o",
      ⟨[.marker .target]⟩, ⟨[.marker .source]⟩]

section Exact

variable {flavor : Toolchain.Flavor} {platform : Platform} {flags : String → List String}

/-- Nothing that a compile step of the tool is told has a dollar, NUL or a marker in it. -/
def Plain (flags : List String) (reqs : EffectiveRequirements) : Prop :=
  ∀ text ∈ flags ++ reqs.compileFlags ++ reqs.includes.map Path.spelling ++ reqs.defines,
    Literal text

theorem Plain.literal {flags : List String} (h : Plain flags reqs) :
    ∀ text ∈ flags ++ reqs.compileFlags ++ includeWords reqs ++ defineWords reqs, Literal text := by
  intro text htext
  have hplain : ∀ text, text ∈ flags ∨ text ∈ reqs.compileFlags ∨
      text ∈ reqs.includes.map Path.spelling ∨ text ∈ reqs.defines → Literal text :=
    fun text htext => h text (by simpa [or_assoc] using htext)
  rcases List.mem_append.mp htext with htext | hdefine
  · rcases List.mem_append.mp htext with hflag | hinclude
    · exact hplain text ((List.mem_append.mp hflag).imp_right .inl)
    · obtain ⟨dir, hdir, rfl⟩ := List.mem_map.mp hinclude
      have hliteral := hplain dir.spelling (.inr (.inr (.inl (List.mem_map.mpr ⟨dir, hdir, rfl⟩))))
      exact Literal.append (by decide) hliteral
  · obtain ⟨define, hmem, rfl⟩ := List.mem_map.mp hdefine
    exact Literal.append (by decide) (hplain define (.inr (.inr (.inr hmem))))

theorem literal_driver (flavor : Toolchain.Flavor) (tool : String) :
    Literal (flavor.driver tool) ∧ textWords (flavor.driver tool) = [flavor.driver tool] := by
  unfold Toolchain.Flavor.driver
  split <;> cases flavor <;> decide

/-- The template of a Unix compiler comes to the words of its command. -/
theorem RunsUnixCompiler.expandWords (h : RunsUnixCompiler p step env reqs)
    (huses : env.UsesUnix flavor platform flags) (hplain : Plain (flags step.tool) reqs)
    (hns : env.namespaceWith (stepBindings env step) = .ok ns) :
    expandWords ns [] (Toolchain.unixCompileTemplate step.tool) =
      .ok (flavor.driver step.tool ::
        (flags step.tool ++ reqs.compileFlags ++ includeWords reqs ++ defineWords reqs).flatMap
          textWords ++ ["-MD", "-MF", String.singleton Marker.target.sentinel ++ ".d", "-c", "-o",
            String.singleton Marker.target.sentinel, String.singleton Marker.source.sentinel]) := by
  have htool : step.tool ∈ ["cc", "cxx"] := by
    rcases h.tool with htool | htool <;> simp [htool]
  have hfield : ∀ {field : String} {value : Value},
      (field, value) ∈ Toolchain.unixFields step.tool (flavor.driver step.tool) (flags step.tool) →
      env.field? step.tool field = some value := fun hmem => huses.fields step.tool htool _ hmem
  rw [Toolchain.unixFields_eq] at hfield
  have hliteral := hplain.literal
  simp only [List.mem_append] at hliteral
  obtain ⟨hdriver, hsingle⟩ := literal_driver flavor step.tool
  have hnone : Spells (.list []) [] := spells_list .nil
  have hdistinct := huses.distinct
  have hnothing : driverBindings env step = [] := by rw [driverBindings, h.kind]
  have hkeys : ∀ entry ∈ extendedFields .compile, entry ∈ extendedFields step.kind :=
    fun entry hentry => h.kind ▸ hentry
  have hcmd : Template.expandWords ns [] ("$" ++ (step.tool ++ "." ++ "cmd")) = _ :=
    expandWords_ownField h.toolName h.context hns hdistinct (by decide) (by decide)
      (by simp [h.kind, extendedFields]) (fun _ => hnothing) (hfield (by simp))
      (spells_text hdriver)
  have hflags := expandWords_extendedField h.toolName h.context hns hdistinct
    (hkeys ("flags", "extra_flags") (by decide)) (lookup_fieldWords _ _) (hfield (by simp))
    (spells_ofTexts fun text htext => hliteral text (.inl (.inl (.inl htext))))
    fun word hword => hliteral word (.inl (.inl (.inr hword)))
  have hincludes : Template.expandWords ns [] _ = .ok ((includeWords reqs).flatMap textWords) :=
    expandWords_extendedField h.toolName h.context hns hdistinct
      (hkeys ("includes", "includes") (by decide)) (lookup_fieldWords _ _) (hfield (by simp)) hnone
      fun word hword => hliteral word (.inl (.inr hword))
  have hdefines : Template.expandWords ns [] _ = .ok ((defineWords reqs).flatMap textWords) :=
    expandWords_extendedField h.toolName h.context hns hdistinct
      (hkeys ("defines", "defines") (by decide)) (lookup_fieldWords _ _) (hfield (by simp)) hnone
      fun word hword => hliteral word (.inr hword)
  have hdepflags := expandWords_depflags h.toolName h.context hns hdistinct h.kind
    (hfield (by simp))
  have htarget : Template.expandWords ns [] "$TARGET" = _ :=
    expandWords_ownMarker h.toolName h.context hns .target
  have hsource : Template.expandWords ns [] "$SOURCE" = _ :=
    expandWords_ownMarker h.toolName h.context hns .source
  have hobject : Literal "-c" := by decide
  have hout : Literal "-o" := by decide
  rw [List.flatMap_singleton, hsingle] at hcmd
  rw [Toolchain.unixCompileTemplate_eq, expandWords_intercalate, Toolchain.unixChunks]
  simp only [List.mapM_cons, List.mapM_nil, hcmd, hflags, hincludes, hdefines, hdepflags,
    hobject.expandWords, hout.expandWords, htarget, hsource, bind, Except.bind, pure, Except.pure]
  have hobjectWords : textWords "-c" = ["-c"] := by decide
  have houtWords : textWords "-o" = ["-o"] := by decide
  simp [hobjectWords, houtWords, List.flatMap_append]

theorem RunsUnixCompiler.expandStep_eq (h : RunsUnixCompiler p step env reqs)
    (huses : env.UsesUnix flavor platform flags) (hplain : Plain (flags step.tool) reqs)
    (hns : env.namespaceWith (stepBindings env step) = .ok ns) :
    expandStep p step =
      .ok (some (compileTokens (flavor.driver step.tool) (flags step.tool) reqs)) := by
  have hmarkers : ["-MD", "-MF", String.singleton Marker.target.sentinel ++ ".d", "-c", "-o",
      String.singleton Marker.target.sentinel, String.singleton Marker.source.sentinel].map
        Token.parse =
      [.ofText "-MD", .ofText "-MF", ⟨[.marker .target, .text ".d"]⟩, .ofText "-c", .ofText "-o",
        ⟨[.marker .target]⟩, ⟨[.marker .source]⟩] := by decide
  have htokens : substTokens (.text (Toolchain.unixCompileTemplate step.tool)) ns =
      .ok (compileTokens (flavor.driver step.tool) (flags step.tool) reqs) := by
    rw [substTokens_text, h.expandWords huses hplain hns, compileTokens, ← hmarkers, List.map_cons,
      ← (literal_driver flavor step.tool).1.parse, ← map_parse_flatMap hplain.literal,
      ← List.map_cons, ← List.map_append]
    rfl
  simp only [expandStep, h.environment, h.template, bind, Except.bind, hns, htokens]

/-- The step has a command if its template expands at all, and this one. -/
theorem RunsUnixCompiler.command_eq {command : Option (List Token)}
    (h : RunsUnixCompiler p step env reqs) (huses : env.UsesUnix flavor platform flags)
    (hplain : Plain (flags step.tool) reqs) (hexpand : expandStep p step = .ok command) :
    command = some (compileTokens (flavor.driver step.tool) (flags step.tool) reqs) := by
  obtain ⟨ns, hns, -⟩ := expands_of_expandStep hexpand env _ h.environment h.template
  rw [h.expandStep_eq huses hplain hns] at hexpand
  cases hexpand
  rfl

end Exact

end Resolve

end BuildPlan
