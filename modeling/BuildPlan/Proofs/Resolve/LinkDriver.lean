import BuildPlan.Proofs.Resolve.CompilerTemplate
import BuildPlan.Proofs.Resolve.LinkLanguage

/-!
# BuildPlan.Proofs.Resolve.LinkDriver

The compiler that drives a link step. The link templates of a Unix toolchain start with the
linker's own command. A step that links as C++ puts the command of the C++ compiler in its
place, for itself alone: the binding is one of the step's, and the environment stays as it is.
-/

namespace BuildPlan

/-- What stands between the blanks of the template by which a Unix linker makes a program. -/
def Toolchain.progChunks (tool : String) : List String :=
  ["$" ++ (tool ++ "." ++ "cmd"), "$" ++ (tool ++ "." ++ "flags"), "-o", "$" ++ Marker.target.name,
    "$" ++ Marker.sources.name, "$" ++ (tool ++ "." ++ "libdirs"), "$" ++ (tool ++ "." ++ "libs")]

/-- The toolchain is the only one of the environment, and its tools are as it has set them up. -/
structure Environment.SetUpBy (env : Environment) (tc : Toolchain) : Prop where
  distinct : env.DistinctTools
  toolchains : env.toolchains = [tc]
  fields : ∀ tool ∈ tc.tools, ∀ binding ∈ tool.2, env.field? tool.1 binding.1 = some binding.2

theorem Environment.SetUpBy.field?_eq {env : Environment} {tc : Toolchain} {tool field : String}
    {fields : ToolFields} {value : Value} (h : env.SetUpBy tc)
    (htool : tc.tools.lookup tool = some fields) (hfield : fields.lookup field = some value) :
    env.field? tool field = some value :=
  h.fields _ (Assoc.mem_of_lookup htool) _ (Assoc.mem_of_lookup hfield)

/-- An environment that has been made for a Unix toolchain. -/
def Environment.ofUnix (flavor : Toolchain.Flavor) (platform : Platform) : Environment :=
  { initial.setUp (.unix flavor platform) with toolchains := [.unix flavor platform] }

theorem Environment.withToolchain_unix (flavor : Toolchain.Flavor) (platform : Platform) :
    withToolchain (.unix flavor platform) = .ok (ofUnix flavor platform) := by
  cases flavor <;> cases platform <;> rfl

theorem Environment.setUpBy_ofUnix (flavor : Toolchain.Flavor) (platform : Platform) :
    (ofUnix flavor platform).SetUpBy (.unix flavor platform) := by
  have hsetUp := distinctTools_initial.setUp (.unix flavor platform)
  refine ⟨⟨hsetUp.tools, hsetUp.fields⟩, rfl, ?_⟩
  simp only [Toolchain.unix, Toolchain.unixTools, Toolchain.unixCompiler, List.mem_cons,
    List.not_mem_nil, or_false, forall_eq_or_imp, forall_eq]
  and_intros <;> rfl

/-- The compilers that a Unix toolchain has set up have no flags. -/
theorem Environment.SetUpBy.usesUnix {env : Environment} {flavor : Toolchain.Flavor}
    {platform : Platform} (h : env.SetUpBy (.unix flavor platform)) :
    env.UsesUnix flavor platform fun _ => [] where
  distinct := h.distinct
  toolchains := h.toolchains
  fields tool htool binding hbinding := by
    simp only [List.mem_cons, List.not_mem_nil, or_false] at htool
    rcases htool with rfl | rfl
    · exact h.fields (Toolchain.unixCompiler "cc" flavor.cc) (by simp [Toolchain.unix,
        Toolchain.unixTools]) binding hbinding
    · exact h.fields (Toolchain.unixCompiler "cxx" flavor.cxx) (by simp [Toolchain.unix,
        Toolchain.unixTools]) binding hbinding

namespace Resolve

open Build NodeGraph Project Template

variable {p q r b compiled expanded copied installed : Project} {id : TargetId} {node : NodeId}
  {env : Environment} {step : BuildStep} {t : Target} {order : List TargetId}
  {flavor : Toolchain.Flavor} {platform : Platform} {ns : Namespace} {tokens : List Token}
  {first : String} {rest front words : List String} {u : Unit}

/-- The tool whose command links a language. -/
def linkTool (language : Option String) : String := if language = some "cxx" then "cxx" else "link"

/-- The command by which a program is linked without any requirements. -/
def bareLinkTokens (driver : String) : List Token :=
  [.ofText driver, .ofText "-o", ⟨[.marker .target]⟩, ⟨[.marker .sources]⟩]

/-- The step links in an environment that a Unix toolchain has set up, by a template of its
linker. -/
structure RunsUnixLinker (p : Project) (step : BuildStep) (env : Environment)
    (flavor : Toolchain.Flavor) (platform : Platform) : Prop where
  environment : step.env.bind p.environment? = some env
  setUp : env.SetUpBy (.unix flavor platform)
  kind : step.kind = .link
  context : ∃ context, step.context = some context
  tool : step.tool = "link"
  commandVar : step.commandVar = "progcmd" ∨ step.commandVar = "sharedcmd"
  language : step.language = some "cxx" ∨ step.language = some "c"

/-! ### Templates that start with a reference -/

/-- The words of the first stretch of a template come first. -/
theorem isPrefix_of_expandWords {chain : List String}
    (hfirst : expandWords ns chain first = .ok front)
    (h : expandWords ns chain (" ".intercalate (first :: rest)) = .ok words) : front <+: words := by
  rw [expandWords_intercalate] at h
  obtain ⟨parts, hparts, h⟩ := bind_eq_ok_iff.mp h
  cases h
  rw [List.mapM_cons, hfirst] at hparts
  obtain ⟨_, hown, hparts⟩ := bind_eq_ok_iff.mp hparts
  cases hown
  obtain ⟨others, -, hparts⟩ := bind_eq_ok_iff.mp hparts
  cases hparts
  exact ⟨others.flatten, rfl⟩

section Step

variable (h : RunsUnixLinker p step env flavor platform)

include h

theorem RunsUnixLinker.template :
    ∃ rest, env.field? step.tool step.commandVar =
      some (.text (" ".intercalate ["$" ++ (step.tool ++ "." ++ "cmd"), rest])) := by
  rw [h.tool]
  rcases h.commandVar with hvar | hvar <;> rw [hvar]
  · refine ⟨"$link.flags -o $TARGET $SOURCES $link.libdirs $link.libs", ?_⟩
    refine h.setUp.field?_eq rfl rfl
  · refine ⟨Toolchain.sharedFlag platform ++
      " $link.flags -o $TARGET $SOURCES $link.libdirs $link.libs", ?_⟩
    refine h.setUp.field?_eq rfl ?_
    cases platform <;> rfl

theorem RunsUnixLinker.field_cmd {tool : String} (htool : tool = "cxx" ∨ tool = "link") :
    env.field? tool "cmd" = some (.text (flavor.driver tool)) := by
  rcases htool with rfl | rfl <;> exact h.setUp.field?_eq rfl rfl

theorem RunsUnixLinker.driverCommand_eq : driverCommand env step =
    if step.language = some "cxx" then some (.text (flavor.driver "cxx")) else none := by
  have htoolchain : env.toolchain = some (.unix flavor platform) := by
    rw [Environment.toolchain, h.setUp.toolchains]
    rfl
  rcases h.language with hlanguage | hlanguage
  · rw [driverCommand, htoolchain, hlanguage, h.tool]
    exact h.field_cmd (.inl rfl)
  · rw [driverCommand, htoolchain, hlanguage]
    rfl

theorem RunsUnixLinker.toolName : ToolName step.tool := toolName_unix (.inr (.inr h.tool))

/-- Under the bindings of the step the linker's command is that of the compiler that drives it. -/
theorem RunsUnixLinker.get_cmd (hns : env.namespaceWith (stepBindings env step) = .ok ns) :
    ns.get (step.tool ++ "." ++ "cmd") =
      some (.text (flavor.driver (linkTool step.language))) := by
  obtain ⟨context, hcontext⟩ := h.context
  have hdriver := h.driverCommand_eq
  unfold linkTool
  split at hdriver
  · next hcxx =>
      rw [stepBindings_eq hcontext, driverBindings, h.kind, hdriver] at hns
      rw [if_pos hcxx]
      exact Namespace.get_layer hns (by simp)
  · next hother =>
      rw [if_neg hother]
      refine get_ownField h.toolName hcontext hns h.setUp.distinct (by decide)
        (by simp [h.kind, extendedFields]) (fun _ => ?_) ?_
      · rw [driverBindings, h.kind, hdriver]
        rfl
      · rw [h.tool]
        exact h.field_cmd (.inr rfl)

/-- The command of the step starts with the words of the one that drives it. -/
theorem RunsUnixLinker.isPrefix (hexpand : expandStep p step = .ok (some tokens)) :
    (textWords (flavor.driver (linkTool step.language))).map Token.ofText <+: tokens := by
  obtain ⟨rest, htemplate⟩ := h.template
  obtain ⟨ns, hns, hmatch⟩ :=
    expands_of_expandStep hexpand env _ h.environment htemplate
  obtain ⟨hliteral, -⟩ := literal_driver flavor (linkTool step.language)
  have hfirst : expandWords ns [] ("$" ++ (step.tool ++ "." ++ "cmd")) = _ :=
    (spells_text hliteral).expandWords (h.toolName.isName_field (by decide)) List.not_mem_nil
      (h.get_cmd hns)
  split at hmatch
  · next found hfound =>
      cases hmatch
      rw [substTokens_text] at hfound
      obtain ⟨words, hwords, htokens⟩ := bind_eq_ok_iff.mp hfound
      cases htokens
      have hprefix := isPrefix_of_expandWords hfirst hwords
      rw [List.flatMap_singleton] at hprefix
      rw [← hliteral.map_parse]
      exact hprefix.map Token.parse
  · cases hmatch
  · exact hmatch.elim

/-- Without requirements a program is linked by its driver from its sources alone. -/
theorem RunsUnixLinker.expandStep_bare (hvar : step.commandVar = "progcmd")
    (hcontext : step.context = some { requirements := {}, style := .unix })
    (hns : env.namespaceWith (stepBindings env step) = .ok ns) :
    expandStep p step = .ok (some (bareLinkTokens (flavor.driver (linkTool step.language)))) := by
  have htemplate : env.field? step.tool step.commandVar =
      some (.text (" ".intercalate (Toolchain.progChunks step.tool))) := by
    rw [h.tool, hvar]
    exact h.setUp.field?_eq rfl rfl
  obtain ⟨hliteral, hsingle⟩ := literal_driver flavor (linkTool step.language)
  have hcmd : expandWords ns [] ("$" ++ (step.tool ++ "." ++ "cmd")) = _ :=
    (spells_text hliteral).expandWords (h.toolName.isName_field (by decide)) List.not_mem_nil
      (h.get_cmd hns)
  rw [List.flatMap_singleton, hsingle] at hcmd
  -- the lists of the linker are empty as they are set up
  have hempty : ∀ field ∈ ["flags", "libdirs", "libs"],
      expandWords ns [] ("$" ++ (step.tool ++ "." ++ field)) = .ok [] := by
    intro field hfield
    obtain ⟨hvalue, hdotless, hchars, hcmd⟩ : env.field? step.tool field = some (.list []) ∧
        '.' ∉ field.toList ∧ field.toList.all isNameChar = true ∧ field ≠ "cmd" := by
      rw [h.tool]
      simp only [List.mem_cons, List.not_mem_nil, or_false] at hfield
      rcases hfield with rfl | rfl | rfl <;>
        exact ⟨h.setUp.field?_eq rfl rfl, by decide, by decide, by decide⟩
    exact expandWords_ownField h.toolName hcontext hns h.setUp.distinct hdotless hchars
      (by simp [StepContext.fieldWords]) (absurd · hcmd) hvalue (spells_list .nil)
  have hmarker := expandWords_ownMarker h.toolName hcontext hns
  have hout : Literal "-o" := by decide
  have houtWords : textWords "-o" = ["-o"] := by decide
  have hwords : expandWords ns [] (" ".intercalate (Toolchain.progChunks step.tool)) =
      .ok [flavor.driver (linkTool step.language), "-o", String.singleton Marker.target.sentinel,
        String.singleton Marker.sources.sentinel] := by
    rw [expandWords_intercalate, Toolchain.progChunks]
    simp only [List.mapM_cons, List.mapM_nil, hcmd, hempty, hout.expandWords, hmarker, bind,
      Except.bind, pure, Except.pure, List.mem_cons, true_or, or_true, houtWords]
    rfl
  have htokens : substTokens (.text (" ".intercalate (Toolchain.progChunks step.tool))) ns =
      .ok (bareLinkTokens (flavor.driver (linkTool step.language))) := by
    rw [substTokens_text, hwords, bareLinkTokens, ← hliteral.parse]
    rfl
  simp only [expandStep, h.environment, htemplate, bind, Except.bind, hns, htokens]

end Step

/-! ### Link steps -/

/-- In the environment of a Unix toolchain a link step runs its linker. -/
theorem LinkedIn.runsUnixLinker (hfresh : p.Fresh)
    (hruns : Runs p order compiled expanded copied installed q)
    (h : LinkedIn p compiled q node step id t r b) (hkind : step.kind = .link)
    (henv : step.env.bind q.environment? = some env)
    (hsetUp : env.SetUpBy (.unix flavor platform)) :
    RunsUnixLinker q step env flavor platform := by
  obtain ⟨envId, reqs, htarget, heq⟩ := h.made
  -- the target had its environment then
  have hthen : r.targetEnvironment? id = some env := by
    have hbefore := (Changes.ledger hfresh h.turn.before (.of_fresh hfresh)).fixed
    have hafter := ((hruns.parts hfresh.sound).ledger hfresh).fixed
    have hown : some envId = step.env := congrArg BuildStep.env heq
    have hnow : q.targetEnvironment? id = some env := by
      rw [Project.targetEnvironment?, h.target, Option.bind_some, htarget, hown, henv]
    rw [hbefore.targetEnvironment? id, ← hafter.targetEnvironment? id, hnow]
  have hprimary : primaryToolchain r id = some (.unix flavor platform) := by
    rw [primaryToolchain, hthen, Option.bind_some, Environment.toolchain, hsetUp.toolchains]
    rfl
  have htool : step.tool = "link" := by
    refine (congrArg BuildStep.tool heq).symm.trans ?_
    rw [linkStep, hprimary]
    rfl
  have hvar : step.commandVar = outputVar r id t := (congrArg BuildStep.commandVar heq).symm
  rw [outputVar, hprimary] at hvar
  refine ⟨henv, hsetUp, hkind, ⟨_, (congrArg BuildStep.context heq).symm⟩, htool, ?_, ?_⟩
  · rcases h.type with htype | htype <;> rw [htype] at hvar
    · exact .inl hvar
    · exact .inr hvar
  · have hlanguage : some (linkLanguage r id) = step.language := congrArg BuildStep.language heq
    rw [← hlanguage, linkLanguage_eq]
    split
    · exact .inl rfl
    · exact .inr rfl

/-- A step links as C++ exactly if its target or one that it reaches compiles a source as C++ or
Objective-C++, and as C otherwise. Where a Unix toolchain is all that there is, its command
starts with the one of the compiler that links the language. The environments stay as they are. -/
theorem link_language_exact {exist : Path → Bool} (hfresh : p.Fresh)
    (hnone : ∀ id t, p.target? id = some t → t.languages = [])
    (hrun : Yields (Project.resolve exist) p u q) :
    (∀ node step, q.graph.step? node = some step → step.kind = .link →
      ∃ id, LinkedFor q id node ∧ (∀ other, LinkedFor q other node → other = id) ∧
        (step.language = some "cxx" ↔ p.SpeaksCxx id) ∧
        (¬ p.SpeaksCxx id → step.language = some "c") ∧
        ∀ env flavor platform tokens, step.env.bind q.environment? = some env →
          env.SetUpBy (.unix flavor platform) → step.command = some tokens →
          ∃ cmd, env.field? (linkTool step.language) "cmd" = some (.text cmd) ∧
            (textWords cmd).map Token.ofText <+: tokens) ∧
    q.environments = p.environments := by
  obtain ⟨order, compiled, expanded, copied, installed, hruns⟩ :=
    yields_resolveAll_iff.mp (resolve_inv hrun)
  have hparts := hruns.parts hfresh.sound
  have hnothing : ∀ id, p.languagesOf id = [] := by
    intro id
    rw [languagesOf]
    cases ht : p.target? id with
    | none => rfl
    | some t => exact hnone id t ht
  refine ⟨fun node step hstep hkind => ?_, (hparts.ledger hfresh).fixed.environments⟩
  obtain ⟨id, t, r, b, hlinked⟩ := hruns.exists_linkedIn hfresh hstep hkind
  have hfor : LinkedFor q id node := ⟨t, hlinked.target, hlinked.type, hlinked.output⟩
  obtain ⟨hiff, helse⟩ := hlinked.language_iff hfresh hnothing hruns
  refine ⟨id, hfor, fun other hother => hfor.unique hfresh hruns hother, hiff, helse,
    fun env flavor platform tokens henv hsetUp htokens => ?_⟩
  have hlinker := hlinked.runsUnixLinker hfresh hruns hkind henv hsetUp
  have hcommand := hparts.command_of_step hfresh hstep
  rw [if_neg (by simp [hkind]), htokens] at hcommand
  refine ⟨_, hlinker.field_cmd ?_, hlinker.isPrefix hcommand⟩
  rw [linkTool]
  split
  · exact .inl rfl
  · exact .inr rfl

/-! ### A program in C with an object in C++ -/

/-- `p` compiles `m.c` and takes in the object of `x.cpp`. -/
def bilingual : Project where
  name := "bilingual"
  environments := #[.ofUnix .gcc .linux]
  targets := #[
    { name := "p", type := .program, env := some ⟨0⟩, sources := [⟨0⟩], dependencies := [⟨1⟩] },
    { name := "o", type := .object, env := some ⟨0⟩, sources := [⟨1⟩] }]
  graph := ((NodeGraph.file {} ⟨"m.c"⟩).2.file ⟨"x.cpp"⟩).2

/-- The project, of which one target has collected that nothing is required of it. -/
def collectedNothing (p : Project) (id : TargetId) : Project :=
  p.modifyTarget id fun t => { t with collected := some {} }

/-- The project once the object has been compiled. -/
def bilingualOnce : Project :=
  ((resolveTarget ⟨1⟩).run.run (collectedNothing bilingual ⟨1⟩)).2

/-- The project once the program has been made too. -/
def bilingualCompiled : Project :=
  ((resolveTarget ⟨0⟩).run.run (collectedNothing bilingualOnce ⟨0⟩)).2

theorem fresh_bilingual : bilingual.Fresh := by
  have hnew : Fresh { name := "bilingual", environments := #[.ofUnix .gcc .linux] } :=
    (fresh_new "bilingual" ⟨"."⟩ ⟨"build"⟩ false).withEnvironments _
  refine ((hnew.file ⟨"m.c"⟩).file ⟨"x.cpp"⟩).withTargets fun t ht => ?_
  simp only [List.mem_toArray, List.mem_cons, List.not_mem_nil, or_false] at ht
  have hsize : ∀ node : NodeId, node.index < 2 → node.index < bilingual.graph.size :=
    fun _ hlt => hlt
  rcases ht with rfl | rfl
  all_goals
    refine ⟨rfl, rfl, rfl, by simp, fun node hnode => hsize node ?_⟩
    simp only [Target.nodes, Option.toList_none, List.flatMap_nil, List.append_nil,
      List.mem_singleton] at hnode
    rw [hnode]
    decide

theorem yields_bilingual_turns :
    Yields ([(⟨1⟩ : TargetId), ⟨0⟩].forM resolveTarget) bilingual ⟨⟩ bilingualCompiled := by
  have hgather : bilingual.gatherRequirements ⟨1⟩ = {} ∧ bilingual.gatherRequirements ⟨0⟩ = {} := by
    constructor <;> cbv
  have hfirst : Yields (resolveTarget ⟨1⟩) bilingual () bilingualOnce := by
    rw [yields_resolveTarget_collected rfl rfl rfl rfl rfl hgather.1]
    exact Prod.ext rfl rfl
  -- the first turn does not touch what the other target is to collect
  have hfixed := (resolveTarget_changes fresh_bilingual.sound hfirst).fixed
  have hsame : bilingualOnce.gatherRequirements = bilingual.gatherRequirements :=
    gatherRequirements_congr hfixed.environments hfixed.size (hfixed.map fun _ => rfl)
  have hsecond : Yields (resolveTarget ⟨0⟩) bilingualOnce () bilingualCompiled := by
    rw [yields_resolveTarget_collected rfl rfl rfl rfl rfl ((congrFun hsame _).trans hgather.2)]
    exact Prod.ext rfl rfl
  exact yields_bind.mpr ⟨⟨⟩, _, hfirst, yields_bind.mpr ⟨⟨⟩, _, hsecond,
    yields_pure.mpr ⟨rfl, rfl⟩⟩⟩

/-- How the sources of the two targets are compiled. -/
def bilingualCompile (tool language : String) (source : NodeId) (place : Path) : BuildStep :=
  compileStep (.unix .gcc .linux)
    (SourceHandler.withDepfile { tool, language, objectSuffix := ".o" }) ⟨0⟩ source place {}

theorem steps_bilingualCompiled :
    bilingualCompiled.graph.ids = [⟨0⟩, ⟨1⟩, ⟨2⟩, ⟨3⟩, ⟨4⟩] ∧
      bilingualCompiled.graph.step? ⟨0⟩ = none ∧ bilingualCompiled.graph.step? ⟨1⟩ = none ∧
      bilingualCompiled.graph.step? ⟨2⟩ =
        some (bilingualCompile "cxx" "cxx" ⟨1⟩ ⟨"build/obj.o/x.o"⟩) ∧
      bilingualCompiled.graph.step? ⟨3⟩ =
        some (bilingualCompile "cc" "c" ⟨0⟩ ⟨"build/obj.p/m.o"⟩) ∧
      (bilingualCompiled.graph.step? ⟨4⟩).map
          (fun step => { step with language := none, sources := [] }) =
        some { tool := "link", commandVar := "progcmd", kind := .link, env := some ⟨0⟩
               context := some { requirements := {}, style := .unix } } := by
  and_intros <;> decide +kernel

/-- The program is linked without requirements. -/
theorem runsUnixLinker_bilingual (hstep : bilingualCompiled.graph.step? ⟨4⟩ = some step) :
    RunsUnixLinker bilingualCompiled step (.ofUnix .gcc .linux) .gcc .linux ∧
      step.env = some ⟨0⟩ ∧ step.commandVar = "progcmd" ∧
      step.context = some { requirements := {}, style := .unix } ∧ step.command = none := by
  obtain ⟨-, -, -, -, -, hlink⟩ := steps_bilingualCompiled
  have hlanguage : ∃ r, (bilingualCompiled.graph.step? ⟨4⟩).map BuildStep.language =
      some (some (linkLanguage r ⟨0⟩)) := ⟨_, rfl⟩
  obtain ⟨r, hlanguage⟩ := hlanguage
  rw [hstep, Option.map_some, Option.some.injEq] at hlink hlanguage
  have hcontext : step.context = some { requirements := {}, style := .unix } :=
    congrArg BuildStep.context hlink
  have henv : step.env = some ⟨0⟩ := congrArg BuildStep.env hlink
  have hvar : step.commandVar = "progcmd" := congrArg BuildStep.commandVar hlink
  refine ⟨⟨?_, Environment.setUpBy_ofUnix _ _, congrArg BuildStep.kind hlink, ⟨_, hcontext⟩,
    congrArg BuildStep.tool hlink, .inl hvar, ?_⟩, henv, hvar, hcontext,
    congrArg BuildStep.command hlink⟩
  · rw [henv]
    rfl
  · rw [hlanguage, linkLanguage_eq]
    split
    · exact .inl rfl
    · exact .inr rfl

theorem expandStep_bilingual (hstep : bilingualCompiled.graph.step? node = some step) :
    ∃ tokens, expandStep bilingualCompiled step = .ok (some tokens) := by
  obtain ⟨hids, hmain, hother, hobject, hown, -⟩ := steps_bilingualCompiled
  have hcompiles : ∀ tool language source place, tool = "cc" ∨ tool = "cxx" →
      ∃ tokens, expandStep bilingualCompiled (bilingualCompile tool language source place) =
        .ok (some tokens) := by
    intro tool language source place htool
    have hruns : RunsUnixCompiler bilingualCompiled (bilingualCompile tool language source place)
        (.ofUnix .gcc .linux) {} := by
      refine ⟨rfl, rfl, rfl, htool, ?_⟩
      rcases htool with rfl | rfl <;> rfl
    have hplain : Plain [] {} := by simp [Plain]
    have hlayer : ∃ ns, (Environment.ofUnix .gcc .linux).namespaceWith (stepBindings
        (.ofUnix .gcc .linux) (bilingualCompile tool language source place)) = .ok ns := by
      rcases htool with rfl | rfl <;> exact ⟨_, rfl⟩
    obtain ⟨ns, hns⟩ := hlayer
    exact ⟨_, hruns.expandStep_eq (Environment.setUpBy_ofUnix _ _).usesUnix hplain hns⟩
  have hnode : node ∈ bilingualCompiled.graph.ids.drop 0 := by
    obtain ⟨path, hkind⟩ := step?_eq_some_iff.mp hstep
    exact mem_ids_drop.mpr ⟨Nat.zero_le _, lt_size_of_kind? hkind⟩
  rw [List.drop_zero, hids] at hnode
  simp only [List.mem_cons, List.not_mem_nil, or_false] at hnode
  rcases hnode with rfl | rfl | rfl | rfl | rfl
  · simp [hmain] at hstep
  · simp [hother] at hstep
  · rw [hobject, Option.some.injEq] at hstep
    exact hstep ▸ hcompiles _ _ _ _ (.inr rfl)
  · rw [hown, Option.some.injEq] at hstep
    exact hstep ▸ hcompiles _ _ _ _ (.inl rfl)
  · obtain ⟨hruns, -, hvar, hcontext, -⟩ := runsUnixLinker_bilingual hstep
    have hlayer : ∃ ns, (Environment.ofUnix .gcc .linux).namespaceWith
        (stepBindings (.ofUnix .gcc .linux) step) = .ok ns := by
      rw [stepBindings_eq hcontext, contextBindings, driverBindings, hruns.kind, hruns.tool,
        hruns.driverCommand_eq]
      rcases hruns.language with hlanguage | hlanguage <;>
        rw [hlanguage] <;> exact ⟨_, rfl⟩
    obtain ⟨ns, hns⟩ := hlayer
    exact ⟨_, hruns.expandStep_bare hvar hcontext hns⟩

/-- Once the targets have had their turns, the commands are all that is left. -/
theorem exists_yields_bilingual_commands :
    ∃ q, Yields (expandCommands 0) bilingualCompiled () q ∧
      Yields (Project.resolve fun _ => true) bilingual () q := by
  have hordered : bilingual.buildOrder = .ok [⟨1⟩, ⟨0⟩] := by cbv
  have hsteps : ∀ node step, bilingualCompiled.graph.step? node = some step →
      ∃ command, expandStep bilingualCompiled step = .ok command := by
    intro node step hstep
    obtain ⟨tokens, hexpand⟩ := expandStep_bilingual hstep
    exact ⟨some tokens, hexpand⟩
  obtain ⟨q, hcommands⟩ := exists_yields_expandCommands_of_steps 0 hsteps
  have hidle : (∀ id ∈ [(⟨1⟩ : TargetId), ⟨0⟩], bilingualCompiled.plan? id = none) ∧
      bilingualCompiled.groups = [] ∧ bilingualCompiled.strict = false := by
    simp only [List.mem_cons, List.not_mem_nil, or_false, forall_eq_or_imp, forall_eq]
    and_intros <;> rfl
  exact ⟨q, hcommands, yields_resolve_of_commands hordered yields_bilingual_turns hcommands
    hidle.1 hidle.2.1 hidle.2.2⟩

theorem exists_yields_bilingual : ∃ q, Yields (Project.resolve fun _ => true) bilingual () q ∧
    LinkedFor q ⟨0⟩ ⟨4⟩ ∧ ∃ step tokens, q.graph.step? ⟨4⟩ = some step ∧ step.kind = .link ∧
      step.env = some ⟨0⟩ ∧ step.command = some tokens := by
  obtain ⟨q, hcommands, hrun⟩ := exists_yields_bilingual_commands
  have hkept : q.target? ⟨0⟩ = bilingualCompiled.target? ⟨0⟩ :=
    ((leads_expandCommands 0 bilingualCompiled).yields hcommands).target? ⟨0⟩
  have htarget : (bilingualCompiled.target? ⟨0⟩).map (fun t => (t.type, t.outputs)) =
      some (.program, [⟨4⟩]) := by decide +kernel
  obtain ⟨t, ht, heq⟩ := Option.map_eq_some_iff.mp htarget
  obtain ⟨htype, houtputs⟩ := Prod.mk.inj heq
  obtain ⟨step, hstep, -⟩ := Option.map_eq_some_iff.mp steps_bilingualCompiled.2.2.2.2.2
  obtain ⟨path, hkind⟩ := step?_eq_some_iff.mp hstep
  obtain ⟨hruns, henv, -, -, hcommand⟩ := runsUnixLinker_bilingual hstep
  obtain ⟨tokens, hexpand⟩ := expandStep_bilingual hstep
  obtain ⟨command, hexpand', hafter⟩ := (expanded_expandCommands hcommands).expanded ⟨4⟩
    (mem_ids_drop.mpr ⟨Nat.zero_le _, lt_size_of_kind? hkind⟩) path step hkind hcommand
  rw [hexpand] at hexpand'
  cases hexpand'
  have hfor : LinkedFor q ⟨0⟩ ⟨4⟩ := by
    refine ⟨t, hkept.trans ht, .inl htype, ?_⟩
    rw [houtputs]
    exact List.mem_singleton_self _
  have hstep' : q.graph.step? ⟨4⟩ = some { step with command := some tokens } :=
    step?_eq_some_iff.mpr ⟨path, hafter⟩
  exact ⟨q, hrun, hfor, _, tokens, hstep', hruns.kind, henv, rfl⟩

theorem link_language_exact_bilingual :
    bilingual.Fresh ∧ (∀ id t, bilingual.target? id = some t → t.languages = []) ∧
      ∃ q, Yields (Project.resolve fun _ => true) bilingual () q ∧
        ∃ step tokens, q.graph.step? ⟨4⟩ = some step ∧ step.language = some "cxx" ∧
          step.command = some tokens ∧ [Token.ofText "g++"] <+: tokens := by
  have hnone : ∀ id t, bilingual.target? id = some t → t.languages = [] := by
    rintro ⟨_ | _ | i⟩ t ht <;> cases ht <;> rfl
  obtain ⟨q, hrun, hfor, step, tokens, hstep, hkind, henv, hcommand⟩ :=
    exists_yields_bilingual
  obtain ⟨hlinks, hsame⟩ := link_language_exact fresh_bilingual hnone hrun
  obtain ⟨id, -, hunique, hiff, -, hcommands⟩ := hlinks ⟨4⟩ step hstep hkind
  obtain rfl := hunique ⟨0⟩ hfor
  -- the object that the program takes in is compiled as C++
  have hspeaks : bilingual.SpeaksCxx ⟨0⟩ := by
    refine ⟨⟨1⟩, .inr (.single ?_), .inl ⟨.ofUnix .gcc .linux, rfl, ⟨1⟩, by decide +kernel, rfl⟩⟩
    exact ⟨by decide, by decide, List.mem_singleton_self _⟩
  have hlanguage := hiff.mpr hspeaks
  have hfound : step.env.bind q.environment? = some (.ofUnix .gcc .linux) := by
    rw [henv, Option.bind_some, environment?_congr hsame]
    rfl
  obtain ⟨cmd, hcmd, hprefix⟩ :=
    hcommands _ _ _ tokens hfound (Environment.setUpBy_ofUnix .gcc .linux) hcommand
  rw [linkTool, if_pos hlanguage] at hcmd
  cases hcmd
  exact ⟨fresh_bilingual, hnone, q, hrun, step, tokens, hstep, hlanguage, hcommand, hprefix⟩

end Resolve

end BuildPlan
