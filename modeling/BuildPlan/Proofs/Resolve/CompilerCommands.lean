import BuildPlan.Proofs.Resolve.CompilerTemplate
import BuildPlan.Proofs.Resolve.Scopes

/-!
# BuildPlan.Proofs.Resolve.CompilerCommands

The commands of the objects that a Unix toolchain compiles. Each has the driver, the flags,
the include directories and the definitions that were declared for its target, in this
order. What has a blank in it is cut into words on the way.
-/

namespace BuildPlan.Resolve

open Build Project StepContext Template

variable {p q : Project} {env : Environment} {tc : Toolchain} {handler : SourceHandler}
  {flavor : Toolchain.Flavor} {platform : Platform} {flags : String → List String}
  {suffix : String} {id : TargetId} {source node : NodeId} {step : BuildStep} {u : Unit}

/-! ### Sources of Unix toolchains -/

theorem findHandler_inv (h : findHandler env suffix = some (tc, handler)) :
    tc ∈ env.toolchains ∧ tc.sourceHandler suffix = some handler := by
  obtain ⟨known, hknown, hfound⟩ := List.exists_of_findSome?_eq_some h
  obtain ⟨found, hhandler, hfound⟩ := Option.bind_eq_some_iff.mp hfound
  split at hfound
  · cases hfound
    exact ⟨hknown, hhandler⟩
  · cases hfound

theorem sourceHandler_unix
    (h : (Toolchain.unix flavor platform).sourceHandler suffix = some handler) :
    (handler.tool = "cc" ∨ handler.tool = "cxx") ∧ handler.commandVar = "objcmd" := by
  have hall : ∀ entry ∈ Toolchain.unixHandlers,
      (entry.2.tool = "cc" ∨ entry.2.tool = "cxx") ∧ entry.2.commandVar = "objcmd" := by decide
  exact hall _ (Assoc.mem_of_lookup h)

/-- A source of a Unix toolchain is compiled by one of its compilers. -/
theorem CompiledBy.runsUnixCompiler
    (h : CompiledBy p q id source node env (.unix flavor platform) handler step)
    (hsame : q.environments = p.environments)
    (htemplate : env.field? step.tool step.commandVar =
      some (.text (Toolchain.unixCompileTemplate step.tool))) :
    RunsUnixCompiler q step env ((effectiveRequirements id .compile).run p).1 := by
  obtain ⟨envId, henv, hhandles, place, hstep⟩ := h.compiles
  obtain ⟨htool, -⟩ := sourceHandler_unix (findHandler_inv hhandles).2
  have htools : step.tool = handler.tool := congrArg BuildStep.tool hstep
  have henvs : step.env = some envId := congrArg BuildStep.env hstep
  refine ⟨?_, congrArg BuildStep.kind hstep, congrArg BuildStep.context hstep, ?_, htemplate⟩
  · rw [henvs, Option.bind_some, Project.environment?_congr hsame, henv]
  · rwa [htools]

/-- Where a Unix toolchain is used as it is set up, its template is in place. -/
theorem CompiledBy.template (h : CompiledBy p q id source node env tc handler step)
    (huses : env.UsesUnix flavor platform flags) :
    tc = .unix flavor platform ∧ (step.tool = "cc" ∨ step.tool = "cxx") ∧
      env.field? step.tool step.commandVar =
        some (.text (Toolchain.unixCompileTemplate step.tool)) := by
  obtain ⟨envId, henv, hhandles, place, hstep⟩ := h.compiles
  obtain ⟨htc, hhandler⟩ := findHandler_inv hhandles
  rw [huses.toolchains, List.mem_singleton] at htc
  cases htc
  obtain ⟨htool, hvar⟩ := sourceHandler_unix hhandler
  have htools : step.tool = handler.tool := congrArg BuildStep.tool hstep
  have hvars : step.commandVar = handler.commandVar := congrArg BuildStep.commandVar hstep
  rw [← htools] at htool
  refine ⟨rfl, htool, ?_⟩
  rw [hvars, hvar]
  refine huses.fields step.tool (by simpa using htool)
    ("objcmd", .text (Toolchain.unixCompileTemplate step.tool)) ?_
  rw [Toolchain.unixFields_eq]
  simp

/-! ### A directory with a blank in its name -/

/-- GCC as it is set up, but for two flags of the C compiler that are one text. -/
def gccTools : Environment :=
  { (Environment.initial.setUp (.unix .gcc .linux)).setField "cc" "flags" (.ofTexts ["-O2 -g"]) with
    toolchains := [.unix .gcc .linux] }

def gccFlags (tool : String) : List String := if tool = "cc" then ["-O2 -g"] else []

theorem usesUnix_gccTools : gccTools.UsesUnix .gcc .linux gccFlags where
  distinct :=
    have h := (Environment.distinctTools_initial.setUp (.unix .gcc .linux)).setField "cc" "flags"
      (.ofTexts ["-O2 -g"])
    ⟨h.tools, h.fields⟩
  toolchains := rfl
  fields := by
    simp only [List.mem_cons, List.not_mem_nil, or_false, Toolchain.unixFields_eq, forall_eq_or_imp,
      forall_eq]
    exact ⟨⟨rfl, rfl, rfl, rfl, rfl, rfl⟩, ⟨rfl, rfl, rfl, rfl, rfl, rfl⟩⟩

def spacedReqs : Requirements := { includeDirs := [⟨"my dir"⟩], defines := ["N"] }

/-- `x.c` is compiled with a definition and a directory. -/
def spaced : Project := oneSource "spaced" gccTools spacedReqs

/-- The project once the target has had its turn. -/
def spacedOnce : Project :=
  ((resolveTarget ⟨0⟩).run.run
    (spaced.modifyTarget ⟨0⟩ fun t => { t with collected := some spacedReqs })).2

def spacedEffective : EffectiveRequirements where
  includes := [⟨"my dir"⟩]
  defines := ["N"]

def spacedStep : BuildStep :=
  compileStep (.unix .gcc .linux)
    (SourceHandler.withDepfile { tool := "cc", language := "c", objectSuffix := ".o" })
    ⟨0⟩ ⟨0⟩ ⟨"build/obj.t/x.o"⟩ spacedEffective

def spacedTokens : List Token := compileTokens "gcc" ["-O2 -g"] spacedEffective

/-- The project once the command has been expanded. -/
def spacedDone : Project :=
  { spacedOnce with graph := spacedOnce.graph.setCommand ⟨1⟩ spacedTokens }

theorem fresh_spaced : spaced.Fresh := fresh_oneSource _ _ _

theorem gatherRequirements_spaced : spaced.gatherRequirements ⟨0⟩ = spacedReqs := by cbv

theorem effectiveRequirements_spaced :
    ((effectiveRequirements ⟨0⟩ .compile).run spaced).1 = spacedEffective := by
  have hreqs : spaced.requirementsOf ⟨0⟩ = spacedReqs := gatherRequirements_spaced
  rw [effectiveRequirements_compile, hreqs]
  rfl

theorem yields_spaced_turn : Yields (resolveTarget ⟨0⟩) spaced ⟨⟩ spacedOnce := by
  rw [yields_resolveTarget_collected rfl rfl rfl rfl rfl gatherRequirements_spaced]
  exact Prod.ext rfl rfl

theorem runsUnixCompiler_spaced :
    RunsUnixCompiler spacedOnce spacedStep gccTools spacedEffective :=
  ⟨rfl, rfl, rfl, .inl rfl, rfl⟩

theorem step_spacedOnce : spacedOnce.graph.step? ⟨1⟩ = some spacedStep := rfl

theorem expandStep_spaced : expandStep spacedOnce spacedStep = .ok (some spacedTokens) := by
  refine runsUnixCompiler_spaced.expandStep_eq usesUnix_gccTools ?_ rfl
  unfold Plain
  decide

theorem yields_spaced : Yields (Project.resolve fun _ => true) spaced () spacedDone := by
  have hordered : spaced.buildOrder = .ok [⟨0⟩] := by cbv
  have hids : spacedOnce.graph.ids = [⟨0⟩, ⟨1⟩] := rfl
  exact yields_resolve_oneSource hordered yields_spaced_turn hids rfl step_spacedOnce rfl
    expandStep_spaced rfl rfl rfl

theorem step_spacedDone :
    spacedDone.graph.step? ⟨1⟩ = some { spacedStep with command := some spacedTokens } := rfl

/-- There is only one target for which it can have been compiled. -/
theorem CompiledBy.spaced
    (h : CompiledBy spaced spacedDone id source node env tc handler step) :
    tc = .unix .gcc .linux ∧ ((effectiveRequirements id .compile).run spaced).1 = spacedEffective ∧
      env.UsesUnix .gcc .linux gccFlags := by
  obtain ⟨i⟩ := id
  have henv := h.environment
  rcases i with _ | i
  · cases henv
    exact ⟨(h.template usesUnix_gccTools).1, effectiveRequirements_spaced, usesUnix_gccTools⟩
  · simp [Resolve.spaced, oneSource, targetEnvironment?, target?] at henv

/-! ### Requirements at the compiler -/

/-- Every directory and every definition that a step passes to a Unix compiler comes out as
the words that it has, side by side. It is a token of its own exactly if there is no blank
in it. So it is for whatever is compiled for a target, whatever comes of the run. -/
theorem entries_arrive :
    (∀ (p : Project) (step : BuildStep) (env : Environment) (reqs : EffectiveRequirements)
      (tokens : List Token) (entry : String), RunsUnixCompiler p step env reqs →
      expandStep p step = .ok (some tokens) → entry ∈ unixEntries reqs → Literal entry →
      Arrives entry tokens) ∧
    ∀ (p q : Project) (exist : Path → Bool) (result : Except BuildError Unit) (node : NodeId)
      (step : BuildStep) (tokens : List Token), p.Fresh →
      (Project.resolve exist).run.run p = (result, q) → q.graph.step? node = some step →
      step.kind = .compile → step.command = some tokens →
      ∃ id source env tc handler, CompiledBy p q id source node env tc handler step ∧
        ∀ flavor platform, tc = .unix flavor platform →
          env.field? step.tool step.commandVar =
            some (.text (Toolchain.unixCompileTemplate step.tool)) →
          ∀ entry ∈ unixEntries ((effectiveRequirements id .compile).run p).1, Literal entry →
            Arrives entry tokens := by
  refine ⟨fun p step env reqs tokens entry hruns hexpand hentry hliteral =>
    hruns.arrives hexpand hentry hliteral,
    fun p q exist result node step tokens hfresh hrun hstep hkind hcommand => ?_⟩
  obtain ⟨order, compiled, made, jobs, hordered, hcompile, hcontinues⟩ :=
    exists_continues hfresh hrun hstep hcommand
  obtain ⟨id, source, env, tc, handler, hby⟩ :=
    hcontinues.compiledBy hfresh hordered hcompile hstep hkind
  refine ⟨id, source, env, tc, handler, hby, fun flavor platform htc htemplate entry hentry
    hliteral => ?_⟩
  subst htc
  obtain ⟨path, hnode⟩ := NodeGraph.step?_eq_some_iff.mp hstep
  have hexpand := (hcontinues.steps node path step hnode (by simp [hkind])).2 tokens hcommand
  rw [← expandStep_congr hcontinues.after.fixed.environments] at hexpand
  exact (hby.runsUnixCompiler (hcontinues.environments hfresh hcompile) htemplate).arrives hexpand
    hentry hliteral

theorem entries_arrive_spaced :
    RunsUnixCompiler spacedOnce spacedStep gccTools spacedEffective ∧ spaced.Fresh ∧
      Yields (Project.resolve fun _ => true) spaced () spacedDone ∧
      Arrives "-Imy dir" spacedTokens ∧ Arrives "-DN" spacedTokens := by
  have hdir := entries_arrive.1 _ _ _ _ _ "-Imy dir" runsUnixCompiler_spaced expandStep_spaced
    (by decide) (by decide)
  obtain ⟨id, source, env, tc, handler, hby, harrive⟩ :=
    entries_arrive.2 spaced spacedDone _ _ ⟨1⟩ _ spacedTokens fresh_spaced yields_spaced
      step_spacedDone rfl rfl
  obtain ⟨htc, hreqs, huses⟩ := hby.spaced
  obtain ⟨-, -, htemplate⟩ := hby.template huses
  have hentries := harrive .gcc .linux htc htemplate
  rw [hreqs] at hentries
  exact ⟨runsUnixCompiler_spaced, fresh_spaced, yields_spaced, hdir,
    hentries "-DN" (by decide) (by decide)⟩

/-- The directory comes out as two tokens. -/
theorem not_forall_entry_whole : ¬ ∀ (p q : Project) (exist : Path → Bool) (node : NodeId)
    (step : BuildStep) (tokens : List Token), p.Fresh →
    Yields (Project.resolve exist) p () q → q.graph.step? node = some step →
    step.kind = .compile → step.command = some tokens →
    ∃ id source env tc handler, CompiledBy p q id source node env tc handler step ∧
      ∀ flavor platform, tc = .unix flavor platform →
        env.field? step.tool step.commandVar =
          some (.text (Toolchain.unixCompileTemplate step.tool)) →
        ∀ entry ∈ unixEntries ((effectiveRequirements id .compile).run p).1, Literal entry →
          Token.ofText entry ∈ tokens := by
  intro hall
  obtain ⟨id, source, env, tc, handler, hby, hwhole⟩ := hall spaced spacedDone _ ⟨1⟩ _ spacedTokens
    fresh_spaced yields_spaced step_spacedDone rfl rfl
  obtain ⟨htc, hreqs, huses⟩ := hby.spaced
  obtain ⟨-, -, htemplate⟩ := hby.template huses
  have hentries := hwhole .gcc .linux htc htemplate
  rw [hreqs] at hentries
  exact absurd (hentries "-Imy dir" (by decide) (by decide)) (by decide)

/-! ### The command of an object -/

/-- Where a Unix toolchain is all that there is, every object has the command that its
toolchain, the flags of its tool and the requirements of its target make. -/
theorem compile_command_exact {exist : Path → Bool} (hfresh : p.Fresh)
    (hrun : Yields (Project.resolve exist) p u q) (hstep : q.graph.step? node = some step)
    (hkind : step.kind = .compile) :
    ∃ id source env tc handler, CompiledBy p q id source node env tc handler step ∧
      ∀ flavor platform flags, env.UsesUnix flavor platform flags →
        Plain (flags step.tool) ((effectiveRequirements id .compile).run p).1 →
        (step.tool = "cc" ∨ step.tool = "cxx") ∧
          step.command = some (compileTokens (flavor.driver step.tool) (flags step.tool)
            ((effectiveRequirements id .compile).run p).1) := by
  obtain ⟨order, compiled, expanded, copied, installed, hruns⟩ :=
    yields_resolveAll_iff.mp (resolve_inv hrun)
  have hcontinues := hruns.continues hfresh
  obtain ⟨id, source, env, tc, handler, hby⟩ :=
    hcontinues.compiledBy hfresh hruns.ordered hruns.compile hstep hkind
  refine ⟨id, source, env, tc, handler, hby, fun flavor platform flags huses hplain => ?_⟩
  obtain ⟨rfl, htool, htemplate⟩ := hby.template huses
  have hcommand := (hruns.parts hfresh.sound).command_of_step hfresh hstep
  rw [if_neg (by simp [hkind])] at hcommand
  have hunix := hby.runsUnixCompiler (hcontinues.environments hfresh hruns.compile) htemplate
  exact ⟨htool, hunix.command_eq huses hplain hcommand⟩

theorem compile_command_exact_spaced :
    spaced.Fresh ∧ Yields (Project.resolve fun _ => true) spaced () spacedDone ∧
      ∃ step, spacedDone.graph.step? ⟨1⟩ = some step ∧ step.command = some (
        (["gcc", "-O2", "-g", "-Imy", "dir", "-DN", "-MD", "-MF"].map Token.ofText) ++
          [⟨[.marker .target, .text ".d"]⟩, .ofText "-c", .ofText "-o", ⟨[.marker .target]⟩,
            ⟨[.marker .source]⟩]) := by
  obtain ⟨id, source, env, tc, handler, hby, hexact⟩ :=
    compile_command_exact fresh_spaced yields_spaced step_spacedDone rfl
  obtain ⟨htc, hreqs, huses⟩ := hby.spaced
  rw [hreqs] at hexact
  obtain ⟨-, hcommand⟩ := hexact _ _ _ huses (by unfold Plain; decide)
  refine ⟨fresh_spaced, yields_spaced, _, step_spacedDone, hcommand.trans ?_⟩
  decide

end BuildPlan.Resolve
