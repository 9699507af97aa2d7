import BuildPlan.Proofs.Resolve.BareTools
import BuildPlan.Proofs.Resolve.CompileSteps
import BuildPlan.Proofs.Resolve.CompilerTemplate
import BuildPlan.Proofs.Resolve.Scopes
import BuildPlan.Proofs.Template.Locality

/-!
# BuildPlan.Proofs.Resolve.ToolIsolation

The fields of a tool stay with the tool. A source that is compiled by another tool has the
same command whatever the fields are, unless its template leads to them.
-/

namespace BuildPlan

namespace Project

variable {p : Project} {envId id : EnvironmentId} {tool : String} {env : Environment}

theorem environment?_editEnvironment (p : Project) (envId id : EnvironmentId)
    (change : Environment → Environment) :
    (p.editEnvironment envId change).environment? id =
      if id = envId then (p.environment? id).map change else p.environment? id := by
  rw [environment?, editEnvironment, Array.getElem?_modify]
  obtain ⟨i⟩ := id
  obtain ⟨j⟩ := envId
  by_cases h : j = i
  · simp [h, environment?]
  · simp [h, Ne.symm h, environment?]

theorem bare_editEnvironment
    (htool : ∀ env, p.environment? envId = some env → env.hasTool tool = true)
    (change : ToolFields → ToolFields) :
    (p.editEnvironment envId (·.alterTool tool change)).bare = p.bare := by
  have henvs : ((p.editEnvironment envId (·.alterTool tool change)).environments.map
      Environment.bare) = p.environments.map Environment.bare := by
    refine Array.ext_getElem? fun i => ?_
    have hat := environment?_editEnvironment p envId ⟨i⟩ (·.alterTool tool change)
    rw [environment?] at hat
    rw [Array.getElem?_map, Array.getElem?_map, hat]
    split
    · next heq =>
        subst heq
        change ((p.environment? ⟨i⟩).map _).map _ = (p.environment? ⟨i⟩).map _
        cases henv : p.environment? ⟨i⟩ with
        | none => rfl
        | some env => exact congrArg some (Environment.bare_alterTool (htool env henv) change)
    · rfl
  rw [bare, henvs]
  rfl

end Project

namespace Resolve

open Build Project Template

variable {p q p' q' : Project} {env env' : Environment} {step : BuildStep} {node : NodeId}

/-! ### Expansion under two environments -/

/-- A step has one command under two environments that agree on its bindings and its template,
and on every name that the template leads to. -/
theorem expandStep_of_agree (henv : step.env.bind p.environment? = some env)
    (henv' : step.env.bind p'.environment? = some env')
    (hfield : env'.field? step.tool step.commandVar = env.field? step.tool step.commandVar)
    (hbindings : stepBindings env' step = stepBindings env step)
    (hagree : ∀ template ns, env.field? step.tool step.commandVar = some template →
      env.namespaceWith (stepBindings env step) = .ok ns → ∀ name, Consults ns template name →
      env'.toNamespace.get name = env.toNamespace.get name) :
    expandStep p' step = expandStep p step := by
  have hlayer := Namespace.layer_withParent env.toNamespace env'.toNamespace (stepBindings env step)
  simp only [expandStep, henv, henv', hfield, hbindings]
  cases htemplate : env.field? step.tool step.commandVar with
  | none => rfl
  | some template =>
      dsimp only
      rw [Environment.namespaceWith, hlayer, ← Environment.namespaceWith]
      cases hns : env.namespaceWith (stepBindings env step) with
      | error e => rfl
      | ok ns =>
          have htokens : substTokens template (ns.withParent (some env'.toNamespace)) =
              substTokens template ns := by
            refine substTokens_congr fun name hname => Namespace.get_withParent hns ?_
            exact hagree template ns htemplate hns name hname
          simp only [Except.map, bind, Except.bind, htokens]

/-- What a step that compiles binds are fields of its own tool. -/
theorem stepBindings_alterTool {tool : String} (hkind : step.kind = .compile)
    (hother : step.tool ≠ tool) (env : Environment) (change : ToolFields → ToolFields) :
    stepBindings (env.alterTool tool change) step = stepBindings env step := by
  have hextend : ∀ field, extendField (env.alterTool tool change) step.tool field =
      extendField env step.tool field := by
    intro field
    funext words
    rw [extendField, extendField, Environment.field?_alterTool_ne hother]
  rw [stepBindings, stepBindings]
  cases step.context with
  | none => rfl
  | some context =>
      simp only [contextBindings, hextend, hkind]

/-- The fields of a tool decide no command of another tool whose template does not lead to
them. -/
theorem expandStep_editEnvironment {envId : EnvironmentId} {tool : String}
    (change : ToolFields → ToolFields) (hkind : step.kind = .compile) (hother : step.tool ≠ tool)
    (hapart : ∀ env template ns, step.env.bind p.environment? = some env →
      env.field? step.tool step.commandVar = some template →
      env.namespaceWith (stepBindings env step) = .ok ns → ∀ name, Consults ns template name →
      ¬ Environment.Under tool name) :
    expandStep (p.editEnvironment envId (·.alterTool tool change)) step = expandStep p step := by
  cases hid : step.env with
  | none => simp only [expandStep, hid, Option.bind_none]
  | some id =>
      have hat := environment?_editEnvironment p envId id (·.alterTool tool change)
      cases henv : p.environment? id with
      | none =>
          rw [henv] at hat
          have hnone :
              (p.editEnvironment envId (·.alterTool tool change)).environment? id = none := by
            rw [hat]
            split <;> rfl
          simp only [expandStep, hid, Option.bind_some, henv, hnone]
      | some env =>
          have hfound : step.env.bind p.environment? = some env := by
            rw [hid, Option.bind_some, henv]
          rw [henv] at hat
          split at hat
          · refine expandStep_of_agree hfound (by rw [hid, Option.bind_some, hat, Option.map_some])
              (Environment.field?_alterTool_ne hother env change _)
              (stepBindings_alterTool hkind hother env change)
              fun template ns htemplate hns name hname => ?_
            exact Environment.get_alterTool_of_not_under
              (hapart env template ns hfound htemplate hns name hname) env change
          · simp only [expandStep, hid, Option.bind_some, henv, hat]

/-! ### Two runs -/

/-- Two runs that leave the same after the first phase have the same steps that compile, but
for their commands. -/
theorem Continues.kind?_eq {compiled compiled' : Project} {path : Path}
    (h : Continues compiled ⟨q, [], []⟩) (h' : Continues compiled' ⟨q', [], []⟩)
    (hsame : compiled'.bare = compiled.bare)
    (hnode : q.graph.kind? node = some (.file path (some step))) (hkind : step.kind = .compile) :
    ∃ command, q'.graph.kind? node = some (.file path (some { step with command })) := by
  obtain ⟨hearlier, -⟩ := h.steps node path step hnode (by simp [hkind])
  have hgraph : compiled'.graph = compiled.graph := congrArg (fun p => p.graph) hsame
  have hmade : compiled'.graph.made? node = some (path, { step with command := none }) := by
    rw [hgraph]
    exact NodeGraph.made?_eq_some_iff.mpr ⟨path, _, hearlier, rfl⟩
  obtain ⟨path', step', hnode', heq⟩ :=
    NodeGraph.made?_eq_some_iff.mp (h'.after.made.made node _ hmade)
  obtain ⟨rfl, hsteps⟩ := Prod.mk.inj heq
  have hstep' : { step with command := step'.command } = step' :=
    congrArg (fun s : BuildStep => { s with command := step'.command }) hsteps
  exact ⟨step'.command, hstep' ▸ hnode'⟩

/-- Two runs on projects that differ in the fields of one tool give a source the same command
if it is compiled by another tool and no name of the one tool can be reached from the template
of its step. -/
theorem command_of_other_tool {exist exist' : Path → Bool} {u u' : Unit} {envId : EnvironmentId}
    {tool : String} {fields : ToolFields} {path : Path} (hfresh : p.Fresh)
    (htool : ∀ env, p.environment? envId = some env → env.hasTool tool = true)
    (hrun : Yields (Project.resolve exist) p u q)
    (hrun' : Yields (Project.resolve exist')
      (p.editEnvironment envId (·.alterTool tool fun _ => fields)) u' q')
    (hnode : q.graph.kind? node = some (.file path (some step))) (hkind : step.kind = .compile)
    (hother : step.tool ≠ tool)
    (hapart : ∀ env template ns, step.env.bind p.environment? = some env →
      env.field? step.tool step.commandVar = some template →
      env.namespaceWith (stepBindings env step) = .ok ns → ∀ name, Consults ns template name →
      ¬ Environment.Under tool name) :
    q'.graph.kind? node = some (.file path (some step)) := by
  obtain ⟨order, compiled, expanded, copied, installed, hruns⟩ :=
    yields_resolveAll_iff.mp (resolve_inv hrun)
  obtain ⟨order', compiled', expanded', copied', installed', hruns'⟩ :=
    yields_resolveAll_iff.mp (resolve_inv hrun')
  have hfresh' : (p.editEnvironment envId (·.alterTool tool fun _ => fields)).Fresh :=
    hfresh.withEnvironments _
  have hcontinues := hruns.continues hfresh
  have hcontinues' := hruns'.continues hfresh'
  -- both runs compile the same targets in the same order
  obtain rfl : order' = order := Except.ok.inj (hruns'.ordered.symm.trans hruns.ordered)
  have hsame : compiled'.bare = compiled.bare :=
    bare_of_resolveTargets (bare_editEnvironment htool _) hruns.compile hruns'.compile
  obtain ⟨command, hnode'⟩ := hcontinues.kind?_eq hcontinues' hsame hnode hkind
  have hcommand := (hruns.parts hfresh.sound).command_of_step hfresh
    (NodeGraph.step?_eq_some_iff.mpr ⟨path, hnode⟩)
  have hcommand' := (hruns'.parts hfresh'.sound).command_of_step hfresh'
    (NodeGraph.step?_eq_some_iff.mpr ⟨path, hnode'⟩)
  rw [if_neg (by simp [hkind])] at hcommand hcommand'
  rw [expandStep_withCommand, expandStep_congr (hcontinues'.environments hfresh' hruns'.compile),
    expandStep_editEnvironment _ hkind hother hapart,
    ← expandStep_congr (hcontinues.environments hfresh hruns.compile), hcommand] at hcommand'
  cases Except.ok.inj hcommand'
  exact hnode'

/-! ### A C source beside a C++ compiler -/

/-- The C++ compiler has one flag or another. -/
def cxxFields (other : Bool) : ToolFields := [("flags", .ofTexts [if other then "-c" else "-b"])]

/-- Two compilers. The template of the C compiler leads to its own flags. -/
def mixedTools (other : Bool) : Environment where
  tools := [("cc", [("objcmd", .list [.text "$cc.flags"]), ("flags", .ofTexts ["-a"])]),
    ("cxx", cxxFields other)]
  toolchains := [{
    name := "cc"
    handlers := [(".c", { tool := "cc", language := "c", objectSuffix := ".o" })] }]

def mixing (other : Bool) : Project := oneSource "mixing" (mixedTools other) {}

/-- The project once the target has had its turn. -/
def mixedOnce (other : Bool) : Project :=
  ((resolveTarget ⟨0⟩).run.run
    ((mixing other).modifyTarget ⟨0⟩ fun t => { t with collected := some {} })).2

def mixedStep : BuildStep :=
  compileStep { name := "cc" } { tool := "cc", language := "c", objectSuffix := ".o" } ⟨0⟩ ⟨0⟩
    ⟨"build/obj.t/x.o"⟩ {}

/-- The project once the command has been expanded. -/
def mixed (other : Bool) : Project :=
  { mixedOnce other with graph := (mixedOnce other).graph.setCommand ⟨1⟩ [.ofText "-a"] }

theorem fresh_mixing (other : Bool) : (mixing other).Fresh := fresh_oneSource _ _ _

theorem expandStep_mixing (other : Bool) :
    expandStep (mixing other) mixedStep = .ok (some [.ofText "-a"]) := by
  cases other <;> cbv

theorem yields_mixed (other : Bool) :
    Yields (Project.resolve fun _ => true) (mixing other) () (mixed other) := by
  have hreqs : (mixing other).gatherRequirements ⟨0⟩ = {} := by cases other <;> cbv
  have hordered : (mixing other).buildOrder = .ok [⟨0⟩] := by cases other <;> cbv
  have hturn : Yields (resolveTarget ⟨0⟩) (mixing other) ⟨⟩ (mixedOnce other) := by
    rw [yields_resolveTarget_collected rfl rfl rfl rfl rfl hreqs]
    cases other <;> rfl
  have hids : (mixedOnce other).graph.ids = [⟨0⟩, ⟨1⟩] := by cases other <;> rfl
  have hsource : (mixedOnce other).graph.step? ⟨0⟩ = none := by cases other <;> rfl
  have hstep : (mixedOnce other).graph.step? ⟨1⟩ = some mixedStep := by cases other <;> rfl
  have hsame : (mixedOnce other).environments = (mixing other).environments := by
    cases other <;> rfl
  have hexpand : expandStep (mixedOnce other) mixedStep = .ok (some [.ofText "-a"]) :=
    (expandStep_congr hsame mixedStep).trans (expandStep_mixing other)
  refine yields_resolve_oneSource hordered hturn hids hsource hstep rfl hexpand ?_ ?_ ?_
  all_goals cases other <;> rfl

theorem not_under_of_consults_mixing {template : Value} {ns : Namespace} {name : String}
    (htemplate : (mixedTools false).field? "cc" "objcmd" = some template)
    (hns : (mixedTools false).namespaceWith (stepBindings (mixedTools false) mixedStep) = .ok ns)
    (h : Consults ns template name) : ¬ Environment.Under "cxx" name := by
  obtain rfl : Value.list [.text "$cc.flags"] = template := Option.some.inj htemplate
  have hreferences : (Value.list [.text "$cc.flags"]).references = ["cc.flags"] := by cbv
  have hnothing : (Value.ofTexts ["-a"]).references = [] := by cbv
  have hdistinct : (mixedTools false).DistinctTools := ⟨by decide, by decide⟩
  have hget : ns.get (mixedStep.tool ++ "." ++ "flags") = some (.ofTexts ["-a"]) := by
    refine get_ownField (toolName_unix (.inl rfl)) rfl hns hdistinct (by decide)
      (fun key words _ hwords => ?_) (absurd · (by decide)) rfl
    cases hwords
  obtain ⟨first, hfirst, hpath⟩ := h
  obtain rfl : first = "cc.flags" := by simpa [hreferences] using hfirst
  have hname : name = "cc.flags" := by
    rcases hpath.cases_head with rfl | ⟨next, ⟨value, hvalue, hnext⟩, -⟩
    · rfl
    · cases hget.symm.trans hvalue
      rw [hnothing] at hnext
      cases hnext
  rintro (hunder | ⟨field, hunder⟩)
  · exact absurd (hname.symm.trans hunder) (by decide)
  · have hchars := congrArg String.toList (hname.symm.trans hunder)
    simp at hchars

/-- The C source is compiled with the one flag that its own compiler has. -/
theorem command_of_other_tool_mixing :
    (mixing false).Fresh ∧ Yields (Project.resolve fun _ => true) (mixing false) () (mixed false) ∧
      Yields (Project.resolve fun _ => true)
        ((mixing false).editEnvironment ⟨0⟩ (·.alterTool "cxx" fun _ => cxxFields true)) ()
        (mixed true) ∧
      (mixed true).graph.kind? ⟨1⟩ = some (.file ⟨"build/obj.t/x.o"⟩
        (some { mixedStep with command := some [.ofText "-a"] })) := by
  have hedit : (mixing false).editEnvironment ⟨0⟩ (·.alterTool "cxx" fun _ => cxxFields true) =
      mixing true := rfl
  have htool : ∀ env, (mixing false).environment? ⟨0⟩ = some env → env.hasTool "cxx" = true := by
    intro env henv
    cases henv
    rfl
  have hyields := yields_mixed true
  rw [← hedit] at hyields
  refine ⟨fresh_mixing false, yields_mixed false, hyields,
    command_of_other_tool (fresh_mixing false) htool (yields_mixed false) hyields rfl rfl
      (by decide) fun env template ns henv htemplate hns name hname => ?_⟩
  cases henv
  exact not_under_of_consults_mixing htemplate hns hname

end Resolve

end BuildPlan
