import BuildPlan.Proofs.Environment
import BuildPlan.Proofs.Resolve.Turn

/-!
# BuildPlan.Proofs.Resolve.BareTools

What the first phase sees of tools. It asks which tools there are and never for their
fields, so it does the same in a project whose tools have none.
-/

namespace BuildPlan

/-- The environment with all its tools, but without their fields. -/
def Environment.bare (env : Environment) : Environment :=
  { env with tools := env.tools.map fun (name, _) => (name, []) }

/-- What a tool that exists has for fields cannot be seen. -/
theorem Environment.bare_alterTool {env : Environment} {tool : String} (h : env.hasTool tool = true)
    (change : ToolFields → ToolFields) : (env.alterTool tool change).bare = env.bare := by
  have hbare : ∀ tools : List (String × ToolFields),
      tools.map (fun (name, _) => (name, ([] : ToolFields))) =
        (tools.map Prod.fst).map fun name => (name, []) := by
    intro tools
    rw [List.map_map]
    rfl
  obtain ⟨fields, hfields⟩ := Option.isSome_iff_exists.mp h
  have hmem : tool ∈ env.tools.map Prod.fst :=
    List.mem_map.mpr ⟨_, Assoc.mem_of_lookup hfields, rfl⟩
  simp only [bare, alterTool, Assoc.alter, hbare, Assoc.keys_put, if_pos hmem]

theorem Environment.hasTool_bare (env : Environment) (tool : String) :
    env.bare.hasTool tool = env.hasTool tool := by
  have hlookup := Assoc.lookup_map_value (fun _ : ToolFields => ([] : ToolFields)) env.tools tool
  rw [hasTool, hasTool, tool?, tool?, bare]
  exact (congrArg Option.isSome hlookup).trans Option.isSome_map

namespace Project

/-- The project with bare tools in all its environments. -/
def bare (p : Project) : Project := { p with environments := p.environments.map Environment.bare }

variable (p : Project) (id : TargetId)

theorem graph_bare : p.bare.graph = p.graph := rfl

theorem buildDir_bare : p.bare.buildDir = p.buildDir := rfl

theorem targetName_bare : p.bare.targetName id = p.targetName id := rfl

theorem environment?_bare (env : EnvironmentId) :
    p.bare.environment? env = (p.environment? env).map Environment.bare :=
  Array.getElem?_map

theorem targetEnvironment?_bare :
    p.bare.targetEnvironment? id = (p.targetEnvironment? id).map Environment.bare := by
  have hbind : p.bare.targetEnvironment? id =
      ((p.target? id).bind Target.env).bind p.bare.environment? := rfl
  rw [hbind, targetEnvironment?]
  cases (p.target? id).bind Target.env with
  | none => rfl
  | some env => exact environment?_bare p env

theorem toolchain_bare : (p.bare.targetEnvironment? id).bind Environment.toolchain =
    (p.targetEnvironment? id).bind Environment.toolchain := by
  rw [targetEnvironment?_bare, Option.bind_map]
  rfl

theorem separatedFlags_bare : p.bare.separatedFlags id = p.separatedFlags id := by
  rw [separatedFlags, separatedFlags, targetEnvironment?_bare]
  cases p.targetEnvironment? id <;> rfl

theorem impliedFlags_bare : p.bare.impliedFlags id = p.impliedFlags id := by
  rw [impliedFlags, impliedFlags, toolchain_bare]
  rfl

theorem gatherRequirements_bare : p.bare.gatherRequirements id = p.gatherRequirements id := by
  rw [gatherRequirements, gatherRequirements, separatedFlags_bare]
  rfl

theorem collectRequirements_bare : (collectRequirements id).run p.bare =
    (((collectRequirements id).run p).1, ((collectRequirements id).run p).2.bare) := by
  have hsame : p.bare.target? id = p.target? id := rfl
  simp only [collectRequirements, StateT.run_bind, StateT.run_get, pure_bind, hsame,
    gatherRequirements_bare]
  cases (p.target? id).bind Target.collected <;> rfl

theorem effectiveRequirements_bare (scope : RequirementScope) :
    (effectiveRequirements id scope).run p.bare =
      (((effectiveRequirements id scope).run p).1,
        ((effectiveRequirements id scope).run p).2.bare) := by
  cases scope with
  | link =>
      have hrun : ∀ p, (effectiveRequirements id .link).run p =
          (EffectiveRequirements.ofRequirements ((collectRequirements id).run p).1 .link,
            ((collectRequirements id).run p).2) := fun _ => rfl
      rw [hrun, hrun, collectRequirements_bare]
  | compile =>
      have hrun : ∀ p, (effectiveRequirements id .compile).run p =
          ({ EffectiveRequirements.ofRequirements ((collectRequirements id).run p).1 .compile with
              compileFlags := Flag.merge (((collectRequirements id).run p).2.separatedFlags id)
                (EffectiveRequirements.ofRequirements ((collectRequirements id).run p).1
                  .compile).compileFlags (((collectRequirements id).run p).2.impliedFlags id) },
            ((collectRequirements id).run p).2) := fun _ => rfl
      rw [hrun, hrun, collectRequirements_bare]
      simp only [separatedFlags_bare, impliedFlags_bare]

end Project

namespace Resolve

open Build Project

variable {α β : Type} {p : Project}

/-! ### Blind operations -/

/-- The operation does the same in the project with bare tools. -/
def Blind (m : Build α) : Prop := ∀ p a q, Yields m p a q → Yields m p.bare a q.bare

namespace Blind

theorem pure (a : α) : Blind (Pure.pure a) := by
  intro p b q h
  obtain ⟨rfl, rfl⟩ := yields_pure.mp h
  exact yields_pure.mpr ⟨rfl, rfl⟩

theorem modify {change : Project → Project} (h : ∀ p, change p.bare = (change p).bare) :
    Blind (modify change : Build PUnit) := by
  intro p u q hyields
  rw [yields_modify.mp hyields]
  exact yields_modify.mpr (h p).symm

theorem bind {m : Build α} {f : α → Build β} (hm : Blind m) (hf : ∀ a, Blind (f a)) :
    Blind (m >>= f) := by
  intro p b r h
  obtain ⟨a, q, hfirst, hrest⟩ := yields_bind.mp h
  exact yields_bind.mpr ⟨a, q.bare, hm p a q hfirst, hf a q b r hrest⟩

theorem forM {f : α → Build PUnit} (hf : ∀ a, Blind (f a)) (as : List α) : Blind (as.forM f) := by
  induction as with
  | nil => exact pure PUnit.unit
  | cons a rest ih => exact (hf a).bind fun _ => ih

theorem foldlM {f : β → α → Build β} (hf : ∀ b a, Blind (f b a)) (as : List α) (b : β) :
    Blind (as.foldlM f b) := by
  induction as generalizing b with
  | nil => exact pure b
  | cons a rest ih =>
      rw [List.foldlM_cons]
      exact (hf b a).bind ih

end Blind

/-! ### Objects -/

theorem findHandler_bare (env : Environment) (suffix : String) :
    findHandler env.bare suffix = findHandler env suffix := by
  simp only [findHandler, Environment.hasTool_bare]
  rfl

theorem blind_setProductStep {node : NodeId} {step : BuildStep} {graph : NodeGraph} {u : Unit}
    {q : Project} (h : Yields (setProductStep node step) { p with graph } u q) :
    Yields (setProductStep node step) { p.bare with graph } u q.bare := by
  obtain ⟨next, hset, rfl⟩ := setProductStep_inv h
  rw [setProductStep, yields_get_bind]
  exact yields_bind.mpr ⟨next, _, yields_liftExcept.mpr ⟨hset, rfl⟩, yields_set.mpr rfl⟩

theorem blind_makeObject (id : TargetId) (env : EnvironmentId) (tc : Toolchain)
    (handler : SourceHandler) (reqs : EffectiveRequirements) (source : NodeId) :
    Blind (makeObject id env tc handler reqs source) := by
  intro p object q h
  simp only [makeObject, yields_get_bind, graph_bare, buildDir_bare, targetName_bare] at h ⊢
  split at h
  · simp only [yields_bind, not_yields_throw, false_and, exists_false] at h
  · rw [yields_set_bind, yields_bind] at h ⊢
    obtain ⟨_, r, hstep, h⟩ := h
    obtain ⟨rfl, rfl⟩ := yields_pure.mp h
    exact ⟨_, _, blind_setProductStep hstep, yields_pure.mpr ⟨rfl, rfl⟩⟩

theorem blind_compileSource (id : TargetId) (envId : EnvironmentId) (reqs : EffectiveRequirements)
    (c : Compilation) (source : NodeId) : Blind (compileSource id envId reqs c source) := by
  intro p c' q h
  have haux : ∀ env suffix,
      findAuxiliary (Environment.bare env) suffix = findAuxiliary env suffix :=
    fun _ _ => rfl
  have hinput : ∀ env suffix, isLinkInput (Environment.bare env) suffix = isLinkInput env suffix :=
    fun _ _ => rfl
  have habsolute : ∀ path, p.bare.absolute path = p.absolute path := fun _ => rfl
  simp only [compileSource, yields_get_bind, environment?_bare, graph_bare, habsolute] at h ⊢
  cases henv : p.environment? envId with
  | none =>
      rw [henv] at h
      exact Blind.pure c p c' q h
  | some env =>
      simp only [henv, Option.map_some, findHandler_bare, haux, hinput] at h ⊢
      split at h
      · exact Blind.pure _ p c' q h
      split at h
      · exact Blind.pure _ p c' q h
      split at h
      · exact Blind.pure _ p c' q h
      · exact Blind.bind (blind_makeObject _ _ _ _ _ _) (fun _ => .pure _) p c' q h

/-! ### Outputs -/

section Outputs

variable (p : Project) (id : TargetId) (t : Target)

theorem primaryToolchain_bare : primaryToolchain p.bare id = primaryToolchain p id :=
  toolchain_bare p id

theorem outputPath_bare : outputPath p.bare id t = outputPath p id t := by
  rw [outputPath, outputPath, primaryToolchain_bare]
  rfl

theorem outputStep_bare (env : EnvironmentId) (reqs : EffectiveRequirements) :
    outputStep p.bare id t env reqs = outputStep p id t env reqs := by
  simp only [outputStep, archiveStep, linkStep, outputVar, commandStyle, primaryToolchain_bare,
    separatedFlags_bare]
  rfl

end Outputs

theorem blind_makeOutput (id : TargetId) (t : Target) (deps : List (List NodeId))
    (step : BuildStep) : Blind (makeOutput id t deps step) := by
  intro p u q h
  simp only [makeOutput, yields_get_bind, yields_set_bind, outputPath_bare, graph_bare] at h ⊢
  obtain ⟨_, r, hstep, h⟩ := yields_bind.mp h
  rw [yields_modify.mp h]
  exact yields_bind.mpr ⟨_, _, blind_setProductStep hstep, yields_modify.mpr rfl⟩

theorem blind_produce (id : TargetId) (env : EnvironmentId) : Blind (produce id env) := by
  intro p u q h
  rcases produce_cases p id with hnothing | ⟨t, ht, htype | ⟨hcompiles, hmakes, hobjects⟩⟩
  · rw [Yields, run_produce_nothing hnothing] at h
    cases h
    exact run_produce_nothing (p := p.bare) hnothing
  · rw [Yields, run_produce_object ht htype] at h
    cases h
    exact run_produce_object (p := p.bare) ht htype
  · rw [Yields, run_produce ht hcompiles hmakes hobjects] at h
    rw [Yields, run_produce (p := p.bare) ht hcompiles hmakes hobjects, effectiveRequirements_bare]
    dsimp only
    rw [outputStep_bare]
    exact blind_makeOutput _ _ _ _ _ _ _ h

/-! ### Turns -/

theorem blind_markResolved (id : TargetId) : Blind (markResolved id) := .modify fun _ => rfl

theorem blind_compileTarget (id : TargetId) (env : EnvironmentId) (sources : List NodeId) :
    Blind (compileTarget id env sources) := by
  intro p u q h
  rw [compileTarget, yields_liftState_bind] at h ⊢
  rw [effectiveRequirements_bare]
  refine Blind.bind (.foldlM (blind_compileSource id env _) sources {}) (fun c => ?_) _ _ _ h
  refine Blind.bind (.modify fun _ => rfl) fun _ => ?_
  exact (blind_produce id env).bind fun _ => blind_markResolved id

theorem blind_resolveTarget (id : TargetId) : Blind (resolveTarget id) := by
  intro p u q h
  rcases settled_or_open p id with hsettled | ⟨t, ht, hopen, htype | ⟨env, htype, henv⟩⟩
  · rw [Yields, hsettled.yields] at h
    cases h
    exact Settled.yields (p := p.bare) hsettled
  · rw [Yields, run_resolveTarget_interface ht hopen htype] at h
    rw [Yields, run_resolveTarget_interface (p := p.bare) ht hopen htype]
    exact blind_markResolved id p u q h
  · rw [Yields, run_resolveTarget_compile ht hopen htype henv] at h
    rw [Yields, run_resolveTarget_compile (p := p.bare) ht hopen htype henv]
    exact blind_compileTarget id env t.sources p u q h

/-- Projects that differ in the fields of their tools differ in nothing else once the targets
have been compiled. -/
theorem bare_of_resolveTargets {p' q q' : Project} {order : List TargetId} {u u' : Unit}
    (h : p'.bare = p.bare) (hrun : Yields (order.forM resolveTarget) p u q)
    (hrun' : Yields (order.forM resolveTarget) p' u' q') : q'.bare = q.bare := by
  have hbare := Blind.forM blind_resolveTarget order p u q hrun
  have hbare' := Blind.forM blind_resolveTarget order p' u' q' hrun'
  rw [h, Yields, hbare] at hbare'
  exact (congrArg Prod.snd hbare').symm

end Resolve

end BuildPlan
