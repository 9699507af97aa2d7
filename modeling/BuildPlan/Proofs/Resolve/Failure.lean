import BuildPlan.Proofs.Resolve.Turn

/-!
# BuildPlan.Proofs.Resolve.Failure

How resolution fails. The first phase fails only where the object of a source is
to be made at a path that is made already, and changes nothing there.
-/

namespace BuildPlan

namespace NodeGraph

variable {graph : NodeGraph}

/-- A product's node is a file without a step. -/
theorem Indexed.kind?_addProduct (h : graph.Indexed) (path : Path) :
    ∃ known, (graph.addProduct path).2.kind? (graph.addProduct path).1 =
      some (.file known none) := by
  rcases addProduct_cases graph path with ⟨id, hfind, hbuilt, hadd⟩ | hadd
  · rw [hadd]
    obtain ⟨known, made, -, hkind⟩ := h.kind_of_find hfind
    cases made with
    | none => exact ⟨known, hkind⟩
    | some step =>
        rw [isBuilt_iff.mpr ⟨known, step, hkind⟩] at hbuilt
        cases hbuilt
  · rw [hadd]
    exact ⟨path, (kind?_addFile graph path _).trans (if_pos rfl)⟩

theorem setStep_of_file {id : NodeId} {path : Path} {step : BuildStep}
    (h : graph.kind? id = some (.file path none)) :
    ∃ graph', graph.setStep id step = .ok graph' := by
  obtain ⟨node, hnode, hkind⟩ := Option.map_eq_some_iff.mp h
  refine ⟨graph.modify id fun _ => { node with kind := .file path (some step) }, ?_⟩
  rw [setStep, hnode]
  simp only [Node.setStep, hkind]
  rfl

end NodeGraph

namespace Resolve

open Build NodeGraph Project

variable {p q : Project} {id : TargetId} {env : EnvironmentId} {source : NodeId} {e : BuildError}
  {reqs : EffectiveRequirements}

/-- The step of a product can be set. -/
theorem not_fails_setProductStep {path : Path} {step : BuildStep} {change : Node → Node}
    (hindexed : p.graph.Indexed) (hchange : ∀ node, (change node).kind = node.kind) :
    ¬ Fails (setProductStep (p.graph.addProduct path).1 step)
      { p with graph := (p.graph.addProduct path).2.modify (p.graph.addProduct path).1 change }
      e q := by
  obtain ⟨known, hkind⟩ := hindexed.kind?_addProduct path
  rw [← kind?_modify _ (p.graph.addProduct path).1 _ hchange] at hkind
  obtain ⟨graph, hset⟩ : ∃ graph, NodeGraph.setStep _ _ step = .ok graph := setStep_of_file hkind
  rw [setProductStep, fails_get_bind, hset]
  intro hfails
  rcases fails_bind.mp hfails with hlift | ⟨_, _, -, hfails⟩
  · exact not_fails_pure hlift
  · exact not_fails_set hfails

/-! ### Objects -/

/-- Where the object of a source is put. -/
def objectPlace (p : Project) (id : TargetId) (source : NodeId) (handler : SourceHandler) : Path :=
  objectPath p.buildDir (p.targetName id) ⟨p.graph.name source⟩ handler.objectSuffix

/-- The report of an object whose path is made by a step. -/
def collision (p : Project) (id : TargetId) (source : NodeId) (place : Path) (step : BuildStep) :
    BuildError :=
  .target (p.targetName id) (.sharedObject
    ((step.sources.head?.map p.graph.name).getD "another source") ⟨p.graph.name source⟩ place)

/-- An object cannot be made exactly if its path is made by a step. -/
theorem fails_makeObject_iff {tc : Toolchain} {handler : SourceHandler}
    (hindexed : p.graph.Indexed) :
    Fails (makeObject id env tc handler reqs source) p e q ↔
      ∃ step, (p.graph.find (objectPlace p id source handler)).bind p.graph.step? = some step ∧
        e = collision p id source (objectPlace p id source handler) step ∧ q = p := by
  rw [makeObject, fails_get_bind]
  dsimp only
  rw [← objectPlace]
  cases hfind : (p.graph.find (objectPlace p id source handler)).bind p.graph.step? with
  | some step =>
      constructor
      · intro hfails
        rcases fails_bind.mp hfails with hthrow | ⟨_, _, hthrow, -⟩
        · obtain ⟨rfl, rfl⟩ := fails_throw.mp hthrow
          exact ⟨step, rfl, rfl, rfl⟩
        · exact absurd hthrow not_yields_throw
      · rintro ⟨_, heq, rfl, rfl⟩
        cases heq
        exact fails_bind.mpr (.inl (fails_throw.mpr ⟨rfl, rfl⟩))
  | none =>
      constructor
      · intro hfails
        rw [fails_set_bind] at hfails
        rcases fails_bind.mp hfails with hstep | ⟨_, _, -, hpure⟩
        · exact absurd hstep (not_fails_setProductStep hindexed (Node.kind_depends _ _))
        · exact absurd hpure not_fails_pure
      · rintro ⟨_, heq, -⟩
        cases heq

/-- The source is to be compiled, not for the first time under its path. -/
def Collides (p : Project) (id : TargetId) (envId : EnvironmentId) (c : Compilation)
    (source : NodeId) (e : BuildError) : Prop :=
  let path : Path := ⟨p.graph.name source⟩
  ∃ env tc handler step, p.environment? envId = some env ∧
    findAuxiliary env path.suffix = none ∧ findHandler env path.suffix = some (tc, handler) ∧
    (c.compiled.find? fun (known, _) => (p.absolute path).same known) = none ∧
    (p.graph.find (objectPlace p id source handler)).bind p.graph.step? = some step ∧
    e = collision p id source (objectPlace p id source handler) step

theorem fails_compileSource_iff {c : Compilation} (hindexed : p.graph.Indexed) :
    Fails (compileSource id env reqs c source) p e q ↔ Collides p id env c source e ∧ q = p := by
  unfold Collides
  rw [compileSource, fails_get_bind]
  dsimp only
  cases henv : p.environment? env with
  | none => simp
  | some tools =>
  cases haux : findAuxiliary tools (Path.suffix ⟨p.graph.name source⟩) with
  | some handler => simp [haux]
  | none =>
  cases hhandler : findHandler tools (Path.suffix ⟨p.graph.name source⟩) with
  | none => simp [haux, hhandler]
  | some found =>
  obtain ⟨tc, handler⟩ := found
  simp only [haux, hhandler]
  cases hknown : c.compiled.find? fun (known, _) =>
      (p.absolute ⟨p.graph.name source⟩).same known with
  | some entry =>
      constructor
      · intro hfails
        exact absurd hfails not_fails_pure
      · rintro ⟨⟨_, _, _, _, -, -, -, hnone, -⟩, -⟩
        cases hnone
  | none =>
      constructor
      · intro hfails
        rcases fails_bind.mp hfails with hmake | ⟨_, _, -, hpure⟩
        · obtain ⟨step, hstep, he, rfl⟩ := (fails_makeObject_iff hindexed).mp hmake
          exact ⟨⟨tools, tc, handler, step, rfl, haux, hhandler, rfl, hstep, he⟩, rfl⟩
        · exact absurd hpure not_fails_pure
      · rintro ⟨⟨_, _, _, step, henv', -, hhandler', -, hstep, he⟩, rfl⟩
        cases henv'
        rw [hhandler] at hhandler'
        cases hhandler'
        exact fails_bind.mpr (.inl ((fails_makeObject_iff hindexed).mpr ⟨step, hstep, he, rfl⟩))

/-- The first collision ends the compilation of a target's sources. -/
theorem fails_compileSources_iff {sources : List NodeId} {made : List NodeId} {jobs : List Job}
    {c : Compilation} (hsound : Sound ⟨p, made, jobs⟩)
    (hsources : ∀ source ∈ sources, source.index < p.graph.size) (hc : c.Within p) :
    Fails (sources.foldlM (compileSource id env reqs) c) p e q ↔
      ∃ before source after c', sources = before ++ source :: after ∧
        Yields (before.foldlM (compileSource id env reqs) c) p c' q ∧
          Collides q id env c' source e := by
  have hindexed : ∀ {before source after c' r}, sources = before ++ source :: after →
      Yields (before.foldlM (compileSource id env reqs) c) p c' r → r.graph.Indexed := by
    rintro before source after c' r rfl hbefore
    have hchanges := (compileSources_changes hsound (fun other hother =>
      hsources other (List.mem_append.mpr (.inl hother))) hc hbefore).1
    exact (Changes.sound hchanges hsound).indexed
  rw [fails_foldlM]
  constructor
  · rintro ⟨before, source, after, c', r, heq, hbefore, hfails⟩
    obtain ⟨hcollides, rfl⟩ := (fails_compileSource_iff (hindexed heq hbefore)).mp hfails
    exact ⟨before, source, after, c', heq, hbefore, hcollides⟩
  · rintro ⟨before, source, after, c', heq, hbefore, hcollides⟩
    exact ⟨before, source, after, c', q, heq, hbefore,
      (fails_compileSource_iff (hindexed heq hbefore)).mpr ⟨hcollides, rfl⟩⟩

/-! ### Outputs -/

theorem not_fails_makeOutput {t : Target} {deps : List (List NodeId)} {step : BuildStep}
    (hindexed : p.graph.Indexed) : ¬ Fails (makeOutput id t deps step) p e q := by
  rw [makeOutput, fails_get_bind]
  dsimp only
  rw [fails_set_bind]
  intro hfails
  rcases fails_bind.mp hfails with hstep | ⟨_, _, -, hmodify⟩
  · exact not_fails_setProductStep hindexed (Node.kind_foldl_depends deps) hstep
  · exact not_fails_modify hmodify

/-- An output can always be made. -/
theorem not_fails_produce (hindexed : p.graph.Indexed) : ¬ Fails (produce id env) p e q := by
  rcases produce_cases p id with hnothing | ⟨t, ht, htype | ⟨hcompiles, hmakes, hobjects⟩⟩
  · rw [Fails, run_produce_nothing hnothing]
    intro h
    cases h
  · rw [Fails, run_produce_object ht htype]
    intro h
    cases h
  · rw [Fails, run_produce ht hcompiles hmakes hobjects]
    refine not_fails_makeOutput ?_
    rcases effectiveRequirements_run id .link p with heq | ⟨_, heq⟩ <;> rwa [heq]

/-! ### Targets -/

theorem fails_compileTarget_iff {sources : List NodeId} (hsound : Sound ⟨p, [], []⟩)
    (hsources : ∀ source ∈ sources, source.index < p.graph.size) :
    Fails (compileTarget id env sources) p e q ↔
      Fails (sources.foldlM (compileSource id env ((effectiveRequirements id .compile).run p).1) {})
        ((effectiveRequirements id .compile).run p).2 e q := by
  have hreqs : Changes .compile ⟨p, [], []⟩ _ := effectiveRequirements_changes id .compile
  rw [compileTarget, fails_liftState_bind, fails_bind]
  refine or_iff_left ?_
  rintro ⟨c, r, hcompile, hrest⟩
  have hchanges := (compileSources_changes (Changes.sound hreqs hsound) (fun source hsource =>
    Nat.lt_of_lt_of_le (hsources source hsource) (Changes.size_le hreqs hsound))
    ⟨by simp, by simp⟩ hcompile).1
  have hindexed : r.graph.Indexed :=
    (Changes.sound (hreqs.trans hchanges) hsound).indexed
  rw [fails_modify_bind] at hrest
  rcases fails_bind.mp hrest with hproduce | ⟨_, _, -, hresolved⟩
  · refine not_fails_produce ?_ hproduce
    exact hindexed
  · exact not_fails_modify hresolved

/-- The turn of a target fails exactly if it compiles and the compilation fails. -/
theorem fails_resolveTarget_iff (hsound : Sound ⟨p, [], []⟩) :
    Fails (resolveTarget id) p e q ↔ ∃ t env, p.target? id = some t ∧ t.resolved = false ∧
      t.type.compiles = true ∧ t.env = some env ∧
      Fails (t.sources.foldlM
          (compileSource id env ((effectiveRequirements id .compile).run p).1) {})
        ((effectiveRequirements id .compile).run p).2 e q := by
  have hcompile : ∀ {t env}, p.target? id = some t → t.resolved = false →
      t.type.compiles = true → t.env = some env →
      (Fails (resolveTarget id) p e q ↔ Fails (t.sources.foldlM
          (compileSource id env ((effectiveRequirements id .compile).run p).1) {})
        ((effectiveRequirements id .compile).run p).2 e q) := by
    intro t env ht hopen htype henv
    rw [Fails, run_resolveTarget_compile ht hopen htype henv]
    exact fails_compileTarget_iff hsound fun source hsource =>
      hsound.targets id t ht source (Target.mem_nodes.mpr (.inl hsource))
  constructor
  · intro hfails
    rcases settled_or_open p id with hsettled | ⟨t, ht, hopen, htype | ⟨env, htype, henv⟩⟩
    · exact absurd hfails hsettled.yields.not_fails
    · rw [Fails, run_resolveTarget_interface ht hopen htype] at hfails
      exact absurd hfails not_fails_modify
    · exact ⟨t, env, ht, hopen, htype, henv, (hcompile ht hopen htype henv).mp hfails⟩
  · rintro ⟨t, env, ht, hopen, htype, henv, hfails⟩
    exact (hcompile ht hopen htype henv).mpr hfails

/-- The first phase comes to a source in `q`: in the turn of the target, which comes in `a`,
after some others have been compiled. -/
structure AtSource (p : Project) (order : List TargetId) (id : TargetId) (t : Target)
    (env : EnvironmentId) (a : Project) (done : List NodeId) (c : Compilation) (source : NodeId)
    (q : Project) : Prop where
  turn : ∃ before after, order = before ++ id :: after ∧
    Yields (before.forM resolveTarget) p ⟨⟩ a
  target : a.target? id = some t
  waits : t.resolved = false
  compiles : t.type.compiles = true
  environment : t.env = some env
  sources : ∃ rest, t.sources = done ++ source :: rest
  compiled : Yields
    (done.foldlM (compileSource id env ((effectiveRequirements id .compile).run a).1) {})
    ((effectiveRequirements id .compile).run a).2 c q

/-- Where the first phase fails: at a source that cannot be compiled. -/
structure FailsAt (p : Project) (order : List TargetId) (id : TargetId) (t : Target)
    (env : EnvironmentId) (a : Project) (done : List NodeId) (c : Compilation) (source : NodeId)
    (e : BuildError) (q : Project) : Prop extends
    AtSource p order id t env a done c source q where
  collides : Collides q id env c source e

theorem exists_failsAt {order : List TargetId} (hsound : Sound ⟨p, [], []⟩)
    (hfails : Fails (order.forM resolveTarget) p e q) :
    ∃ id t env a done c source, FailsAt p order id t env a done c source e q := by
  obtain ⟨before, id, after, a, rfl, hbefore, hturn⟩ := fails_forM.mp hfails
  have hsound' := Changes.sound (resolveTargets_changes hsound hbefore) hsound
  obtain ⟨t, env, ht, hopen, htype, henv, hcompile⟩ := (fails_resolveTarget_iff hsound').mp hturn
  have hreqs : Changes .compile ⟨a, [], []⟩ _ := effectiveRequirements_changes id .compile
  have hwithin : ∀ source ∈ t.sources, source.index < a.graph.size := fun source hsource =>
    hsound'.targets id t ht source (Target.mem_nodes.mpr (.inl hsource))
  obtain ⟨done, source, rest, c, hsources, hdone, hcollides⟩ :=
    (fails_compileSources_iff (Changes.sound hreqs hsound') (fun source hsource =>
      Nat.lt_of_lt_of_le (hwithin source hsource) (Changes.size_le hreqs hsound'))
      ⟨by simp, by simp⟩).mp hcompile
  exact ⟨id, t, env, a, done, c, source, ⟨⟨before, after, rfl, hbefore⟩, ht, hopen, htype, henv,
    ⟨rest, hsources⟩, hdone⟩, hcollides⟩

theorem FailsAt.error {order : List TargetId} {t : Target} {a : Project} {done : List NodeId}
    {c : Compilation} (h : FailsAt p order id t env a done c source e q) :
    ∃ name problem, e = .target name problem := by
  obtain ⟨_, _, _, _, -, -, -, -, -, he⟩ := h.collides
  exact ⟨_, _, he⟩

/-- A failure of the first phase is one of resolution. -/
theorem fails_resolve_of_compile {exist : Path → Bool} {order : List TargetId}
    (hordered : p.buildOrder = .ok order) (h : Fails (order.forM resolveTarget) p e q) :
    Fails (Project.resolve exist) p e q := by
  refine fails_bind.mpr (.inl ?_)
  rw [resolveAll, fails_get_bind]
  exact fails_bind.mpr (.inr ⟨order, p, yields_liftExcept.mpr ⟨hordered, rfl⟩,
    fails_bind.mpr (.inl h)⟩)

end Resolve

end BuildPlan
