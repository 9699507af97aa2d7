import BuildPlan.Proofs.Resolve.CompiledSources
import BuildPlan.Proofs.Resolve.Repeat
import Mathlib.Data.List.Find

/-!
# BuildPlan.Proofs.Resolve.Collision

A target whose sources collide, when resolution is repeated. The objects that were
made before the collision stay, so the first source that the target compiles finds
the path of its object taken, by its own object if it has one.
-/

namespace BuildPlan.Resolve

open Build NodeGraph Project

variable {p q r : Project} {id : TargetId} {envId : EnvironmentId} {env : Environment}
  {source first node : NodeId} {sources done : List NodeId} {c c' : Compilation}
  {graph : NodeGraph} {reqs : EffectiveRequirements} {t : Target} {e : BuildError}

/-! ### Reports -/

/-- The report says of a source that the path of its object is made already. -/
def Blames (p : Project) (id : TargetId) (source : NodeId) (e : BuildError) : Prop :=
  ∃ other place, e = .target (p.targetName id) (.sharedObject other ⟨p.graph.name source⟩ place)

theorem Collides.blames (h : Collides p id envId c source e) : Blames p id source e := by
  obtain ⟨_, _, _, _, -, -, -, -, -, he⟩ := h
  exact ⟨_, _, he⟩

/-- Of what a target has taken in, a collision looks at the cache alone. -/
theorem Collides.withCache (h : Collides p id envId c source e)
    (hnone : (c'.compiled.find? fun (known, _) =>
      (p.absolute ⟨p.graph.name source⟩).same known) = none) :
    Collides p id envId c' source e := by
  obtain ⟨env, tc, handler, step, henv, haux, hhandler, -, hbuilt, he⟩ := h
  exact ⟨env, tc, handler, step, henv, haux, hhandler, hnone, hbuilt, he⟩

theorem Collides.withTarget {f : Target → Target} (hf : ∀ t, (f t).name = t.name)
    (h : Collides p id envId c source e) : Collides (p.modifyTarget id f) id envId c source e := by
  have hname : (p.modifyTarget id f).targetName = p.targetName := by
    funext other
    rw [targetName, targetName, target?_modifyTarget]
    split
    · next heq =>
        rw [heq]
        cases p.target? id <;> simp [hf]
    · rfl
  unfold Collides objectPlace collision at h ⊢
  rw [hname]
  exact h

/-- An object's path is made by a step, if not by that of the object itself. -/
theorem CompiledFrom.occupied (h : CompiledFrom p id source graph node)
    (hindexed : graph.Indexed) : ∃ place step, p.objectPlace? id source = some place ∧
      (graph.find place).bind graph.step? = some step := by
  obtain ⟨place, path, step, hplace, hsame, hmade, -, -⟩ := h
  obtain ⟨path', made, hkind, heq⟩ := made?_eq_some_iff.mp hmade
  cases heq
  obtain ⟨top, htop, hbuilt⟩ := hindexed.found node path made hkind
  obtain ⟨step', hstep'⟩ := Option.isSome_iff_exists.mp hbuilt
  refine ⟨place, step', hplace, ?_⟩
  rw [find_congr hsame, htop, Option.bind_some, hstep']

/-! ### The first source that is compiled -/

/-- The first of some sources that an environment compiles. -/
def firstCompiled? (p : Project) (env : Environment) (sources : List NodeId) : Option NodeId :=
  sources.find? fun source => env.Compiles ⟨p.graph.name source⟩

theorem head?_compiledBy (p : Project) (env : Environment) (sources : List NodeId) :
    (p.compiledBy env sources).head? = firstCompiled? p env sources := by
  rw [compiledBy, List.head?_filter, firstCompiled?]

theorem head?_compiledSources (ht : p.target? id = some t) (htype : t.type.compiles = true)
    (henvId : t.env = some envId) (henv : p.environment? envId = some env) :
    (p.compiledSources id).head? = firstCompiled? p env t.sources := by
  have htargetEnv : p.targetEnvironment? id = some env := by
    rw [targetEnvironment?, ht, Option.bind_some, henvId, Option.bind_some, henv]
  unfold compiledSources
  rw [ht, htargetEnv]
  simp only [htype, if_true]
  exact head?_compiledBy p env t.sources

/-- A source that is not compiled leaves the project and the cache alone. -/
theorem compileSource_idle (henv : p.environment? envId = some env)
    (h : ¬ env.Compiles ⟨p.graph.name source⟩) :
    ∃ c', Yields (compileSource id envId reqs c source) p c' p ∧ c'.compiled = c.compiled := by
  rw [Environment.compiles_iff] at h
  rw [compileSource]
  simp only [yields_get_bind, henv]
  cases haux : findAuxiliary env (Path.suffix ⟨p.graph.name source⟩) with
  | some handler => exact ⟨_, yields_pure.mpr ⟨rfl, rfl⟩, rfl⟩
  | none =>
  cases hhandler : findHandler env (Path.suffix ⟨p.graph.name source⟩) with
  | none =>
      refine ⟨_, yields_pure.mpr ⟨rfl, rfl⟩, ?_⟩
      split <;> rfl
  | some found =>
      rw [haux, hhandler] at h
      exact absurd ⟨rfl, rfl⟩ h

theorem compileSources_idle (henv : p.environment? envId = some env)
    (h : ∀ source ∈ sources, ¬ env.Compiles ⟨p.graph.name source⟩) :
    ∃ c', Yields (sources.foldlM (compileSource id envId reqs) c) p c' p ∧
      c'.compiled = c.compiled := by
  induction sources generalizing c with
  | nil => exact ⟨c, yields_pure.mpr ⟨rfl, rfl⟩, rfl⟩
  | cons source rest ih =>
      obtain ⟨c₁, hfirst, hc₁⟩ := compileSource_idle henv (h source List.mem_cons_self)
      obtain ⟨c', hrest, hc'⟩ := ih fun other hother => h other (List.mem_cons_of_mem _ hother)
      rw [List.foldlM_cons]
      exact ⟨c', yields_bind.mpr ⟨c₁, p, hfirst, hrest⟩, hc'.trans hc₁⟩

/-- If the first source that is compiled collides, compilation fails there. -/
theorem fails_compileSources_of_first (hsound : Sound ⟨p, [], []⟩)
    (hsources : ∀ source ∈ sources, source.index < p.graph.size)
    (henv : p.environment? envId = some env) (hfirst : firstCompiled? p env sources = some first)
    (hcollides : Collides p id envId {} first e) :
    Fails (sources.foldlM (compileSource id envId reqs) {}) p e p := by
  obtain ⟨-, before, after, rfl, hbefore⟩ := List.find?_eq_some_iff_append.mp hfirst
  obtain ⟨c, hidle, hc⟩ : ∃ c, Yields (before.foldlM (compileSource id envId reqs) {}) p c p ∧
      c.compiled = [] :=
    compileSources_idle henv fun source hsource => by simpa using hbefore source hsource
  refine (fails_compileSources_iff hsound hsources ⟨by simp, by simp⟩).mpr
    ⟨before, first, after, c, rfl, hidle, hcollides.withCache ?_⟩
  rw [hc]
  rfl

/-- A target whose first source collides has no successful turn. -/
theorem fails_resolveTarget_of_first (hsound : Sound ⟨p, [], []⟩) (ht : p.target? id = some t)
    (hopen : t.resolved = false) (htype : t.type.compiles = true) (henvId : t.env = some envId)
    (henv : p.environment? envId = some env)
    (hfirst : firstCompiled? p env t.sources = some first)
    (hcollides : Collides p id envId {} first e) : ∃ q, Fails (resolveTarget id) p e q := by
  have hsources : ∀ source ∈ t.sources, source.index < p.graph.size := fun source hsource =>
    hsound.targets id t ht source (Target.mem_nodes.mpr (.inl hsource))
  have hreqs : Changes .compile ⟨p, [], []⟩ _ := effectiveRequirements_changes id .compile
  have hsound' := hreqs.sound hsound
  refine ⟨((effectiveRequirements id .compile).run p).2, (fails_resolveTarget_iff hsound).mpr
    ⟨t, envId, ht, hopen, htype, henvId, ?_⟩⟩
  rcases effectiveRequirements_run id .compile p with heq | ⟨collected, heq⟩
  · rw [heq] at hsound' ⊢
    exact fails_compileSources_of_first hsound' hsources henv hfirst hcollides
  · rw [heq] at hsound' ⊢
    exact fails_compileSources_of_first hsound' hsources henv hfirst
      (hcollides.withTarget fun _ => rfl)

/-! ### After a collision -/

/-- The first source that was compiled has an object of its own. -/
theorem Caching.exists_first (h : Caching p id env done c graph)
    (hfirst : firstCompiled? p env done = some first) :
    ∃ entry ∈ c.compiled, (p.sourceKey first).same entry.1 = true ∧
      CompiledFrom p id first graph entry.2 := by
  rw [← head?_compiledBy] at hfirst
  obtain ⟨rest, hdone⟩ := List.head?_eq_some_iff.mp hfirst
  obtain ⟨entry, hentry, hsame⟩ := h.covered first (by simp [hdone])
  obtain ⟨-, -, first', hfirst', hfrom⟩ := h.entries entry hentry
  rw [hdone, List.find?_cons, Path.same_comm, hsame] at hfirst'
  cases hfirst'
  exact ⟨entry, hentry, hsame, hfrom⟩

/-- What a collision leaves: the target still waits, and the first of its sources that is
compiled collides. If that is the source that was reported, so is the report the same. -/
structure Blocked (q : Project) (id : TargetId) (source : NodeId) (e : BuildError) (t : Target)
    (envId : EnvironmentId) (env : Environment) (first : NodeId) (e' : BuildError) : Prop where
  target : q.target? id = some t
  waits : t.resolved = false
  compiles : t.type.compiles = true
  environment : t.env = some envId ∧ q.environment? envId = some env
  leads : firstCompiled? q env t.sources = some first
  collides : Collides q id envId {} first e'
  same : q.graph.name source = q.graph.name first → e' = e

/-- The source collides that is the first to be compiled. -/
theorem Collides.blocked (h : Collides q id envId c source e) (ht : q.target? id = some t)
    (hopen : t.resolved = false) (htype : t.type.compiles = true) (henvId : t.env = some envId)
    (henv : q.environment? envId = some env) {rest : List NodeId}
    (hsources : t.sources = done ++ source :: rest) (hnone : firstCompiled? q env done = none) :
    Blocked q id source e t envId env source e := by
  refine ⟨ht, hopen, htype, ⟨henvId, henv⟩, ?_, h.withCache rfl, fun _ => rfl⟩
  obtain ⟨env', tc, handler, _, henv', haux, hhandler, -⟩ := h
  rw [henv] at henv'
  cases henv'
  have hcompiles : env.Compiles ⟨q.graph.name source⟩ :=
    Environment.compiles_iff.mpr ⟨haux, by rw [hhandler]; rfl⟩
  unfold firstCompiled? at hnone ⊢
  rw [hsources, List.find?_append, hnone, Option.none_or, List.find?_cons,
    decide_eq_true hcompiles]

/-- The source collides after another one has been compiled, which now collides with
its own object. -/
theorem Caching.blocked (h : Caching p id env done c graph)
    (hcollides : Collides { p with graph } id envId c source e) (ht : p.target? id = some t)
    (hopen : t.resolved = false) (htype : t.type.compiles = true) (henvId : t.env = some envId)
    (henv : p.environment? envId = some env) {rest : List NodeId}
    (hsources : t.sources = done ++ source :: rest)
    (hwithin : ∀ source ∈ done, source.index < p.graph.size)
    (hfirst : firstCompiled? { p with graph } env done = some first) :
    ∃ e', Blocked { p with graph } id source e t envId env first e' := by
  have hname : ∀ other ∈ done, graph.name other = p.graph.name other :=
    fun other hother => h.keeps.names other (hwithin other hother)
  have hfirst' : firstCompiled? p env done = some first := by
    rw [← hfirst]
    refine List.find?_congr fun other hother => ?_
    rw [← hname other hother]
  have hmem : first ∈ done := List.mem_of_find?_eq_some hfirst
  obtain ⟨entry, hentry, hsame, hfrom⟩ := h.exists_first hfirst'
  obtain ⟨place, step, hplace, hbuilt⟩ := hfrom.occupied h.indexed
  have hcompiles : env.Compiles ⟨graph.name first⟩ := by simpa using List.find?_some hfirst
  obtain ⟨haux, hhandler⟩ := Environment.compiles_iff.mp hcompiles
  obtain ⟨⟨tc, handler⟩, hhandler⟩ := Option.isSome_iff_exists.mp hhandler
  -- the path that is made is the one where the object of the source would be put
  have hobject : objectPlace { p with graph } id first handler = place := by
    have htargetEnv : p.targetEnvironment? id = some env := by
      rw [targetEnvironment?, ht, Option.bind_some, henvId, Option.bind_some, henv]
    rw [objectPlace?, htargetEnv, Option.bind_some, ← hname first hmem, hhandler] at hplace
    rw [← Option.some.inj hplace]
    dsimp only [objectPlace]
    rw [hname first hmem]
    rfl
  refine ⟨collision { p with graph } id first place step, ht, hopen, htype, ⟨henvId, henv⟩, ?_,
    ⟨env, tc, handler, step, henv, haux, hhandler, rfl, ?_, ?_⟩, fun heq => ?_⟩
  · rw [firstCompiled?, hsources, List.find?_append]
    rw [firstCompiled?] at hfirst
    rw [hfirst]
    rfl
  · rw [hobject]
    exact hbuilt
  · rw [hobject]
  · -- the source that was reported is not in the cache, and this one is
    obtain ⟨_, _, _, _, -, -, -, hnew, -⟩ := hcollides
    dsimp only at heq hnew
    rw [heq, hname first hmem] at hnew
    exact absurd hsame (List.find?_eq_none.mp hnew entry hentry)

theorem FailsAt.blocked {order : List TargetId} {a : Project} (hsound : Sound ⟨p, [], []⟩)
    (h : FailsAt p order id t envId a done c source e q) :
    Changes .compile ⟨a, [], []⟩ ⟨q, [], []⟩ ∧
      ∃ t' env first e', Blocked q id source e t' envId env first e' := by
  obtain ⟨⟨⟨before, after, -, hbefore⟩, ht, hopen, htype, henvId, ⟨rest, hsources⟩, hdone⟩,
    hcollides⟩ := h
  have hsound' := Changes.sound (resolveTargets_changes hsound hbefore) hsound
  have hreqs : Changes .compile ⟨a, [], []⟩ _ := effectiveRequirements_changes id .compile
  have hwithin : ∀ source ∈ done, source.index <
      ((effectiveRequirements id .compile).run a).2.graph.size := by
    intro other hother
    refine Nat.lt_of_lt_of_le (hsound'.targets id t ht other ?_) (hreqs.size_le hsound')
    exact Target.mem_nodes.mpr (.inl (by simp [hsources, hother]))
  obtain ⟨t', ht', hnotes⟩ := effectiveRequirements_target ht .compile
  have hbegun := hreqs.sound hsound'
  refine ⟨hreqs.trans (compileSources_changes hbegun hwithin ⟨by simp, by simp⟩ hdone).1, t', ?_⟩
  revert hdone hwithin ht' hbegun
  generalize ((effectiveRequirements id .compile).run a).2 = begun
  intro hdone hwithin ht' hbegun
  obtain ⟨graph, rfl⟩ := compileSources_graph hdone
  have hopen' : t'.resolved = false := hnotes.resolved.trans hopen
  have htype' : t'.type.compiles = true := by rwa [Target.type_of_declared hnotes.declared]
  have henvId' : t'.env = some envId := (Target.env_of_declared hnotes.declared).trans henvId
  have hsources' := (Target.sources_of_declared hnotes.declared).trans hsources
  have hfound := hcollides
  obtain ⟨env, _, _, _, henv, -⟩ := hfound
  have htargetEnv : begun.targetEnvironment? id = some env := by
    rw [targetEnvironment?, ht', Option.bind_some, henvId', Option.bind_some]
    exact henv
  obtain ⟨graph', heq, hcaching⟩ :=
    compileSources_caching (Caching.start hbegun.indexed) hwithin henv htargetEnv hdone
  have hgraph : graph = graph' := congrArg Project.graph heq
  subst hgraph
  cases hfirst : firstCompiled? { begun with graph } env done with
  | none =>
      exact ⟨env, source, e,
        hcollides.blocked ht' hopen' htype' henvId' henv hsources' hfirst⟩
  | some first =>
      obtain ⟨e', hblocked⟩ := hcaching.blocked hcollides ht' hopen' htype' henvId' henv hsources'
        hwithin hfirst
      exact ⟨env, first, e', hblocked⟩

/-- A collision is met again: resolution fails at the first source that the target
compiles. -/
theorem FailsAt.again {order : List TargetId} {a : Project} (hsound : Sound ⟨p, [], []⟩)
    (hordered : p.buildOrder = .ok order) (h : FailsAt p order id t envId a done c source e q)
    (exist : Path → Bool) :
    ∃ first e', (q.compiledSources id).head? = some first ∧ Blames q id first e' ∧
      (q.graph.name source = q.graph.name first → e' = e) ∧
      ∃ q', Fails (Project.resolve exist) q e' q' := by
  obtain ⟨hchanges, t', env, first, e', hblocked⟩ := h.blocked hsound
  obtain ⟨before, after, rfl, hbefore⟩ := h.turn
  obtain ⟨henvId, henv⟩ := hblocked.environment
  have hall : Changes .compile ⟨p, [], []⟩ ⟨q, [], []⟩ :=
    (resolveTargets_changes hsound hbefore).trans hchanges
  have hsound' := hall.sound hsound
  have hordered' : q.buildOrder = .ok (before ++ id :: after) :=
    hall.fixed.buildOrder.trans hordered
  obtain ⟨q', hturn⟩ := fails_resolveTarget_of_first hsound' hblocked.target hblocked.waits
    hblocked.compiles henvId henv hblocked.leads hblocked.collides
  refine ⟨first, e', ?_, hblocked.collides.blames, hblocked.same, q',
    fails_resolve_of_compile hordered' (fails_forM.mpr ⟨before, id, after, q, rfl, ?_, hturn⟩)⟩
  · rw [head?_compiledSources hblocked.target hblocked.compiles henvId henv, hblocked.leads]
  · -- the targets before have had their turns
    exact turns_idle fun other hother =>
      hchanges.settled (resolveTargets_settled hbefore other hother)

end BuildPlan.Resolve
