import BuildPlan.Proofs.Resolve.ObjectCache
import BuildPlan.Proofs.Resolve.Retry

/-!
# BuildPlan.Proofs.Resolve.CompileSteps

The steps by which sources are compiled. Every one of them was made in the turn of a
target, by the toolchain that handles the source and under the requirements that the
target has. It stays as it is, whatever comes of the run, until its command is expanded.
-/

namespace BuildPlan.Resolve

open Build NodeGraph Project

variable {p q r compiled : Project} {s s' : Stage} {id : TargetId} {envId : EnvironmentId}
  {env : Environment} {source node : NodeId} {sources : List NodeId} {c c' : Compilation}
  {graph graph' : NodeGraph} {reqs : EffectiveRequirements} {path : Path} {step : BuildStep}
  {order : List TargetId} {tokens : List Token} {u : Unit}

/-! ### The sources of one target -/

/-- The step by which the source is compiled in an environment. -/
structure CompilesBy (p : Project) (envId : EnvironmentId) (reqs : EffectiveRequirements)
    (source : NodeId) (env : Environment) (tc : Toolchain) (handler : SourceHandler)
    (step : BuildStep) : Prop where
  environment : p.environment? envId = some env
  handles : findHandler env (Path.suffix ⟨p.graph.name source⟩) = some (tc, handler)
  step : ∃ place, step = compileStep tc handler envId source place reqs

/-- The objects that have been made since `p` are in the cache. -/
structure Cached (p : Project) (envId : EnvironmentId) (reqs : EffectiveRequirements)
    (c : Compilation) (graph : NodeGraph) : Prop where
  indexed : graph.Indexed
  keeps : KeepsMade p.graph graph
  objects : ∀ node path step, graph.made? node = some (path, step) → step.kind = .compile →
    p.graph.made? node = some (path, step) ∨ (∃ entry ∈ c.compiled, entry.2 = node) ∧
      ∃ source env tc handler, CompilesBy p envId reqs source env tc handler step

theorem Cached.start (hindexed : p.graph.Indexed) : Cached p envId reqs {} p.graph :=
  ⟨hindexed, .refl _, fun _ _ _ hmade _ => .inl hmade⟩

theorem compileSource_cached (h : Cached p envId reqs c graph)
    (hsource : source.index < p.graph.size)
    (hrun : Yields (compileSource id envId reqs c source) { p with graph } c' q) :
    ∃ graph', q = { p with graph := graph' } ∧ Cached p envId reqs c' graph' := by
  have hname : graph.name source = p.graph.name source := h.keeps.names source hsource
  rcases compileSource_inv hrun with ⟨rfl, hcompiled⟩ | ⟨env, tc, handler, object, henv, hhandler,
    hmake, hcompiled⟩
  · exact ⟨graph, rfl, h.indexed, h.keeps, by rw [hcompiled]; exact h.objects⟩
  obtain ⟨rfl, graph', hset, rfl⟩ := makeObject_inv hmake
  dsimp only at hset hhandler hcompiled ⊢
  rw [hname] at hhandler
  have hproduces : graph.Produces _ _ _ graph' := ⟨rfl, _, Node.kind_depends _ _, hset⟩
  obtain ⟨hproduct, hindexed⟩ := hproduces.product h.indexed
  obtain ⟨hkeeps, -⟩ := madeSince_of_product (p := { p with graph }) hproduct rfl
  obtain ⟨known, -, -, hmades⟩ := hproduct.made?_eq rfl
  refine ⟨graph', rfl, hindexed, h.keeps.trans hkeeps, fun node path step hmade hkind => ?_⟩
  rw [hmades] at hmade
  split at hmade
  · next heq =>
      cases hmade
      refine .inr ⟨⟨_, hcompiled ▸ List.mem_cons_self, heq.symm⟩, source, env, tc, handler, ?_⟩
      exact ⟨henv, hhandler, _, rfl⟩
  · refine (h.objects node path step hmade hkind).imp_right (And.imp_left ?_)
    rintro ⟨entry, hentry, heq⟩
    exact ⟨entry, hcompiled ▸ List.mem_cons_of_mem _ hentry, heq⟩

theorem compileSources_cached (h : Cached p envId reqs c graph)
    (hsources : ∀ source ∈ sources, source.index < p.graph.size)
    (hrun : Yields (sources.foldlM (compileSource id envId reqs) c) { p with graph } c' q) :
    ∃ graph', q = { p with graph := graph' } ∧ Cached p envId reqs c' graph' := by
  induction sources generalizing c graph with
  | nil =>
      obtain ⟨rfl, rfl⟩ := yields_pure.mp hrun
      exact ⟨graph, rfl, h⟩
  | cons source rest ih =>
      rw [List.foldlM_cons, yields_bind] at hrun
      obtain ⟨c₁, r, hfirst, hrest⟩ := hrun
      obtain ⟨graph₁, rfl, h₁⟩ := compileSource_cached h (hsources source List.mem_cons_self) hfirst
      exact ih h₁ (fun other hother => hsources other (List.mem_cons_of_mem _ hother)) hrest

/-! ### The turn of a target -/

theorem kind_outputStep (p : Project) (id : TargetId) (t : Target) (envId : EnvironmentId)
    (reqs : EffectiveRequirements) : (outputStep p id t envId reqs).kind ≠ .compile := by
  unfold outputStep
  split
  · exact fun h => StepKind.noConfusion h
  · exact fun h => StepKind.noConfusion h

/-- Nothing is compiled for the output of a target. -/
theorem made?_of_produce (hindexed : p.graph.Indexed) (h : Yields (produce id envId) p u q)
    (hmade : q.graph.made? node = some (path, step)) (hkind : step.kind = .compile) :
    p.graph.made? node = some (path, step) := by
  rcases produce_cases p id with hnothing | ⟨t, ht, htype | ⟨hcompiles, hmakes, hobjects⟩⟩
  · rw [Yields, run_produce_nothing hnothing] at h
    cases h
    exact hmade
  · rw [Yields, run_produce_object ht htype] at h
    cases h
    exact hmade
  rw [Yields, run_produce ht hcompiles hmakes hobjects] at h
  obtain ⟨graph, output, hproduces, rfl⟩ := makeOutput_inv h
  rw [(effectiveRequirements_touches id .link p).2] at hproduces
  obtain ⟨known, -, -, hmades⟩ := (hproduces.product hindexed).1.made?_eq outputStep_command
  have hafter : graph.made? node = some (path, step) := hmade
  rw [hmades] at hafter
  split at hafter
  · cases hafter
    exact absurd hkind (kind_outputStep _ _ _ _ _)
  · exact hafter

theorem effectiveRequirements_compile (p : Project) (id : TargetId) :
    ((effectiveRequirements id .compile).run p).1 =
      { includes := (p.requirementsOf id).includeDirs, defines := (p.requirementsOf id).defines,
        compileFlags := Flag.merge (p.separatedFlags id) (p.requirementsOf id).compileFlags
          (p.impliedFlags id) } := by
  have hrun : ((effectiveRequirements id .compile).run p).1 =
      { EffectiveRequirements.ofRequirements ((collectRequirements id).run p).1 .compile with
        compileFlags := Flag.merge (((collectRequirements id).run p).2.separatedFlags id)
          (EffectiveRequirements.ofRequirements ((collectRequirements id).run p).1
            .compile).compileFlags
          (((collectRequirements id).run p).2.impliedFlags id) } := rfl
  obtain ⟨hreqs, hstate⟩ := collectRequirements_run id p
  rw [hrun, hreqs]
  rcases hstate with hstate | hstate
  · rw [hstate]
    rfl
  · -- what has been collected has no part in the flags
    rw [hstate]
    generalize hnext : (p.modifyTarget id fun t =>
      { t with collected := some (p.requirementsOf id) }) = next
    have hat : next.target? id = (p.target? id).map fun t =>
        { t with collected := some (p.requirementsOf id) } := by
      rw [← hnext, target?_modifyTarget, if_pos rfl]
    have henv : next.targetEnvironment? id = p.targetEnvironment? id := by
      rw [targetEnvironment?, targetEnvironment?, hat,
        environment?_congr (hnext ▸ rfl : next.environments = p.environments)]
      cases p.target? id <;> rfl
    have himplied : next.impliedFlags id = p.impliedFlags id := by
      rw [impliedFlags, impliedFlags, henv, hat]
      cases p.target? id <;> cases (p.targetEnvironment? id).bind Environment.toolchain <;> rfl
    rw [separatedFlags, henv, himplied]
    rfl

/-- Before its turn a target asks for what it asked for when it was declared. -/
theorem effectiveRequirements_waiting (hfixed : Fixed p ⟨q, [], []⟩)
    (hwaiting : q.target? id = p.target? id) :
    ((effectiveRequirements id .compile).run q).1 =
      ((effectiveRequirements id .compile).run p).1 := by
  have henv := environment?_congr hfixed.environments
  have hgather : q.gatherRequirements = p.gatherRequirements :=
    gatherRequirements_congr hfixed.environments hfixed.size (hfixed.map fun _ => rfl)
  have hreqs : q.requirementsOf id = p.requirementsOf id := by
    rw [requirementsOf, requirementsOf, hwaiting, hgather]
  have hflags : q.separatedFlags id = p.separatedFlags id := by
    rw [separatedFlags, separatedFlags, targetEnvironment?, targetEnvironment?, hwaiting, henv]
  have himplied : q.impliedFlags id = p.impliedFlags id := by
    rw [impliedFlags, impliedFlags, targetEnvironment?, targetEnvironment?, hwaiting, henv]
  rw [effectiveRequirements_compile, effectiveRequirements_compile, hreqs, hflags, himplied]

/-- The node is the object of a source of the target. It is made by the toolchain that
handles the source, under the requirements of the target. -/
structure CompiledBy (p q : Project) (id : TargetId) (source node : NodeId) (env : Environment)
    (tc : Toolchain) (handler : SourceHandler) (step : BuildStep) : Prop where
  object : ObjectOf p q id source node
  environment : p.targetEnvironment? id = some env
  compiles : ∃ envId, CompilesBy p envId ((effectiveRequirements id .compile).run p).1 source env tc
    handler { step with command := none }

theorem CompiledFrom.source_eq (h : CompiledFrom p id source graph node)
    (hmade : graph.made? node = some (path, step)) : step.sources = [source] := by
  obtain ⟨_, _, _, -, -, hmade', -, hsources⟩ := h
  rw [hmade] at hmade'
  cases hmade'
  exact hsources

/-- What is compiled in the turn of a target is compiled for it, from the first of the sources
that are alike. -/
theorem Turn.compiledBy {a b : Project} (hfresh : p.Fresh) (hnodup : order.Nodup)
    (h : Turn order p id a b q) (hmade : b.graph.made? node = some (path, step))
    (hkind : step.kind = .compile) :
    a.graph.made? node = some (path, step) ∨ ∃ source env tc handler,
      source ∈ p.compiledSources id ∧ FromLeader p b id source node ∧
      p.targetEnvironment? id = some env ∧
      ∃ envId, CompilesBy p envId ((effectiveRequirements id .compile).run p).1 source env tc
        handler { step with command := none } := by
  rcases settled_or_open a id with hsettled | ⟨t, ht, hopen, htype | ⟨envId, htype, henvId⟩⟩
  · have hturn := h.turn
    rw [Yields, hsettled.yields] at hturn
    cases hturn
    exact .inl hmade
  · have hturn := h.turn
    rw [Yields, run_resolveTarget_interface ht hopen htype] at hturn
    rw [yields_modify.mp hturn] at hmade
    exact .inl hmade
  rw [h.waiting hnodup] at ht
  obtain ⟨begun, c, graph, hin⟩ := h.compiledIn hfresh hnodup ht htype henvId
  obtain ⟨noted, made, rfl, hindexed, hproduce, hgraph⟩ := hin.produce
  have hmade' := made?_of_produce hindexed hproduce (hgraph ▸ hmade) hkind
  have hbefore := h.before hfresh.sound
  have hreqs : ((effectiveRequirements id .compile).run _).1 = _ := effectiveRequirements_waiting
    ⟨hbefore.fixed.buildDir, hbefore.fixed.environments, hbefore.fixed.targets⟩ (h.waiting hnodup)
  have hcompile := hin.compile
  rw [hreqs] at hcompile
  obtain ⟨_, heq, hcached⟩ := compileSources_cached (.start hin.indexed) hin.within hcompile
  cases congrArg Project.graph heq
  rcases hcached.objects node path step hmade' hkind with hold | ⟨⟨entry, hentry, rfl⟩, source, env,
    tc, handler, henv, hhandles, hstep⟩
  · exact .inl (hin.unbuilt ▸ hold)
  -- the source that the node is compiled from is the first one with its normal form
  have henv₀ : p.environment? envId = some env := by
    rw [← environment?_congr hin.same.fixed.environments, henv]
  have htarget : p.targetEnvironment? id = some env := by
    rw [Project.targetEnvironment?, ht, Option.bind_some, henvId, Option.bind_some, henv₀]
  obtain ⟨_, heq', hcaching⟩ := compileSources_caching (.start hin.indexed) hin.within henv
    ((hin.same.targetEnvironment? id).trans htarget) hcompile
  cases congrArg Project.graph heq'
  obtain ⟨-, -, first, hfirst, hfrom⟩ := hcaching.entries entry hentry
  have hcommand : { step with command := none } = step := by
    rw [hstep.choose_spec]
    rfl
  obtain rfl : source = first := by
    have hsources := hfrom.source_eq hmade'
    rw [hstep.choose_spec] at hsources
    exact List.singleton_inj.mp hsources
  obtain ⟨t', ht', hobjects, -⟩ := hin.notes
  have hsource : source ∈ p.compiledSources id := by
    rw [compiledSources_eq ht htype htarget, ← hin.same.compiledBy ht env]
    exact List.mem_of_find?_eq_some hfirst
  have hsame : (begun.sourceKey source).same entry.1 = true := by
    rw [Path.same_comm]
    exact List.find?_some (p := fun other => entry.1.same (begun.sourceKey other)) hfirst
  obtain ⟨hobject, -⟩ :=
    hcaching.fromLeader hin.same ht htype htarget ht' hobjects hin.keeps hentry hsource hsame
  rw [hin.same.names id t ht source (mem_compiledBy.mp (compiledSources_eq ht htype htarget ▸
    hsource)).1] at hhandles
  exact .inr ⟨source, env, tc, handler, hsource, hobject, htarget, envId, henv₀, hhandles,
    hcommand ▸ hstep⟩

/-! ### The first phase -/

/-- Whatever is made in the first phase is made in the turn of a target. -/
theorem exists_turn_of_made {before after : List TargetId} {entry : Path × BuildStep}
    (hbefore : Yields (before.forM resolveTarget) p ⟨⟩ r)
    (hafter : Yields (after.forM resolveTarget) r ⟨⟩ q) (hmade : q.graph.made? node = some entry) :
    r.graph.made? node = some entry ∨ ∃ id a b, Turn (before ++ after) p id a b q ∧
      a.graph.made? node ≠ some entry ∧ b.graph.made? node = some entry := by
  induction after generalizing before r with
  | nil =>
      obtain ⟨-, rfl⟩ := yields_pure.mp hafter
      exact .inl hmade
  | cons id rest ih =>
      obtain ⟨_, s, hturn, hrest⟩ := yields_bind.mp hafter
      have hnext : Yields ((before ++ [id]).forM resolveTarget) p ⟨⟩ s :=
        yields_forM_append.mpr
          ⟨r, hbefore, yields_bind.mpr ⟨⟨⟩, s, hturn, yields_pure.mpr ⟨rfl, rfl⟩⟩⟩
      rcases ih hnext hrest with hearlier | hlater
      · by_cases hold : r.graph.made? node = some entry
        · exact .inl hold
        · exact .inr ⟨id, r, s, ⟨hturn, before, rest, rfl, hbefore, hrest⟩, hold, hearlier⟩
      · rw [List.append_assoc, List.singleton_append] at hlater
        exact .inr hlater

/-- Every step of the first phase that compiles a source does so for a target. -/
theorem exists_compiledBy (hfresh : p.Fresh) (hordered : p.buildOrder = .ok order)
    (hcompile : Yields (order.forM resolveTarget) p ⟨⟩ compiled)
    (hmade : compiled.graph.made? node = some (path, step)) (hkind : step.kind = .compile) :
    ∃ id source env tc handler, CompiledBy p compiled id source node env tc handler step := by
  have hnodup := nodup_buildOrder hordered
  have hstart : Yields ([].forM resolveTarget) p ⟨⟩ p := yields_pure.mpr ⟨rfl, rfl⟩
  rcases exists_turn_of_made hstart hcompile hmade with hold | ⟨id, a, b, hturn, hbefore, hafter⟩
  · obtain ⟨_, _, hkind, -⟩ := made?_eq_some_iff.mp hold
    exact absurd hkind hfresh.not_made
  · rcases hturn.compiledBy hfresh hnodup hafter hkind with
      hold | ⟨source, env, tc, handler, hsource, hfrom, henv, hcompiles⟩
    · exact absurd hold hbefore
    · have hinto := CompiledInto.start hfresh hordered hcompile
      have hobject := (hinto.objectOf_iff hfresh).mpr ⟨hsource, hinto.of_turn hfresh hturn hfrom⟩
      exact ⟨id, source, env, tc, handler, hobject, henv, hcompiles⟩

/-! ### What becomes of the steps of the first phase -/

/-- What a run has come to that has compiled all targets: the steps that do not copy are those
of the first phase, and those that have a command have the one that they expand to. -/
structure Continues (compiled : Project) (s : Stage) : Prop where
  after : After compiled s
  steps : ∀ node path step, s.project.graph.kind? node = some (.file path (some step)) →
    step.kind ≠ .copy →
    compiled.graph.kind? node = some (.file path (some { step with command := none })) ∧
      ∀ tokens, step.command = some tokens → expandStep compiled step = .ok (some tokens)

theorem Continues.start (hfresh : p.Fresh)
    (hcompile : Yields (order.forM resolveTarget) p ⟨⟩ compiled) :
    Continues compiled ⟨compiled, [], []⟩ := by
  have hchanges := resolveTargets_changes hfresh.sound hcompile
  refine ⟨⟨Changes.sound hchanges hfresh.sound, ⟨rfl, rfl, fun _ => rfl⟩, fun _ => rfl,
    fun _ _ ht _ => ⟨ht, by simp⟩, .refl _⟩, fun node path step hnode _ => ?_⟩
  obtain ⟨hcommand, -⟩ := (Changes.compiled hchanges hfresh).commands node path step hnode
  refine ⟨?_, fun tokens htokens => ?_⟩
  · rw [hnode, ← hcommand]
  · rw [hcommand] at htokens
    cases htokens

/-- Expansion adds commands, whatever comes of it. -/
theorem Continues.expand (h : Continues compiled ⟨q, [], []⟩) (start : Nat) :
    Continues compiled ⟨((expandCommands start).run.run q).2, [], []⟩ := by
  have hgains : GainsCommands q ((expandCommands start).run.run q).2 := leads_expandCommands start q
  have hchanges : Changes .expand ⟨q, [], []⟩ ⟨((expandCommands start).run.run q).2, [], []⟩ := by
    rcases yields_or_fails (expandCommands start) q with ⟨u, r, hyields⟩ | ⟨e, r, hfails⟩
    · rw [hyields]
      exact expandCommands_changes h.after.sound hyields
    · rw [hfails]
      exact (fails_expandCommands hfails).2.2 h.after.sound
  refine ⟨hchanges.after (by decide) h.after, fun node path step hnode hkind => ?_⟩
  obtain ⟨known, hknown⟩ : ∃ known, q.graph.node? node = some known := by
    have hlt := lt_size_of_kind? hnode
    rw [hgains.size] at hlt
    exact ⟨_, Array.getElem?_eq_getElem hlt⟩
  obtain ⟨next, hnext, hgain⟩ := hgains.nodes node known hknown
  rw [kind?, hnext, Option.map_some, Option.some.injEq] at hnode
  have hkindOf : q.graph.kind? node = some known.kind := by rw [kind?, hknown, Option.map_some]
  cases hgain with
  | same =>
      rw [hnode] at hkindOf
      exact h.steps node path step hkindOf hkind
  | gain hold hnone hexpand =>
      cases hnode
      rw [hold] at hkindOf
      obtain ⟨hsame, -⟩ := h.steps node _ _ hkindOf hkind
      refine ⟨hsame, fun tokens htokens => ?_⟩
      cases htokens
      rw [← expandStep_congr h.after.fixed.environments]
      exact hexpand

/-- Installing targets adds copies and groups. -/
theorem Continues.install (h : Continues compiled ⟨q, [], []⟩)
    (hchanges : Changes .install ⟨q, [], []⟩ s) : Continues compiled s := by
  refine ⟨hchanges.after (by decide) h.after, fun node path step hnode hkind => ?_⟩
  rcases (hchanges.copied h.after.sound).copies node path step hnode with hold | ⟨-, -, hcopy⟩
  · exact h.steps node path step hold hkind
  · exact absurd hcopy hkind

theorem Runs.continues {expanded copied installed : Project} (hfresh : p.Fresh)
    (h : Runs p order compiled expanded copied installed q) : Continues compiled ⟨q, [], []⟩ := by
  have hparts := h.parts hfresh.sound
  have hexpanded := (Continues.start hfresh h.compile).expand 0
  rw [h.expand] at hexpanded
  have hfinished := (hexpanded.install hparts.install).expand expanded.graph.size
  rw [h.finish] at hfinished
  exact hfinished

/-- Nothing has a command in a run that fails while targets are compiled. -/
theorem command_eq_none_of_fails {e : BuildError} (hfresh : p.Fresh)
    (h : Fails (order.forM resolveTarget) p e q) (hstep : q.graph.step? node = some step) :
    step.command = none := by
  obtain ⟨id, t, env, a, done, c, source, hat⟩ := exists_failsAt hfresh.sound h
  obtain ⟨before, after, -, hbefore⟩ := hat.turn
  have hturns := resolveTargets_changes hfresh.sound hbefore
  have hsound := Changes.sound hturns hfresh.sound
  have hreqs : Changes .compile ⟨a, [], []⟩ _ := effectiveRequirements_changes id .compile
  obtain ⟨rest, hsources⟩ := hat.sources
  have hwithin : ∀ other ∈ done, other.index <
      ((effectiveRequirements id .compile).run a).2.graph.size := by
    intro other hother
    refine Nat.lt_of_lt_of_le ?_ (Changes.size_le hreqs hsound)
    refine hsound.targets id t hat.target other (Target.mem_nodes.mpr (.inl ?_))
    rw [hsources]
    exact List.mem_append_left _ hother
  obtain ⟨hobjects, -⟩ :=
    compileSources_changes (Changes.sound hreqs hsound) hwithin ⟨by simp, by simp⟩ hat.compiled
  have hcompiled := Changes.compiled ((hturns.trans hreqs).trans hobjects) hfresh
  obtain ⟨path, hnode⟩ := step?_eq_some_iff.mp hstep
  exact (hcompiled.commands node path step hnode).1

/-- A run that leaves a command, whatever comes of it, has compiled all targets. -/
theorem exists_continues {exist : Path → Bool} {result : Except BuildError Unit} (hfresh : p.Fresh)
    (hrun : (Project.resolve exist).run.run p = (result, q))
    (hstep : q.graph.step? node = some step) (hcommand : step.command = some tokens) :
    ∃ order compiled made jobs, p.buildOrder = .ok order ∧
      Yields (order.forM resolveTarget) p ⟨⟩ compiled ∧ Continues compiled ⟨q, made, jobs⟩ := by
  have hdone : Yields resolveAll p () q → ∃ order compiled made jobs, p.buildOrder = .ok order ∧
      Yields (order.forM resolveTarget) p ⟨⟩ compiled ∧ Continues compiled ⟨q, made, jobs⟩ := by
    intro hall
    obtain ⟨order, compiled, _, _, _, hruns⟩ := yields_resolveAll_iff.mp hall
    exact ⟨order, compiled, [], [], hruns.ordered, hruns.compile, hruns.continues hfresh⟩
  cases result with
  | ok u => exact hdone (resolve_inv hrun)
  | error e =>
      cases fails_resolve hrun with
      | order hcycle =>
          obtain ⟨path, hnode⟩ := step?_eq_some_iff.mp hstep
          exact absurd hnode hfresh.not_made
      | compile hordered hfails =>
          rw [command_eq_none_of_fails hfresh hfails hstep] at hcommand
          cases hcommand
      | @expand order compiled _ hordered hcompile hfails =>
          have hexpanded := (Continues.start hfresh hcompile).expand 0
          rw [hfails] at hexpanded
          exact ⟨order, compiled, [], [], hordered, hcompile, hexpanded⟩
      | @install order compiled expanded _ hordered hcompile hexpand hfails =>
          have hexpanded := (Continues.start hfresh hcompile).expand 0
          rw [hexpand] at hexpanded
          obtain ⟨_, _, -, -, -, made, jobs, hchanges⟩ :=
            fails_installs hexpanded.after.sound hfails
          exact ⟨order, compiled, made, jobs, hordered, hcompile, hexpanded.install hchanges⟩
      | @finish order compiled expanded copied installed _ hordered hcompile hexpand hinstall hgroup
          hfails =>
          have hexpanded := (Continues.start hfresh hcompile).expand 0
          rw [hexpand] at hexpanded
          have hcopied : Changes .install ⟨expanded, [], []⟩ ⟨copied, [], []⟩ :=
            forM_changes (fun _ _ _ _ hs => install_changes hs) hexpanded.after.sound hinstall
          have hgrouped : Changes .install ⟨copied, [], []⟩ ⟨installed, [], []⟩ :=
            forM_changes (fun _ _ _ _ _ => makeGroup_changes)
              (Changes.sound hcopied hexpanded.after.sound) hgroup
          have hfinished :=
            (hexpanded.install (hcopied.trans hgrouped)).expand expanded.graph.size
          rw [hfails] at hfinished
          exact ⟨order, compiled, [], [], hordered, hcompile, hfinished⟩
      | validate hall => exact hdone hall

theorem Continues.environments {made : List NodeId} {jobs : List Job} (hfresh : p.Fresh)
    (hcompile : Yields (order.forM resolveTarget) p ⟨⟩ compiled)
    (h : Continues compiled ⟨q, made, jobs⟩) : q.environments = p.environments :=
  h.after.fixed.environments.trans (resolveTargets_changes hfresh.sound hcompile).environments

/-- Every step that compiles does so for a target, as the declarations say. -/
theorem Continues.compiledBy {made : List NodeId} {jobs : List Job} (hfresh : p.Fresh)
    (hordered : p.buildOrder = .ok order)
    (hcompile : Yields (order.forM resolveTarget) p ⟨⟩ compiled)
    (h : Continues compiled ⟨q, made, jobs⟩) (hstep : q.graph.step? node = some step)
    (hkind : step.kind = .compile) :
    ∃ id source env tc handler, CompiledBy p q id source node env tc handler step := by
  obtain ⟨path, hnode⟩ := step?_eq_some_iff.mp hstep
  obtain ⟨hearlier, -⟩ := h.steps node path step hnode (by simp [hkind])
  have hmade : compiled.graph.made? node = some (path, { step with command := none }) :=
    made?_eq_some_iff.mpr ⟨path, _, hearlier, rfl⟩
  obtain ⟨id, source, env, tc, handler, hby⟩ :=
    exists_compiledBy hfresh hordered hcompile hmade hkind
  exact ⟨id, source, env, tc, handler, hby.object.mono (h.after.objects id), hby.environment,
    hby.compiles⟩

/-! ### A single source -/

/-- A project in which `x.c` is all that there is to compile. -/
def oneSource (name : String) (env : Environment) (privateReqs : Requirements) : Project where
  name
  environments := #[env]
  targets := #[{ name := "t", type := .object, env := some ⟨0⟩, sources := [⟨0⟩], privateReqs }]
  graph := (NodeGraph.file {} ⟨"x.c"⟩).2

theorem fresh_oneSource (name : String) (env : Environment) (privateReqs : Requirements) :
    (oneSource name env privateReqs).Fresh := by
  have hnew : Fresh { name, environments := #[env] } :=
    (fresh_new name ⟨"."⟩ ⟨"build"⟩ false).withEnvironments _
  refine (hnew.file ⟨"x.c"⟩).withTargets fun t ht => ?_
  obtain rfl := Array.mem_singleton.mp ht
  refine ⟨rfl, rfl, rfl, by simp, fun node hnode => ?_⟩
  obtain rfl : node = ⟨0⟩ := by simpa [Target.nodes] using hnode
  exact Nat.zero_lt_one

/-- Where nothing is installed or grouped, the turns and the commands are all that a run
comes to. -/
theorem yields_resolve_of_commands {exist : Path → Bool} (hordered : p.buildOrder = .ok order)
    (hcompile : Yields (order.forM resolveTarget) p ⟨⟩ compiled)
    (hcommands : Yields (expandCommands 0) compiled () q)
    (hplans : ∀ id ∈ order, compiled.plan? id = none) (hgroups : compiled.groups = [])
    (hlenient : compiled.strict = false) : Yields (Project.resolve exist) p () q := by
  have hsame : q = { compiled with graph := q.graph } :=
    ((leads_expandCommands 0 compiled).yields hcommands).project
  have hinstall : Yields (order.forM install) q ⟨⟩ q := by
    refine installs_idle fun id hid => ?_
    rw [hsame]
    exact hplans id hid
  have hgroup : Yields (q.groups.forM fun group => makeGroup group.1 group.2) q ⟨⟩ q := by
    have hnone : q.groups = [] := by rw [hsame, hgroups]
    rw [hnone]
    exact yields_pure.mpr ⟨rfl, rfl⟩
  have hfinish : Yields (expandCommands q.graph.size) q () q := by
    have hlast : q.graph.ids.drop q.graph.size = [] := by simp [ids_drop]
    rw [expandCommands, yields_get_bind, hlast]
    exact yields_pure.mpr ⟨rfl, rfl⟩
  refine yields_resolve_of_lenient (yields_resolveAll_iff.mpr ⟨_, _, _, _, _,
    hordered, hcompile, hcommands, hinstall, hgroup, hfinish⟩) ?_
  rw [hsame, hlenient]

/-- Where one target compiles one source, its turn and the command of the object are all that
a run comes to. -/
theorem yields_resolve_oneSource {exist : Path → Bool} (hordered : p.buildOrder = .ok [id])
    (hturn : Yields (resolveTarget id) p ⟨⟩ compiled) (hids : compiled.graph.ids = [source, node])
    (hsource : compiled.graph.step? source = none) (hstep : compiled.graph.step? node = some step)
    (hnone : step.command = none) (hexpand : expandStep compiled step = .ok (some tokens))
    (hplan : compiled.plan? id = none) (hgroups : compiled.groups = [])
    (hlenient : compiled.strict = false) :
    Yields (Project.resolve exist) p ()
      { compiled with graph := compiled.graph.setCommand node tokens } := by
  have hcompile : Yields ([id].forM resolveTarget) p ⟨⟩ compiled :=
    yields_bind.mpr ⟨⟨⟩, _, hturn, yields_pure.mpr ⟨rfl, rfl⟩⟩
  have hidle : Yields (expandNode source) compiled () compiled := by
    rw [expandNode, yields_get_bind, hsource]
    exact yields_pure.mpr ⟨rfl, rfl⟩
  have hobject : Yields (expandNode node) compiled () _ :=
    yields_expandNode_of_command hstep hnone hexpand
  refine yields_resolve_of_commands hordered hcompile ?_
    (fun other hother => List.mem_singleton.mp hother ▸ hplan) hgroups hlenient
  rw [expandCommands, yields_get_bind, hids]
  exact yields_bind.mpr ⟨⟨⟩, _, hidle, yields_bind.mpr ⟨⟨⟩, _, hobject,
    yields_pure.mpr ⟨rfl, rfl⟩⟩⟩

end BuildPlan.Resolve
