import BuildPlan.Proofs.Path
import BuildPlan.Proofs.Resolve.Failure

/-!
# BuildPlan.Proofs.Resolve.CompiledSources

The sources that a target compiles. In its turn a target caches an object for each
normal form among them, which is compiled from the first source with that form.
-/

namespace BuildPlan

open Resolve

/-- Sources at the path are compiled: no toolchain passes them to the linker, and one
handles them by a tool that exists. -/
def Environment.Compiles (env : Environment) (path : Path) : Prop :=
  (∀ tc ∈ env.toolchains, tc.auxiliaryHandler path.suffix = none) ∧
    ∃ tc ∈ env.toolchains, ∃ handler, tc.sourceHandler path.suffix = some handler ∧
      env.hasTool handler.tool = true

theorem Environment.compiles_iff {env : Environment} {path : Path} :
    env.Compiles path ↔
      findAuxiliary env path.suffix = none ∧ (findHandler env path.suffix).isSome = true := by
  unfold Compiles findAuxiliary findHandler
  rw [List.findSome?_eq_none_iff, List.findSome?_isSome_iff]
  refine and_congr_right fun _ => exists_congr fun tc => and_congr_right fun _ => ?_
  cases tc.sourceHandler path.suffix with
  | none => simp
  | some handler => cases htool : env.hasTool handler.tool <;> simp [htool]

instance (env : Environment) (path : Path) : Decidable (env.Compiles path) :=
  decidable_of_iff _ Environment.compiles_iff.symm

namespace Project

variable {p : Project} {id : TargetId} {source : NodeId}

/-- The normal form of a source's path. -/
def sourceKey (p : Project) (source : NodeId) : Path := p.absolute ⟨p.graph.name source⟩

/-- The sources that an environment compiles. -/
def compiledBy (p : Project) (env : Environment) (sources : List NodeId) : List NodeId :=
  sources.filter fun source => env.Compiles ⟨p.graph.name source⟩

/-- The sources that a target compiles. -/
def compiledSources (p : Project) (id : TargetId) : List NodeId :=
  match p.target? id, p.targetEnvironment? id with
  | some t, some env => if t.type.compiles then p.compiledBy env t.sources else []
  | _, _ => []

/-- The first source of a target with the normal form of a source. -/
def leader? (p : Project) (id : TargetId) (source : NodeId) : Option NodeId :=
  (p.compiledSources id).find? fun other => (p.sourceKey source).same (p.sourceKey other)

/-- Does the path of a source end in a file name? -/
def HasFileName (p : Project) (source : NodeId) : Prop :=
  ∃ name, Path.fileName ⟨p.graph.name source⟩ = some name

/-- Where a target would have the object of a source. -/
def objectPlace? (p : Project) (id : TargetId) (source : NodeId) : Option Path :=
  (p.targetEnvironment? id).bind fun env =>
    (findHandler env (Path.suffix ⟨p.graph.name source⟩)).map fun (_, handler) =>
      objectPlace p id source handler

theorem compiledBy_append (p : Project) (env : Environment) (sources extra : List NodeId) :
    p.compiledBy env (sources ++ extra) = p.compiledBy env sources ++ p.compiledBy env extra :=
  List.filter_append sources extra

theorem mem_compiledBy {env : Environment} {sources : List NodeId} :
    source ∈ p.compiledBy env sources ↔
      source ∈ sources ∧ env.Compiles ⟨p.graph.name source⟩ := by
  simp [compiledBy]

theorem mem_compiledSources : source ∈ p.compiledSources id ↔
    ∃ t envId env, p.target? id = some t ∧ t.type.compiles = true ∧ t.env = some envId ∧
      p.environment? envId = some env ∧ source ∈ t.sources ∧
      env.Compiles ⟨p.graph.name source⟩ := by
  unfold compiledSources targetEnvironment?
  cases ht : p.target? id with
  | none => simp
  | some t =>
  cases henvId : t.env with
  | none => simp [henvId]
  | some envId =>
  cases henv : p.environment? envId with
  | none => simp [henvId, henv]
  | some env =>
  cases hcompiles : t.type.compiles <;> simp [henvId, henv, hcompiles, mem_compiledBy]

end Project

namespace Resolve

open Build NodeGraph Project

variable {p q r : Project} {id : TargetId} {envId : EnvironmentId} {env : Environment}
  {source first node : NodeId} {sources done : List NodeId} {c c' : Compilation}
  {graph graph' : NodeGraph} {reqs : EffectiveRequirements} {u : Unit}

/-! ### The sources of one target -/

/-- The node is compiled from the source, at the target's place for its object. -/
def CompiledFrom (p : Project) (id : TargetId) (source : NodeId) (graph : NodeGraph)
    (node : NodeId) : Prop :=
  ∃ place path step, p.objectPlace? id source = some place ∧ place.same path = true ∧
    graph.made? node = some (path, step) ∧ step.kind = .compile ∧ step.sources = [source]

theorem CompiledFrom.mono (h : CompiledFrom p id source graph node)
    (hkeeps : KeepsMade graph graph') : CompiledFrom p id source graph' node := by
  obtain ⟨place, path, step, hplace, hsame, hmade, hkind, hsources⟩ := h
  exact ⟨place, path, step, hplace, hsame, hkeeps.made node _ hmade, hkind, hsources⟩

/-- A source makes no object, or one that is cached. -/
theorem compileSource_inv (h : Yields (compileSource id envId reqs c source) p c' q) :
    (q = p ∧ c'.compiled = c.compiled) ∨ ∃ env tc handler object,
      p.environment? envId = some env ∧
      findHandler env (Path.suffix ⟨p.graph.name source⟩) = some (tc, handler) ∧
      Yields (makeObject id envId tc handler reqs source) p object q ∧
      c'.compiled = (p.sourceKey source, object) :: c.compiled := by
  simp only [compileSource, yields_get_bind] at h
  split at h
  · obtain ⟨rfl, rfl⟩ := yields_pure.mp h
    exact .inl ⟨rfl, rfl⟩
  next env henv =>
  split at h
  · obtain ⟨rfl, rfl⟩ := yields_pure.mp h
    exact .inl ⟨rfl, rfl⟩
  split at h
  · obtain ⟨rfl, rfl⟩ := yields_pure.mp h
    refine .inl ⟨rfl, ?_⟩
    split <;> rfl
  next tc handler hhandler =>
  split at h
  · obtain ⟨rfl, rfl⟩ := yields_pure.mp h
    exact .inl ⟨rfl, rfl⟩
  · obtain ⟨object, r, hmake, h⟩ := yields_bind.mp h
    obtain ⟨rfl, rfl⟩ := yields_pure.mp h
    exact .inr ⟨env, tc, handler, object, henv, hhandler, hmake, rfl⟩

/-- What the cache has for the normal form of a source. -/
def cachedObject? (p : Project) (c : Compilation) (source : NodeId) :
    Option (Path × NodeId) :=
  c.compiled.find? fun entry => (p.sourceKey source).same entry.1

theorem cachedObject?_spec {entry : Path × NodeId} (h : cachedObject? p c source = some entry) :
    entry ∈ c.compiled ∧ (p.sourceKey source).same entry.1 = true := by
  unfold cachedObject? at h
  have hsame := List.find?_some h
  exact ⟨List.mem_of_find?_eq_some h, hsame⟩

/-- A source that is compiled gets the object that the cache has for its normal form, or one
is made and cached. -/
theorem yields_compileSource_iff (henv : p.environment? envId = some env)
    (hcompiles : env.Compiles ⟨p.graph.name source⟩) :
    ∃ tc handler, ∀ c c' q, Yields (compileSource id envId reqs c source) p c' q ↔
      (∃ entry, cachedObject? p c source = some entry ∧ q = p ∧
        c' = { c with objects := Node.addNew c.objects [entry.2]
                      languages := Target.insertLanguage handler.language c.languages }) ∨
      ∃ object, cachedObject? p c source = none ∧
        Yields (makeObject id envId tc handler reqs source) p object q ∧
        c' = { c with objects := Node.addNew c.objects [object]
                      languages := Target.insertLanguage handler.language c.languages
                      compiled := (p.sourceKey source, object) :: c.compiled } := by
  obtain ⟨hnoflag, hhandled⟩ := Environment.compiles_iff.mp hcompiles
  obtain ⟨⟨tc, handler⟩, hhandler⟩ := Option.isSome_iff_exists.mp hhandled
  refine ⟨tc, handler, fun c c' q => ?_⟩
  simp only [compileSource, yields_get_bind, henv, hnoflag, hhandler]
  split
  · next known object hfound =>
      have hcached : cachedObject? p c source = some (known, object) := hfound
      rw [hcached]
      constructor
      · intro h
        obtain ⟨rfl, rfl⟩ := yields_pure.mp h
        exact .inl ⟨(known, object), rfl, rfl, rfl⟩
      · rintro (⟨_, hsome, rfl, rfl⟩ | ⟨_, hnone, -⟩)
        · cases hsome
          exact yields_pure.mpr ⟨rfl, rfl⟩
        · cases hnone
  · next hfound =>
      have hcached : cachedObject? p c source = none := hfound
      rw [hcached]
      constructor
      · intro h
        obtain ⟨object, r, hmake, h⟩ := yields_bind.mp h
        obtain ⟨rfl, rfl⟩ := yields_pure.mp h
        exact .inr ⟨object, rfl, hmake, rfl⟩
      · rintro (⟨_, hsome, -⟩ | ⟨object, -, hmake, rfl⟩)
        · cases hsome
        · exact yields_bind.mpr ⟨object, q, hmake, yields_pure.mpr ⟨rfl, rfl⟩⟩

/-- Whatever is in the list of objects, a source that is compiled adds the object that is then
in the cache for its normal form. -/
theorem compileSource_adds (henv : p.environment? envId = some env)
    (hcompiles : env.Compiles ⟨p.graph.name source⟩)
    (h : Yields (compileSource id envId reqs c source) p c' q) :
    ∃ entry ∈ c'.compiled, (p.sourceKey source).same entry.1 = true ∧
      ∀ objects, Yields (compileSource id envId reqs { c with objects } source) p
        { c' with objects := Node.addNew objects [entry.2] } q := by
  obtain ⟨tc, handler, hiff⟩ := yields_compileSource_iff henv hcompiles
  rcases (hiff c c' q).mp h with ⟨entry, hfound, rfl, rfl⟩ | ⟨object, hnew, hmake, rfl⟩
  · obtain ⟨hmem, hsame⟩ := cachedObject?_spec hfound
    refine ⟨entry, hmem, hsame, fun objects => ?_⟩
    exact (hiff _ _ _).mpr (.inl ⟨entry, hfound, rfl, rfl⟩)
  · refine ⟨(p.sourceKey source, object), List.mem_cons_self, Path.same_refl _, fun objects => ?_⟩
    exact (hiff _ _ _).mpr (.inr ⟨object, hnew, hmake, rfl⟩)

/-- What is in the cache stays there. -/
theorem compileSources_compiled (h : Yields (sources.foldlM (compileSource id envId reqs) c) p c' q)
    {entry : Path × NodeId} (hentry : entry ∈ c.compiled) : entry ∈ c'.compiled := by
  induction sources generalizing c p with
  | nil =>
      obtain ⟨rfl, -⟩ := yields_pure.mp h
      exact hentry
  | cons source rest ih =>
      rw [List.foldlM_cons, yields_bind] at h
      obtain ⟨c₁, r, hfirst, hrest⟩ := h
      refine ih hrest ?_
      rcases compileSource_inv hfirst with ⟨-, hsame⟩ | ⟨_, _, _, _, -, -, -, hcons⟩
      · exact hsame ▸ hentry
      · exact hcons ▸ List.mem_cons_of_mem _ hentry

/-- What a target has cached after some of its sources: for each of those that are
compiled an object of its own, which is made from the first source that is alike. -/
structure Caching (p : Project) (id : TargetId) (env : Environment) (done : List NodeId)
    (c : Compilation) (graph : NodeGraph) : Prop where
  indexed : graph.Indexed
  keeps : KeepsMade p.graph graph
  entries : ∀ entry ∈ c.compiled, entry.2 ∈ c.objects ∧ MadeSince p.graph graph entry.2 ∧
    ∃ first, (p.compiledBy env done).find? (fun other => entry.1.same (p.sourceKey other)) =
      some first ∧ CompiledFrom p id first graph entry.2
  covered : ∀ source ∈ p.compiledBy env done,
    ∃ entry ∈ c.compiled, (p.sourceKey source).same entry.1 = true

theorem Caching.start (hindexed : p.graph.Indexed) : Caching p id env [] {} p.graph :=
  ⟨hindexed, .refl _, by simp, by simp [compiledBy]⟩

/-- What was first stays first. -/
theorem Caching.entries_append (h : Caching p id env done c graph) (extra : List NodeId) :
    ∀ entry ∈ c.compiled, entry.2 ∈ c.objects ∧ MadeSince p.graph graph entry.2 ∧
      ∃ first, (p.compiledBy env (done ++ extra)).find?
        (fun other => entry.1.same (p.sourceKey other)) = some first ∧
          CompiledFrom p id first graph entry.2 := by
  intro entry hentry
  obtain ⟨hobject, hsince, first, hfirst, hfrom⟩ := h.entries entry hentry
  refine ⟨hobject, hsince, first, ?_, hfrom⟩
  rw [compiledBy_append, List.find?_append, hfirst]
  rfl

/-- A source that makes no object leaves the cache alone. -/
theorem Caching.grow (h : Caching p id env done c graph) (hcompiled : c'.compiled = c.compiled)
    (hobjects : ∀ node ∈ c.objects, node ∈ c'.objects)
    (hcovered : env.Compiles ⟨p.graph.name source⟩ →
      ∃ entry ∈ c.compiled, (p.sourceKey source).same entry.1 = true) :
    Caching p id env (done ++ [source]) c' graph := by
  refine ⟨h.indexed, h.keeps, fun entry hentry => ?_, fun other hother => ?_⟩
  · rw [hcompiled] at hentry
    obtain ⟨hobject, hrest⟩ := h.entries_append [source] entry hentry
    exact ⟨hobjects _ hobject, hrest⟩
  · rw [hcompiled]
    rw [compiledBy_append, List.mem_append] at hother
    rcases hother with hold | hnew
    · exact h.covered other hold
    · obtain ⟨hmem, hcompiles⟩ := mem_compiledBy.mp hnew
      rw [List.mem_singleton.mp hmem] at hcompiles ⊢
      exact hcovered hcompiles

/-- The object of a source that is first under its normal form. -/
theorem Caching.make {tc : Toolchain} {handler : SourceHandler}
    (h : Caching p id env done c graph) (hsource : source.index < p.graph.size)
    (henv : p.targetEnvironment? id = some env) (hcompiles : env.Compiles ⟨p.graph.name source⟩)
    (hhandler : findHandler env (Path.suffix ⟨p.graph.name source⟩) = some (tc, handler))
    (hnew : (c.compiled.find? fun (known, _) => (p.sourceKey source).same known) = none)
    (hrun : Yields (makeObject id envId tc handler reqs source) { p with graph } node q) :
    ∃ graph', q = { p with graph := graph' } ∧
      Caching p id env (done ++ [source])
        { c.addObject node with compiled := (p.sourceKey source, node) :: c.compiled } graph' := by
  have hname : graph.name source = p.graph.name source := h.keeps.names source hsource
  obtain ⟨rfl, graph', hset, rfl⟩ := makeObject_inv hrun
  dsimp only at hset ⊢
  have hplace : objectPath p.buildDir (targetName { p with graph } id) ⟨graph.name source⟩
      handler.objectSuffix = objectPlace p id source handler := by
    rw [objectPlace, hname]
    rfl
  rw [hplace] at hset ⊢
  have hproduces : graph.Produces _ _ _ graph' := ⟨rfl, _, Node.kind_depends _ _, hset⟩
  obtain ⟨hproduct, hindexed⟩ := hproduces.product h.indexed
  obtain ⟨hkeeps, hsince⟩ := madeSince_of_product (p := { p with graph }) hproduct rfl
  obtain ⟨known, hsame, -, hmades⟩ := hproduct.made?_eq rfl
  refine ⟨graph', rfl, hindexed, h.keeps.trans hkeeps, fun entry hentry => ?_,
    fun other hother => ?_⟩
  · rcases List.mem_cons.mp hentry with rfl | hentry
    · refine ⟨mem_addObject.mpr (.inr rfl), hsince.earlier h.keeps, source, ?_, ?_⟩
      · -- no source before has the normal form
        have hnone : (p.compiledBy env done).find?
            (fun other => (p.sourceKey source).same (p.sourceKey other)) = none := by
          rw [List.find?_eq_none]
          intro other hother hsame
          obtain ⟨entry, hentry, hknown⟩ := h.covered other hother
          rw [← Path.same_congr_left hsame] at hknown
          exact List.find?_eq_none.mp hnew entry hentry hknown
        rw [compiledBy_append, List.find?_append, hnone, Option.none_or, compiledBy,
          List.filter_singleton, decide_eq_true hcompiles]
        simp
      · exact ⟨_, known, _, by rw [objectPlace?, henv, Option.bind_some, hhandler]; rfl, hsame,
          (hmades _).trans (if_pos rfl), rfl, rfl⟩
    · obtain ⟨hobject, hold, first, hfirst, hfrom⟩ := h.entries_append [source] entry hentry
      exact ⟨mem_addObject.mpr (.inl hobject), hold.later hkeeps, first, hfirst, hfrom.mono hkeeps⟩
  · rw [compiledBy_append, List.mem_append] at hother
    rcases hother with hold | hnew
    · obtain ⟨entry, hentry, hknown⟩ := h.covered other hold
      exact ⟨entry, List.mem_cons_of_mem _ hentry, hknown⟩
    · rw [List.mem_singleton.mp (mem_compiledBy.mp hnew).1]
      exact ⟨_, List.mem_cons_self, Path.same_refl _⟩

/-- Every source keeps the cache as it is described. -/
theorem compileSource_caching (h : Caching p id env done c graph)
    (hsource : source.index < p.graph.size) (henvId : p.environment? envId = some env)
    (henv : p.targetEnvironment? id = some env)
    (hrun : Yields (compileSource id envId reqs c source) { p with graph } c' q) :
    ∃ graph', q = { p with graph := graph' } ∧ Caching p id env (done ++ [source]) c' graph' := by
  have hname : graph.name source = p.graph.name source := h.keeps.names source hsource
  rw [compileSource, yields_get_bind] at hrun
  dsimp only at hrun
  rw [hname] at hrun
  have hauxiliary : env.Compiles ⟨p.graph.name source⟩ ↔ _ := Environment.compiles_iff
  split at hrun
  · next hnone =>
      have habsurd : p.environment? envId = none := hnone
      rw [henvId] at habsurd
      cases habsurd
  next env' hsome =>
  have heq : p.environment? envId = some env' := hsome
  rw [henvId] at heq
  cases heq
  split at hrun
  · -- a linker flag
    next handler hfound =>
      obtain ⟨rfl, rfl⟩ := yields_pure.mp hrun
      refine ⟨graph, rfl, h.grow rfl (fun _ hnode => hnode) fun hcompiles => ?_⟩
      rw [(hauxiliary.mp hcompiles).1] at hfound
      cases hfound
  next hnoflag =>
  split at hrun
  · -- a linker input, or a source to pass over
    next hnone =>
      obtain ⟨rfl, rfl⟩ := yields_pure.mp hrun
      refine ⟨graph, rfl, h.grow ?_ (fun node hnode => ?_) fun hcompiles => ?_⟩
      · split <;> rfl
      · split
        · exact mem_addObject.mpr (.inl hnode)
        · exact hnode
      · rw [hnone] at hauxiliary
        cases (hauxiliary.mp hcompiles).2
  next tc handler hhandler =>
  have hcompiles : env.Compiles ⟨p.graph.name source⟩ :=
    hauxiliary.mpr ⟨Option.eq_none_iff_forall_ne_some.mpr hnoflag, by rw [hhandler]; rfl⟩
  split at hrun
  · next entry hfound =>
      obtain ⟨rfl, rfl⟩ := yields_pure.mp hrun
      refine ⟨graph, rfl, h.grow rfl (fun node hnode => mem_addObject.mpr (.inl hnode)) fun _ => ?_⟩
      have hknown := List.find?_some hfound
      exact ⟨_, List.mem_of_find?_eq_some hfound, hknown⟩
  · next hnew =>
      obtain ⟨object, r, hmake, hrest⟩ := yields_bind.mp hrun
      obtain ⟨rfl, rfl⟩ := yields_pure.mp hrest
      have hcaching : Caching p id env done
          { c with languages := Target.insertLanguage handler.language c.languages } graph :=
        ⟨h.indexed, h.keeps, h.entries, h.covered⟩
      exact hcaching.make hsource henv hcompiles hhandler hnew hmake

theorem compileSources_caching (h : Caching p id env done c graph)
    (hsources : ∀ source ∈ sources, source.index < p.graph.size)
    (henvId : p.environment? envId = some env) (henv : p.targetEnvironment? id = some env)
    (hrun : Yields (sources.foldlM (compileSource id envId reqs) c) { p with graph } c' q) :
    ∃ graph', q = { p with graph := graph' } ∧
      Caching p id env (done ++ sources) c' graph' := by
  induction sources generalizing done c graph with
  | nil =>
      obtain ⟨rfl, rfl⟩ := yields_pure.mp hrun
      rw [List.append_nil]
      exact ⟨graph, rfl, h⟩
  | cons source rest ih =>
      rw [List.foldlM_cons, yields_bind] at hrun
      obtain ⟨c₁, r, hfirst, hrest⟩ := hrun
      obtain ⟨graph₁, rfl, h₁⟩ :=
        compileSource_caching h (hsources source List.mem_cons_self) henvId henv hfirst
      obtain ⟨graph', heq, h'⟩ :=
        ih h₁ (fun other hother => hsources other (List.mem_cons_of_mem _ hother)) hrest
      rw [List.append_assoc] at h'
      exact ⟨graph', heq, h'⟩

/-- Among others, a source that is compiled adds the object that the cache has for its normal
form in the end. -/
theorem compileSources_adds {rest : List NodeId} (hindexed : p.graph.Indexed)
    (hwithin : ∀ other ∈ done ++ source :: rest, other.index < p.graph.size)
    (henvId : p.environment? envId = some env) (henv : p.targetEnvironment? id = some env)
    (hcompiles : env.Compiles ⟨p.graph.name source⟩)
    (hrun : Yields ((done ++ source :: rest).foldlM (compileSource id envId reqs) {}) p c' q) :
    ∃ c now c₁ next, Yields (done.foldlM (compileSource id envId reqs) {}) p c now ∧
      Yields (compileSource id envId reqs { c with objects := [] } source) now c₁ next ∧
      ∃ entry ∈ c'.compiled, (p.sourceKey source).same entry.1 = true ∧ c₁.objects = [entry.2] := by
  rw [List.foldlM_append, yields_bind] at hrun
  obtain ⟨c, now, hdone, hrun⟩ := hrun
  rw [List.foldlM_cons, yields_bind] at hrun
  obtain ⟨c₁, next, hown, hrest⟩ := hrun
  have hbefore : ∀ other ∈ done, other.index < p.graph.size := fun other hother =>
    hwithin other (List.mem_append_left _ hother)
  have hsource : source.index < p.graph.size := hwithin source (by simp)
  obtain ⟨graph, rfl, hcaching⟩ :=
    compileSources_caching (.start hindexed) hbefore henvId henv hdone
  have hname : graph.name source = p.graph.name source := hcaching.keeps.names source hsource
  have hkey : sourceKey { p with graph } source = p.sourceKey source :=
    congrArg (fun name => p.absolute ⟨name⟩) hname
  have hcompiles' : env.Compiles ⟨graph.name source⟩ := by
    rw [hname]
    exact hcompiles
  obtain ⟨entry, hentry, hsame, hadds⟩ :=
    compileSource_adds (p := { p with graph }) henvId hcompiles' hown
  rw [hkey] at hsame
  exact ⟨c, _, _, next, hdone, hadds [], entry, compileSources_compiled hrest hentry, hsame, rfl⟩

/-! ### What the declarations say about sources -/

theorem Changes.rootDir {phase : Phase} {s s' : Stage} (hchanges : Changes phase s s') :
    s'.project.rootDir = s.project.rootDir := by
  induction hchanges with
  | refl => rfl
  | tail _ hchange ih => cases hchange <;> exact ih

/-- The sources of the targets have the names that they were declared with, in the
same directories. -/
structure SameSources (p q : Project) : Prop where
  fixed : Fixed p ⟨q, [], []⟩
  rootDir : q.rootDir = p.rootDir
  names : ∀ id t, p.target? id = some t → ∀ source ∈ t.sources,
    q.graph.name source = p.graph.name source

theorem SameSources.of_changes {phase : Phase} {s : Stage} (hsound : Sound ⟨p, [], []⟩)
    (hchanges : Changes phase ⟨p, [], []⟩ s) : SameSources p s.project := by
  have hfixed := hchanges.fixed
  refine ⟨⟨hfixed.buildDir, hfixed.environments, hfixed.targets⟩, hchanges.rootDir,
    fun id t ht source hsource => ?_⟩
  exact (Changes.keepsMade hchanges hsound).names source
    (hsound.targets id t ht source (Target.mem_nodes.mpr (.inl hsource)))

section SameSources

variable (h : SameSources p q)

include h

theorem SameSources.targetEnvironment? (id : TargetId) :
    q.targetEnvironment? id = p.targetEnvironment? id := h.fixed.targetEnvironment? id

theorem SameSources.compiledBy {t : Target} (ht : p.target? id = some t) (env : Environment) :
    q.compiledBy env t.sources = p.compiledBy env t.sources := by
  refine List.filter_congr fun source hsource => ?_
  rw [h.names id t ht source hsource]

theorem SameSources.sourceKey {t : Target} (ht : p.target? id = some t)
    (hsource : source ∈ t.sources) : q.sourceKey source = p.sourceKey source := by
  rw [Project.sourceKey, Project.sourceKey, h.names id t ht source hsource, absolute, absolute,
    onDisk, onDisk, h.rootDir]

theorem SameSources.objectPlace? {t : Target} (ht : p.target? id = some t)
    (hsource : source ∈ t.sources) : q.objectPlace? id source = p.objectPlace? id source := by
  unfold Project.objectPlace? objectPlace
  rw [h.targetEnvironment?, h.names id t ht source hsource, h.fixed.buildDir, h.fixed.targetName]

end SameSources

end Resolve

end BuildPlan
