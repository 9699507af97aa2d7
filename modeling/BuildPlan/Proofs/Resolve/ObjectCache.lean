import BuildPlan.Proofs.Resolve.CompiledSources
import BuildPlan.Proofs.Resolve.Producers
import Mathlib.Data.List.Find

/-!
# BuildPlan.Proofs.Resolve.ObjectCache

The objects of a target. The object of a source is what its own compilation adds to the
objects of the target. It is the one that was compiled from the first source with the same
normal form, so sources with one normal form share an object, and sources with different
normal forms, or of different targets, never do.
-/

namespace BuildPlan

namespace Resolve

open Build NodeGraph Project

variable {p q r : Project} {id : TargetId} {envId : EnvironmentId} {env : Environment}
  {source first node : NodeId} {sources done : List NodeId} {c c' : Compilation}
  {graph graph' : NodeGraph} {reqs : EffectiveRequirements} {u : Unit}

/-! ### The objects of all targets -/

/-- The source is compiled to the node: when it has its turn among the sources of the target,
it adds the node to a list that holds no object yet. -/
def CompilesTo (p : Project) (id : TargetId) (source node : NodeId) : Prop :=
  ∃ order t envId a done c now c' next, p.buildOrder = .ok order ∧
    AtSource p order id t envId a done c source now ∧
    Yields (compileSource id envId ((effectiveRequirements id .compile).run a).1
      { c with objects := [] } source) now c' next ∧ c'.objects = [node]

/-- The node is the object of a source that the target compiles, and one of the objects that
the target has in the end. -/
structure ObjectOf (p q : Project) (id : TargetId) (source node : NodeId) : Prop where
  compiled : source ∈ p.compiledSources id
  compilesTo : CompilesTo p id source node
  listed : ∃ t, q.target? id = some t ∧ node ∈ t.objects

theorem ObjectOf.mono (h : ObjectOf p q id source node)
    (hobjects : (r.target? id).map Target.objects = (q.target? id).map Target.objects) :
    ObjectOf p r id source node := by
  obtain ⟨t, ht, hnode⟩ := h.listed
  rw [ht, Option.map_some, Option.map_eq_some_iff] at hobjects
  obtain ⟨t', ht', heq⟩ := hobjects
  exact ⟨h.compiled, h.compilesTo, t', ht', heq ▸ hnode⟩

/-- The node is among the objects of the target, and compiled from its first source that is
like the given one. -/
def FromLeader (p q : Project) (id : TargetId) (source node : NodeId) : Prop :=
  ∃ t first, q.target? id = some t ∧ node ∈ t.objects ∧ p.leader? id source = some first ∧
    CompiledFrom p id first q.graph node

theorem FromLeader.mono (h : FromLeader p q id source node) (hkeeps : KeepsMade q.graph r.graph)
    (hobjects : (r.target? id).map Target.objects = (q.target? id).map Target.objects) :
    FromLeader p r id source node := by
  obtain ⟨t, first, ht, hnode, hfirst, hfrom⟩ := h
  rw [ht, Option.map_some, Option.map_eq_some_iff] at hobjects
  obtain ⟨t', ht', heq⟩ := hobjects
  exact ⟨t', first, ht', heq ▸ hnode, hfirst, hfrom.mono hkeeps⟩

theorem compiledSources_eq {t : Target} (ht : p.target? id = some t)
    (htype : t.type.compiles = true) (henv : p.targetEnvironment? id = some env) :
    p.compiledSources id = p.compiledBy env t.sources := by
  unfold compiledSources
  rw [ht, henv]
  exact if_pos htype

section Caching

variable {t t' : Target} {b begun : Project} (h : SameSources p begun)
  (ht : p.target? id = some t) (htype : t.type.compiles = true)
  (henv : p.targetEnvironment? id = some env)
  (hcaching : Caching begun id env t.sources c graph) (ht' : b.target? id = some t')
  (hobjects : t'.objects = c.objects) (hkeeps : KeepsMade graph b.graph)

include h ht htype henv hcaching ht' hobjects hkeeps

/-- What an entry in the cache of a target says in terms of the declarations. -/
theorem Caching.fromLeader {entry : Path × NodeId} (hentry : entry ∈ c.compiled)
    (hsource : source ∈ p.compiledSources id)
    (hsame : (begun.sourceKey source).same entry.1 = true) :
    FromLeader p b id source entry.2 ∧ MadeSince begun.graph b.graph entry.2 := by
  have hsources := compiledSources_eq ht htype henv
  have hwithin : ∀ other ∈ p.compiledBy env t.sources, other ∈ t.sources :=
    fun other hother => (mem_compiledBy.mp hother).1
  have hkey := h.sourceKey ht (hwithin source (hsources ▸ hsource))
  obtain ⟨hnode, hsince, first, hfirst, place, hfrom⟩ := hcaching.entries entry hentry
  rw [h.compiledBy ht env] at hfirst
  have hmem := hwithin first (List.mem_of_find?_eq_some hfirst)
  rw [h.objectPlace? ht hmem] at hfrom
  have hleader : p.leader? id source = some first := by
    rw [leader?, hsources, ← hfirst]
    refine List.find?_congr fun other hother => ?_
    rw [← hkey, ← h.sourceKey ht (hwithin other hother), Path.same_congr_left hsame]
  refine ⟨⟨t', first, ht', hobjects ▸ hnode, hleader, ?_⟩, hsince.later hkeeps⟩
  exact CompiledFrom.mono ⟨place, hfrom⟩ hkeeps

end Caching

/-- What the turn of a target that compiles comes to. Once its requirements have been
collected, in `begun`, its sources are compiled, which leaves `c` and `graph`, and its
output is made. -/
structure CompiledIn (p a b : Project) (id : TargetId) (t : Target) (envId : EnvironmentId)
    (begun : Project) (c : Compilation) (graph : NodeGraph) : Prop where
  begins : begun = ((effectiveRequirements id .compile).run a).2
  same : SameSources p begun
  unbuilt : begun.graph = a.graph
  indexed : begun.graph.Indexed
  within : ∀ source ∈ t.sources, source.index < begun.graph.size
  compile : Yields (t.sources.foldlM
    (compileSource id envId ((effectiveRequirements id .compile).run a).1) {}) begun c
    { begun with graph }
  produce : ∃ noted made, noted.graph = graph ∧ graph.Indexed ∧
    Yields (produce id envId) noted () made ∧ b.graph = made.graph
  keeps : KeepsMade graph b.graph
  notes : ∃ t', b.target? id = some t' ∧ t'.objects = c.objects ∧
    t'.languages = Target.mergeLanguages t.languages c.languages

theorem Turn.compiledIn {order : List TargetId} {a b : Project} {t : Target} (hfresh : p.Fresh)
    (hnodup : order.Nodup) (h : Turn order p id a b q) (ht : p.target? id = some t)
    (htype : t.type.compiles = true) (henvId : t.env = some envId) :
    ∃ begun c graph, CompiledIn p a b id t envId begun c graph := by
  have hopen := (hfresh.targets id t ht).unresolved
  have hat := (h.waiting hnodup).trans ht
  have hbefore := h.before hfresh.sound
  have hsound := Changes.sound hbefore hfresh.sound
  have hrun := h.turn
  rw [Yields, run_resolveTarget_compile hat hopen htype henvId] at hrun
  obtain ⟨c, graph, made, hcompile, hproduce, rfl⟩ := compileTarget_inv hrun
  have hinstall : t.type ≠ .install := by
    intro hinstall
    rw [hinstall] at htype
    cases htype
  have hwithin : ∀ source ∈ t.sources, source.index < a.graph.size := fun source hsource =>
    hsound.targets id t hat source (Target.mem_nodes.mpr (.inl hsource))
  have hnoted := noted_changes hsound hat hopen hinstall hwithin hcompile
  have hproduced : Changes .compile ⟨_, [], [⟨id, none⟩]⟩ ⟨_, [], []⟩ := produce_changes hproduce
  have hkeeps := Changes.keepsMade hproduced (Changes.sound hnoted hsound)
  have hindexed := (Changes.sound hnoted hsound).indexed
  obtain ⟨t₁, ht₁, -, -, hlanguages₁⟩ :=
    (effectiveRequirements_touches id .compile a).1.target t hat
  have hreqs : Changes .compile ⟨a, [], []⟩ _ := effectiveRequirements_changes id .compile
  have hgraph := (effectiveRequirements_touches id .compile a).2
  have hsame := SameSources.of_changes hfresh.sound (hbefore.trans hreqs)
  -- the target has the objects of the cache and the languages of its sources
  have hnotes := target?_modifyTarget
    { ((effectiveRequirements id .compile).run a).2 with graph } id id (noteCompilation c)
  rw [if_pos rfl, show target? { ((effectiveRequirements id .compile).run a).2 with graph } id =
    some t₁ from ht₁, Option.map_some] at hnotes
  obtain ⟨t₂, ht₂, -, hobjects, hlanguages⟩ := (produce_touches hproduce).target _ hnotes
  have ht' := target?_modifyTarget made id id fun t => { t with resolved := true }
  rw [if_pos rfl, ht₂, Option.map_some] at ht'
  exact ⟨_, c, graph, rfl, hsame, hgraph, hgraph ▸ hsound.indexed, hgraph ▸ hwithin, hcompile,
    ⟨_, made, rfl, hindexed, hproduce, rfl⟩, hkeeps, _, ht', hobjects,
    hlanguages.trans (congrArg (Target.mergeLanguages · c.languages) hlanguages₁)⟩

/-- In its turn a target compiles each of its sources to an object that was made in the same
turn from the first source like it. -/
theorem Turn.compileSource {order : List TargetId} {a b : Project} {t : Target} {rest : List NodeId}
    (hfresh : p.Fresh) (hnodup : order.Nodup) (h : Turn order p id a b q)
    (ht : p.target? id = some t) (hsources : t.sources = done ++ source :: rest)
    (hcompiled : source ∈ p.compiledSources id) :
    ∃ envId c now c' next node, AtSource p order id t envId a done c source now ∧
      Yields (compileSource id envId ((effectiveRequirements id .compile).run a).1
        { c with objects := [] } source) now c' next ∧ c'.objects = [node] ∧
      FromLeader p b id source node ∧ MadeSince a.graph b.graph node := by
  obtain ⟨t₁, envId, env, ht₁, htype, henvId, henv, hsource, hcompiles⟩ :=
    mem_compiledSources.mp hcompiled
  rw [ht] at ht₁
  cases ht₁
  have htarget : p.targetEnvironment? id = some env := by
    rw [Project.targetEnvironment?, ht, Option.bind_some, henvId, Option.bind_some, henv]
  obtain ⟨begun, c', graph, hin⟩ := h.compiledIn hfresh hnodup ht htype henvId
  obtain ⟨t', ht', hobjects, -⟩ := hin.notes
  have henv' : begun.environment? envId = some env := by
    rw [environment?_congr hin.same.fixed.environments, henv]
  have htarget' := (hin.same.targetEnvironment? id).trans htarget
  have hcompiles' : env.Compiles ⟨begun.graph.name source⟩ := by
    rw [hin.same.names id t ht source hsource]
    exact hcompiles
  have hcompile := hin.compile
  have hwithin := hin.within
  rw [hsources] at hcompile hwithin
  obtain ⟨c, now, c₁, next, hdone, hown, entry, hentry, hsame, hobject⟩ :=
    compileSources_adds hin.indexed hwithin henv' htarget' hcompiles' hcompile
  rw [hin.begins] at hdone
  have hat : AtSource p order id t envId a done c source now := by
    obtain ⟨before, after, horder, hbefore, -⟩ := h.split
    exact ⟨⟨before, after, horder, hbefore⟩, (h.waiting hnodup).trans ht,
      (hfresh.targets id t ht).unresolved, htype, henvId, ⟨rest, hsources⟩, hdone⟩
  obtain ⟨graph', heq, hcaching⟩ :=
    compileSources_caching (.start hin.indexed) hin.within henv' htarget' hin.compile
  obtain rfl : graph = graph' := congrArg Project.graph heq
  obtain ⟨hleader, hsince⟩ := hcaching.fromLeader hin.same ht htype htarget ht' hobjects hin.keeps
    hentry hcompiled hsame
  rw [hin.unbuilt] at hsince
  exact ⟨envId, c, now, c₁, next, entry.2, hat, hown, hobject, hleader, hsince⟩

/-- The turn of a target begins where all runs that come to it begin it. -/
theorem Turn.begins {order before after : List TargetId} {a b a' : Project} (hnodup : order.Nodup)
    (h : Turn order p id a b q) (horder : order = before ++ id :: after)
    (hbefore : Yields (before.forM resolveTarget) p ⟨⟩ a') : a' = a := by
  obtain ⟨earlier, later, horder', hearlier, -⟩ := h.split
  rw [horder] at hnodup horder'
  have hfirst : id ∉ before := fun hmem =>
    List.disjoint_of_nodup_append hnodup hmem List.mem_cons_self
  have hlast : id ∉ after := (List.nodup_cons.mp hnodup.of_append_right).1
  obtain ⟨rfl, -⟩ := (List.append_cons_inj_of_notMem hfirst hlast).mp horder'
  exact ((yields_iff_of_run hearlier).mp hbefore).2

theorem Turn.exists_compilesTo {order : List TargetId} {a b : Project} (hfresh : p.Fresh)
    (hordered : p.buildOrder = .ok order) (h : Turn order p id a b q)
    (hcompiled : source ∈ p.compiledSources id) : ∃ node, CompilesTo p id source node := by
  obtain ⟨t, -, -, ht, -, -, -, hmem, -⟩ := mem_compiledSources.mp hcompiled
  obtain ⟨done, rest, hsources⟩ := List.append_of_mem hmem
  obtain ⟨envId, c, now, c', next, node, hat, hown, hobject, -⟩ :=
    h.compileSource hfresh (nodup_buildOrder hordered) ht hsources hcompiled
  exact ⟨node, order, t, envId, a, done, c, now, c', next, hordered, hat, hown, hobject⟩

/-- Wherever a source stands among those of its target, it is compiled to the object that was
made from the first source like it. -/
theorem CompilesTo.fromLeader {order : List TargetId} {a b : Project} (hfresh : p.Fresh)
    (hordered : p.buildOrder = .ok order) (hturn : Turn order p id a b q)
    (hcompiled : source ∈ p.compiledSources id) (h : CompilesTo p id source node) :
    FromLeader p b id source node ∧ MadeSince a.graph b.graph node := by
  obtain ⟨order', t, envId, a', done, c, now, c', next, hordered', hat, hown, hobject⟩ := h
  have hnodup := nodup_buildOrder hordered
  rw [hordered] at hordered'
  cases hordered'
  obtain ⟨before, after, horder, hbefore⟩ := hat.turn
  obtain rfl := hturn.begins hnodup horder hbefore
  obtain ⟨rest, hsources⟩ := hat.sources
  obtain ⟨envId', c₁, now₁, c₁', next₁, node₁, hat₁, hown₁, hobject₁, hfrom⟩ :=
    hturn.compileSource hfresh hnodup ((hturn.waiting hnodup).symm.trans hat.target) hsources
      hcompiled
  -- both runs come to the source in the same way
  obtain rfl : envId' = envId := Option.some.inj (hat₁.environment.symm.trans hat.environment)
  obtain ⟨rfl, rfl⟩ := (yields_iff_of_run hat.compiled).mp hat₁.compiled
  obtain ⟨rfl, rfl⟩ := (yields_iff_of_run hown).mp hown₁
  obtain rfl : node₁ = node := List.singleton_inj.mp (hobject₁.symm.trans hobject)
  exact hfrom

/-! ### Sharing -/

theorem leader?_congr {other : NodeId}
    (h : (p.sourceKey source).same (p.sourceKey other) = true) :
    p.leader? id source = p.leader? id other := by
  unfold leader?
  refine List.find?_congr fun _ _ => ?_
  rw [Path.same_congr_left h]

theorem leader?_spec (h : p.leader? id source = some first) :
    first ∈ p.compiledSources id ∧ (p.sourceKey source).same (p.sourceKey first) = true :=
  ⟨List.mem_of_find?_eq_some h, List.find?_some (p := fun other =>
    (p.sourceKey source).same (p.sourceKey other)) h⟩

theorem exists_leader? (h : source ∈ p.compiledSources id) :
    ∃ first, p.leader? id source = some first := by
  rw [← Option.isSome_iff_exists, leader?, List.find?_isSome]
  exact ⟨source, h, Path.same_refl _⟩

/-- A project whose targets have been compiled, and what became of it. -/
structure CompiledInto (p : Project) (order : List TargetId) (compiled q : Project) : Prop where
  ordered : p.buildOrder = .ok order
  compile : Yields (order.forM resolveTarget) p ⟨⟩ compiled
  ledger : Ledger p ⟨q, [], []⟩
  keeps : KeepsMade compiled.graph q.graph
  objects : ∀ id, (q.target? id).map Target.objects = (compiled.target? id).map Target.objects

theorem CompiledInto.start {order : List TargetId} (hfresh : p.Fresh)
    (hordered : p.buildOrder = .ok order) (hcompile : Yields (order.forM resolveTarget) p ⟨⟩ q) :
    CompiledInto p order q q :=
  ⟨hordered, hcompile, Changes.ledger hfresh (resolveTargets_changes hfresh.sound hcompile)
    (.of_fresh hfresh), .refl _, fun _ => rfl⟩

theorem Runs.compiledInto {order : List TargetId} {compiled expanded copied installed : Project}
    (h : Runs p order compiled expanded copied installed q) (hfresh : p.Fresh) :
    CompiledInto p order compiled q := by
  have hparts := h.parts hfresh.sound
  exact ⟨h.ordered, h.compile, hparts.ledger hfresh, hparts.after.made, hparts.after.objects⟩

section CompiledInto

variable {order : List TargetId} {compiled a b : Project} {id' : TargetId} {source' node' : NodeId}

theorem CompiledInto.of_turn (h : CompiledInto p order compiled q) (hfresh : p.Fresh)
    (hturn : Turn order p id a b compiled) (hfrom : FromLeader p b id source node) :
    FromLeader p q id source node := by
  have hbefore := hturn.before hfresh.sound
  have hwithin := hturn.within hfresh.sound
  have hsound := Changes.sound (hbefore.trans hwithin) hfresh.sound
  refine hfrom.mono ((Changes.keepsMade (hturn.after hfresh.sound) hsound).trans h.keeps) ?_
  rw [h.objects, hturn.kept (nodup_buildOrder h.ordered)]

theorem CompiledInto.mem_order (h : CompiledInto p order compiled q)
    (hsource : source ∈ p.compiledSources id) : id ∈ order := by
  obtain ⟨t, _, _, ht, -⟩ := mem_compiledSources.mp hsource
  exact mem_buildOrder h.ordered ht

/-- No two nodes are compiled for one place. -/
theorem CompiledInto.node_unique (h : CompiledInto p order compiled q)
    {place place' path path' : Path} {step step' : BuildStep} (hsame : place.same path = true)
    (hsame' : place'.same path' = true) (hplaces : place.same place' = true)
    (hmade : q.graph.made? node = some (path, step)) (hkind : step.kind = .compile)
    (hmade' : q.graph.made? node' = some (path', step')) (hkind' : step'.kind = .compile) :
    node = node' := by
  refine h.ledger.placed.objects node node' path path' step step' hmade hmade' hkind hkind' ?_
  rw [← Path.same_congr_left hsame, Path.same_congr_left hplaces, hsame']

theorem CompiledInto.compiledFrom_unique (h : CompiledInto p order compiled q)
    (hfrom : CompiledFrom p id first q.graph node)
    (hfrom' : CompiledFrom p id first q.graph node') : node = node' := by
  obtain ⟨place, path, step, hplace, hsame, hmade, hkind, -⟩ := hfrom
  obtain ⟨place', path', step', hplace', hsame', hmade', hkind', -⟩ := hfrom'
  rw [hplace] at hplace'
  cases hplace'
  exact h.node_unique hsame hsame' (Path.same_refl place) hmade hkind hmade' hkind'

theorem CompiledInto.fromLeader_unique (h : CompiledInto p order compiled q)
    (hfrom : FromLeader p q id source node) (hfrom' : FromLeader p q id source node') :
    node = node' := by
  obtain ⟨_, first, -, -, hfirst, hfrom⟩ := hfrom
  obtain ⟨_, first', -, -, hfirst', hfrom'⟩ := hfrom'
  rw [hfirst] at hfirst'
  cases hfirst'
  exact h.compiledFrom_unique hfrom hfrom'

/-- Every source that a target compiles has an object. -/
theorem CompiledInto.exists_objectOf (h : CompiledInto p order compiled q) (hfresh : p.Fresh)
    (hsource : source ∈ p.compiledSources id) : ∃ node, ObjectOf p q id source node := by
  obtain ⟨a, b, hturn⟩ := exists_turn h.compile (h.mem_order hsource)
  obtain ⟨node, hto⟩ := hturn.exists_compilesTo hfresh h.ordered hsource
  obtain ⟨t, -, ht, hnode, -⟩ :=
    h.of_turn hfresh hturn (hto.fromLeader hfresh h.ordered hturn hsource).1
  exact ⟨node, hsource, hto, t, ht, hnode⟩

/-- The objects of sources that are compiled were made from the first sources like them. -/
theorem CompiledInto.objectOf_iff (h : CompiledInto p order compiled q) (hfresh : p.Fresh) :
    ObjectOf p q id source node ↔
      source ∈ p.compiledSources id ∧ FromLeader p q id source node := by
  have hfrom : ∀ {node}, ObjectOf p q id source node → FromLeader p q id source node := by
    intro node hobject
    obtain ⟨a, b, hturn⟩ := exists_turn h.compile (h.mem_order hobject.compiled)
    exact h.of_turn hfresh hturn
      (hobject.compilesTo.fromLeader hfresh h.ordered hturn hobject.compiled).1
  constructor
  · intro hobject
    exact ⟨hobject.compiled, hfrom hobject⟩
  · rintro ⟨hsource, hnode⟩
    obtain ⟨node', hobject⟩ := h.exists_objectOf hfresh hsource
    rw [h.fromLeader_unique hnode (hfrom hobject)]
    exact hobject

/-- Objects are made in the turns of their targets. -/
theorem CompiledInto.madeSince (h : CompiledInto p order compiled q) (hfresh : p.Fresh)
    (hturn : Turn order p id a b compiled) (hobject : ObjectOf p q id source node) :
    MadeSince a.graph b.graph node :=
  (hobject.compilesTo.fromLeader hfresh h.ordered hturn hobject.compiled).2

/-- What has been made in a turn is not made in a later one. -/
theorem Turn.not_madeSince_later {a' b' : Project} {between : List TargetId} (hfresh : p.Fresh)
    (hturn : Turn order p id a b compiled)
    (hbetween : Yields (between.forM resolveTarget) b ⟨⟩ a')
    (h : MadeSince a.graph b.graph node) : ¬ MadeSince a'.graph b'.graph node := by
  intro hlater
  have hbefore := hturn.before hfresh.sound
  have hsound := Changes.sound (hbefore.trans (hturn.within hfresh.sound)) hfresh.sound
  obtain ⟨entry, hmade⟩ := h.2
  have hkeeps := Changes.keepsMade (resolveTargets_changes hsound hbetween) hsound
  have hmade' := hkeeps.made node entry hmade
  rw [hlater.1] at hmade'
  cases hmade'

/-- Two objects are one exactly if one target made them of sources that are alike. -/
theorem CompiledInto.objectOf_eq_iff (h : CompiledInto p order compiled q) (hfresh : p.Fresh)
    (hobject : ObjectOf p q id source node) (hobject' : ObjectOf p q id' source' node') :
    node = node' ↔ id = id' ∧ (p.sourceKey source).same (p.sourceKey source') = true := by
  obtain ⟨hmem, _, first, -, -, hfirst, hfrom⟩ := (h.objectOf_iff hfresh).mp hobject
  obtain ⟨hmem', _, first', -, -, hfirst', hfrom'⟩ := (h.objectOf_iff hfresh).mp hobject'
  obtain ⟨-, hsame⟩ := leader?_spec hfirst
  obtain ⟨-, hsame'⟩ := leader?_spec hfirst'
  constructor
  · intro heq
    subst heq
    refine ⟨?_, ?_⟩
    · by_contra hne
      obtain ⟨a, b, a', b', hturn, hturn', hapart⟩ :=
        exists_turns h.compile (h.mem_order hmem) (h.mem_order hmem') hne
      -- what was made in the turn that came first is made when the other one comes
      have hsince := h.madeSince hfresh hturn hobject
      have hsince' := h.madeSince hfresh hturn' hobject'
      rcases hapart with ⟨_, hbetween⟩ | ⟨_, hbetween⟩
      · exact hturn.not_madeSince_later hfresh hbetween hsince hsince'
      · exact hturn'.not_madeSince_later hfresh hbetween hsince' hsince
    · obtain ⟨_, _, step, -, -, hstep, -, hsource⟩ := hfrom
      obtain ⟨_, _, step', -, -, hstep', -, hsource'⟩ := hfrom'
      rw [hstep] at hstep'
      cases hstep'
      rw [hsource] at hsource'
      cases hsource'
      rw [Path.same_congr_left hsame, Path.same_comm, hsame']
  · rintro ⟨rfl, halike⟩
    rw [leader?_congr halike, hfirst'] at hfirst
    cases hfirst
    exact h.compiledFrom_unique hfrom hfrom'

end CompiledInto

/-- Sources that are alike have their objects in one place if both have a file name. -/
theorem objectPlace?_congr {other : NodeId}
    (h : (p.sourceKey source).same (p.sourceKey other) = true) (hsource : p.HasFileName source)
    (hother : p.HasFileName other) : p.objectPlace? id source = p.objectPlace? id other := by
  obtain ⟨name, hname⟩ := hsource
  obtain ⟨name', hname'⟩ := hother
  have heq : name = name' := by
    have hkey : (p.sourceKey source).fileName = some name := fileName_absolute p hname
    have hkey' : (p.sourceKey other).fileName = some name' := fileName_absolute p hname'
    rw [Path.fileName_congr h, hkey'] at hkey
    exact (Option.some.inj hkey).symm
  subst heq
  simp only [objectPlace?, objectPlace, objectPath, Path.suffix, Path.fileStem, hname, hname',
    Option.map_some, Option.getD_some]

/-- The first phase fails if two sources that are not alike have their objects in one
place. -/
theorem fails_of_objectPlace {id : TargetId} {source' first' : NodeId} {place place' : Path}
    (hfresh : p.Fresh) (hacyclic : Graph.Acyclic (p.DependsOn p.targetIds))
    (hsource : source ∈ p.compiledSources id) (hsource' : source' ∈ p.compiledSources id)
    (hfirst : p.leader? id source = some first) (hfirst' : p.leader? id source' = some first')
    (hplace : p.objectPlace? id first = some place)
    (hplace' : p.objectPlace? id first' = some place') (hsame : place.same place' = true)
    (hunlike : (p.sourceKey source).same (p.sourceKey source') = false) (exist : Path → Bool) :
    ∃ name problem q, Fails (Project.resolve exist) p (.target name problem) q := by
  obtain ⟨order, hordered⟩ := buildOrder_isOk_iff.mpr hacyclic
  rcases yields_or_fails (order.forM resolveTarget) p with ⟨_, q, hyields⟩ | ⟨e, q, hfails⟩
  · -- both objects would have been made, and would be one
    have hcompiled := CompiledInto.start hfresh hordered hyields
    obtain ⟨node, hobject⟩ := hcompiled.exists_objectOf hfresh hsource
    obtain ⟨node', hobject'⟩ := hcompiled.exists_objectOf hfresh hsource'
    obtain ⟨-, _, leader, -, -, hleader, place₁, path, step, heq, hat, hmade, hkind, -⟩ :=
      (hcompiled.objectOf_iff hfresh).mp hobject
    obtain ⟨-, _, leader', -, -, hleader', place₂, path', step', heq', hat', hmade', hkind', -⟩ :=
      (hcompiled.objectOf_iff hfresh).mp hobject'
    rw [hfirst] at hleader
    cases hleader
    rw [hfirst'] at hleader'
    cases hleader'
    rw [hplace] at heq
    rw [hplace'] at heq'
    cases heq
    cases heq'
    have hone := hcompiled.node_unique hat hat' hsame hmade hkind hmade' hkind'
    rw [((hcompiled.objectOf_eq_iff hfresh hobject hobject').mp hone).2] at hunlike
    cases hunlike
  · obtain ⟨_, _, _, _, _, _, _, hat⟩ := exists_failsAt hfresh.sound hfails
    obtain ⟨name, problem, rfl⟩ := hat.error
    exact ⟨name, problem, q, fails_resolve_of_compile hordered hfails⟩

end Resolve

end BuildPlan
