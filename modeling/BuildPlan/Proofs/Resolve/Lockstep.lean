import BuildPlan.Proofs.Project.Alike
import BuildPlan.Proofs.Project.Declared
import BuildPlan.Proofs.Resolve.Run

/-!
# BuildPlan.Proofs.Resolve.Lockstep

Resolving two projects that are alike. As long as both runs succeed, they take the
same turns: requirements decide neither which nodes are made nor what the nodes
depend on. Where the requirements of an affected target go, the nodes are marked.
-/

namespace BuildPlan

/-! ### What a target builds -/

namespace Resolve

/-- The node is compiled to where the target has its object of the step's source. -/
def CompiledFor (buildDir : Path) (target : String) (graph : NodeGraph) (node : NodeId) : Prop :=
  ∃ path step source suffix, graph.made? node = some (path, step) ∧ step.kind = .compile ∧
    step.sources = [source] ∧ source.index < graph.size ∧
      (objectPath buildDir target ⟨graph.name source⟩ suffix).same path = true

end Resolve

/-- The target builds the node: it compiles it as one of its objects, or it archives
or links it as its output. -/
def Target.Builds (t : Target) (buildDir : Path) (graph : NodeGraph) (node : NodeId) : Prop :=
  node ∈ t.objects ∧ Resolve.CompiledFor buildDir t.name graph node ∨
    t.type.makesOutput = true ∧ node ∈ t.outputs ∧
      ∃ path step, graph.made? node = some (path, step) ∧
        (step.kind = .archive ∨ step.kind = .link)

theorem Target.name_of_declared {t t' : Target} (h : t'.declared = t.declared) :
    t'.name = t.name := by
  have hname := congrArg Target.name h
  exact hname

def Project.Builds (p : Project) (id : TargetId) (node : NodeId) : Prop :=
  ∃ t, p.target? id = some t ∧ t.Builds p.buildDir p.graph node

namespace Resolve

open Build Project

variable {p p' q : Project} {affected : TargetId → Prop} {marked : NodeId → Prop} {id : TargetId}
  {env : EnvironmentId} {source object node : NodeId}

/-! ### What has been made -/

/-- Nodes that were there before have their names, and those that were made before are
made in the same way. -/
structure KeepsMade (graph graph' : NodeGraph) : Prop where
  made : ∀ node entry, graph.made? node = some entry → graph'.made? node = some entry
  names : ∀ node, node.index < graph.size → graph'.name node = graph.name node
  size : graph.size ≤ graph'.size

/-- The node has been made between the two graphs. -/
def MadeSince (graph graph' : NodeGraph) (node : NodeId) : Prop :=
  graph.made? node = none ∧ ∃ entry, graph'.made? node = some entry

section Made

variable {graph graph' graph'' : NodeGraph}

theorem KeepsMade.refl (graph : NodeGraph) : KeepsMade graph graph :=
  ⟨fun _ _ hnode => hnode, fun _ _ => rfl, Nat.le_refl _⟩

theorem KeepsMade.trans (h : KeepsMade graph graph') (h' : KeepsMade graph' graph'') :
    KeepsMade graph graph'' := by
  refine ⟨fun node entry hnode => h'.made node entry (h.made node entry hnode),
    fun node hlt => ?_, Nat.le_trans h.size h'.size⟩
  rw [h'.names node (Nat.lt_of_lt_of_le hlt h.size), h.names node hlt]

theorem KeepsMade.eq_none (h : KeepsMade graph graph') (hnone : graph'.made? node = none) :
    graph.made? node = none := by
  refine Option.eq_none_iff_forall_ne_some.mpr fun entry hnode => ?_
  rw [h.made node entry hnode] at hnone
  cases hnone

theorem MadeSince.earlier (h : MadeSince graph' graph'' node) (hmade : KeepsMade graph graph') :
    MadeSince graph graph'' node :=
  ⟨hmade.eq_none h.1, h.2⟩

theorem MadeSince.later (h : MadeSince graph graph' node) (hmade : KeepsMade graph' graph'') :
    MadeSince graph graph'' node :=
  ⟨h.1, h.2.imp fun entry hnode => hmade.made node entry hnode⟩

theorem CompiledFor.mono {buildDir : Path} {target : String} (hmade : KeepsMade graph graph')
    (h : CompiledFor buildDir target graph node) : CompiledFor buildDir target graph' node := by
  obtain ⟨path, step, source, suffix, hnode, hkind, hsources, hlt, hsame⟩ := h
  refine ⟨path, step, source, suffix, hmade.made _ _ hnode, hkind, hsources,
    Nat.lt_of_lt_of_le hlt hmade.size, ?_⟩
  rwa [hmade.names source hlt]

/-- A product has been made, and nothing else. -/
theorem madeSince_of_product {path : Path} {step : BuildStep}
    (h : p.graph.Product path step node graph) (hcommand : step.command = none) :
    KeepsMade p.graph graph ∧ MadeSince p.graph graph node := by
  obtain ⟨known, -, hnone, hmades⟩ := h.made?_eq hcommand
  refine ⟨⟨fun other entry hother => ?_, h.names, (size_le_of_product h).1⟩, hnone, _,
    (hmades node).trans (if_pos rfl)⟩
  rw [hmades, if_neg, hother]
  rintro rfl
  rw [hnone] at hother
  cases hother

end Made

/-! ### Objects -/

theorem makeObject_inv {tc : Toolchain} {handler : SourceHandler} {reqs : EffectiveRequirements}
    (h : Yields (makeObject id env tc handler reqs source) p object q) :
    let path :=
      objectPath p.buildDir (p.targetName id) ⟨p.graph.name source⟩ handler.objectSuffix
    let graph := (p.graph.addProduct path).2
    let headers := ((graph.node? source).map Node.deps).getD []
    object = (p.graph.addProduct path).1 ∧
      ∃ next, (graph.modify object fun node =>
          (node.depends [source]).dependsImplicitly headers).setStep object
          (compileStep tc handler env source path reqs) = .ok next ∧
        q = { p with graph := next } := by
  simp only [makeObject, yields_get_bind] at h
  split at h
  · simp only [yields_bind, not_yields_throw, false_and, exists_false] at h
  rw [yields_set_bind, yields_bind] at h
  obtain ⟨_, _, hstep, h⟩ := h
  obtain ⟨rfl, rfl⟩ := yields_pure.mp h
  obtain ⟨graph, hset, rfl⟩ := setProductStep_inv hstep
  exact ⟨rfl, graph, hset, rfl⟩

/-- What one run of the compiler does. -/
theorem makeObject_compiles {tc : Toolchain} {handler : SourceHandler}
    {reqs : EffectiveRequirements} (hindexed : p.graph.Indexed)
    (hsource : source.index < p.graph.size)
    (h : Yields (makeObject id env tc handler reqs source) p object q) :
    (∃ graph, q = { p with graph }) ∧ q.graph.Indexed ∧ KeepsMade p.graph q.graph ∧
      MadeSince p.graph q.graph object ∧
      CompiledFor p.buildDir (p.targetName id) q.graph object := by
  obtain ⟨rfl, graph, hset, rfl⟩ := makeObject_inv h
  have hproduces : p.graph.Produces _ _ _ graph := ⟨rfl, _, Node.kind_depends _ _, hset⟩
  obtain ⟨hproduct, hindexed'⟩ := hproduces.product hindexed
  obtain ⟨hmade, hsince⟩ := madeSince_of_product hproduct rfl
  obtain ⟨known, hsame, -, hmades⟩ := hproduct.made?_eq rfl
  refine ⟨⟨graph, rfl⟩, hindexed', hmade, hsince, known, _, source, handler.objectSuffix,
    (hmades _).trans (if_pos rfl), rfl, rfl, Nat.lt_of_lt_of_le hsource hmade.size, ?_⟩
  rwa [hmade.names source hsource]

/-- An affected target marks its objects. -/
theorem makeObject_alike {tc : Toolchain} {handler : SourceHandler}
    {reqs reqs' : EffectiveRequirements} (h : Alike affected marked p p')
    (hreqs : ¬ affected id → reqs' = reqs) :
    Coupled (makeObject id env tc handler reqs source) (makeObject id env tc handler reqs' source)
      p p' fun object object' q q' => object' = object ∧
        Alike affected (fun node => marked node ∨ affected id ∧ node = object) q q' := by
  intro object object' q q' hyields hyields'
  obtain ⟨rfl, graph, hset, rfl⟩ := makeObject_inv hyields
  obtain ⟨rfl, graph', hset', rfl⟩ := makeObject_inv hyields'
  -- both runs make the object of one path, with the same headers
  have hpath : objectPath p'.buildDir (p'.targetName id) ⟨p'.graph.name source⟩
      handler.objectSuffix =
      objectPath p.buildDir (p.targetName id) ⟨p.graph.name source⟩ handler.objectSuffix := by
    rw [h.graph.name, h.congr (·.buildDir) fun _ => rfl, h.congr (·.targetName id) (by simp)]
  rw [hpath] at hset' ⊢
  obtain ⟨hobject, hadded⟩ := h.graph.addProduct (objectPath p.buildDir (p.targetName id)
    ⟨p.graph.name source⟩ handler.objectSuffix)
  rw [hadded.deps source] at hset'
  refine ⟨hobject, h.withGraph ?_⟩
  exact h.graph.product (Node.outline_depends _ _) hset hset' rfl fun hid => by rw [hreqs hid]

/-- What a target has taken in from `p` on: its objects are sources of its own, or
they have been made since. -/
structure TakenIn (sources : List NodeId) (p : Project) (c : Compilation) (q : Project) : Prop where
  known : ∀ node ∈ sources, node.index < p.graph.size
  graph : ∃ graph, q = { p with graph }
  indexed : q.graph.Indexed
  made : KeepsMade p.graph q.graph
  objects : ∀ node ∈ c.objects, node ∈ sources ∨ MadeSince p.graph q.graph node
  compiled : ∀ entry ∈ c.compiled, MadeSince p.graph q.graph entry.2

/-- Two runs that compile the sources of a target. The objects that an affected
target has made are marked. -/
structure Compiling (affected : TargetId → Prop) (marked : NodeId → Prop) (id : TargetId)
    (sources : List NodeId) (p : Project) (c c' : Compilation) (q q' : Project) : Prop where
  compilation : c' = c
  taken : TakenIn sources p c q
  alike : Alike affected (fun node => marked node ∨
    affected id ∧ p.graph.made? node = none ∧ node ∈ c.objects ∧
      CompiledFor p.buildDir (p.targetName id) q.graph node) q q'

theorem mem_addObject {c : Compilation} :
    node ∈ (c.addObject object).objects ↔ node ∈ c.objects ∨ node = object := by
  rw [Compilation.addObject, Node.mem_addNew, List.mem_singleton]

section Compiling

variable {sources : List NodeId} {c c' next : Compilation} {r q' : Project}

/-- More is taken in without anything being made. -/
theorem Compiling.grow (h : Compiling affected marked id sources r c c' q q')
    (hold : ∀ node ∈ c.objects, node ∈ next.objects)
    (hnew : ∀ node ∈ next.objects, node ∈ c.objects ∨ node ∈ sources ∨
      MadeSince r.graph q.graph node)
    (hcompiled : next.compiled = c.compiled) :
    Compiling affected marked id sources r next next q q' := by
  refine ⟨rfl, ⟨h.taken.known, h.taken.graph, h.taken.indexed, h.taken.made,
    fun node hnode => ?_, hcompiled ▸ h.taken.compiled⟩, h.alike.mono fun node hnode => ?_⟩
  · exact (hnew node hnode).elim (h.taken.objects node) fun hor => hor
  · exact hnode.imp_right fun ⟨hid, hnone, hmem, hinto⟩ => ⟨hid, hnone, hold node hmem, hinto⟩

/-- Nothing is taken in that could be linked. -/
theorem Compiling.pass (h : Compiling affected marked id sources r c c' q q')
    (hobjects : next.objects = c.objects) (hcompiled : next.compiled = c.compiled) :
    Compiling affected marked id sources r next next q q' :=
  h.grow (fun _ hmem => hobjects ▸ hmem) (fun _ hmem => .inl (hobjects ▸ hmem)) hcompiled

/-- An object is taken in that is there already. -/
theorem Compiling.add (h : Compiling affected marked id sources r c c' q q')
    (hobject : object ∈ sources ∨ MadeSince r.graph q.graph object)
    (hobjects : next.objects = (c.addObject object).objects)
    (hcompiled : next.compiled = c.compiled) :
    Compiling affected marked id sources r next next q q' := by
  refine h.grow (fun node hmem => ?_) (fun node hmem => ?_) hcompiled
  · rw [hobjects]
    exact mem_addObject.mpr (.inl hmem)
  · rw [hobjects] at hmem
    rcases mem_addObject.mp hmem with hold | rfl
    · exact .inl hold
    · exact .inr hobject

/-- A new object is made and taken in. -/
theorem Compiling.compile {tc : Toolchain} {handler : SourceHandler} {key : Path}
    {reqs reqs' : EffectiveRequirements} (hreqs : ¬ affected id → reqs' = reqs)
    (hsource : source ∈ sources) (h : Compiling affected marked id sources r c c q q') :
    Coupled
      (makeObject id env tc handler reqs source >>= fun object =>
        pure { c.addObject object with compiled := (key, object) :: c.compiled })
      (makeObject id env tc handler reqs' source >>= fun object =>
        pure { c.addObject object with compiled := (key, object) :: c.compiled })
      q q' (Compiling affected marked id sources r) := by
  have hlt : source.index < q.graph.size :=
    Nat.lt_of_lt_of_le (h.taken.known source hsource) h.taken.made.size
  refine Coupled.bind ((makeObject_alike h.alike hreqs).with_left
    fun _ _ => makeObject_compiles h.taken.indexed hlt) fun object _ s s' hobject => ?_
  obtain ⟨⟨⟨graph, rfl⟩, hindexed, hmade, hsince, hinto⟩, rfl, halike⟩ := hobject
  obtain ⟨before, rfl⟩ := h.taken.graph
  have hsince := hsince.earlier h.taken.made
  refine coupled_pure ⟨rfl, ⟨h.taken.known, ⟨graph, rfl⟩, hindexed, h.taken.made.trans hmade,
    fun node hnode => ?_, fun entry hentry => ?_⟩, halike.mono fun node hnode => ?_⟩
  · rcases mem_addObject.mp hnode with hold | rfl
    · exact (h.taken.objects node hold).imp_right (·.later hmade)
    · exact .inr hsince
  · rcases List.mem_cons.mp hentry with rfl | hentry
    · exact hsince
    · exact (h.taken.compiled entry hentry).later hmade
  · rcases hnode with (hmarked | ⟨hid, hnone, hmem, hinto'⟩) | ⟨hid, rfl⟩
    · exact .inl hmarked
    · exact .inr ⟨hid, hnone, mem_addObject.mpr (.inl hmem), hinto'.mono hmade⟩
    · exact .inr ⟨hid, hsince.1, mem_addObject.mpr (.inr rfl), hinto⟩

/-- Both runs take in a source in the same way. -/
theorem compileSource_compiling {reqs reqs' : EffectiveRequirements}
    (hreqs : ¬ affected id → reqs' = reqs) (hsource : source ∈ sources)
    (h : Compiling affected marked id sources r c c' q q') :
    Coupled (compileSource id env reqs c source) (compileSource id env reqs' c' source) q q'
      (Compiling affected marked id sources r) := by
  obtain rfl := h.compilation
  -- what a turn looks at is the same in both runs
  have hname := h.alike.graph.name source
  have henv : q'.environment? = q.environment? := h.alike.congr (·.environment?) fun _ => rfl
  have habsolute : q'.absolute = q.absolute := h.alike.congr (·.absolute) fun _ => rfl
  unfold compileSource
  refine coupled_get_bind ?_
  simp only [hname, henv, habsolute]
  split
  · exact coupled_pure (h.pass rfl rfl)
  split
  · -- a linker flag
    exact coupled_pure (h.pass rfl rfl)
  split
  · -- a linker input, or a source to pass over
    refine coupled_pure ?_
    split
    · exact h.add (.inl hsource) rfl rfl
    · exact h.pass rfl rfl
  split
  · next hfound =>
      -- the target has compiled this source before
      have hsince := h.taken.compiled _ (List.mem_of_find?_eq_some hfound)
      exact coupled_pure (h.add (.inr hsince) rfl rfl)
  · refine Compiling.compile hreqs hsource ?_
    exact h.pass rfl rfl

end Compiling

theorem compileSources_compiling {reqs reqs' : EffectiveRequirements} {sources : List NodeId}
    (hreqs : ¬ affected id → reqs' = reqs) (h : Alike affected marked p p')
    (hindexed : p.graph.Indexed) (hsources : ∀ node ∈ sources, node.index < p.graph.size) :
    Coupled (sources.foldlM (compileSource id env reqs) {})
      (sources.foldlM (compileSource id env reqs') {}) p p'
      (Compiling affected marked id sources p) := by
  have hstart : Compiling affected marked id sources p {} {} p p' :=
    ⟨rfl, ⟨hsources, ⟨p.graph, rfl⟩, hindexed, .refl p.graph, by simp, by simp⟩,
      h.mono fun _ => .inl⟩
  exact coupled_foldlM hstart fun _ hsource _ _ _ _ hc => compileSource_compiling hreqs hsource hc

/-! ### Outputs -/

/-- One target has been given outputs or notes at most, and keeps its objects and its
languages. -/
structure Touches (id : TargetId) (p q : Project) : Prop where
  buildDir : q.buildDir = p.buildDir
  others : ∀ other, other ≠ id → q.target? other = p.target? other
  target : ∀ t, p.target? id = some t →
    ∃ t', q.target? id = some t' ∧ t'.declared = t.declared ∧ t'.objects = t.objects ∧
      t'.languages = t.languages

theorem Touches.refl (id : TargetId) (p : Project) : Touches id p p :=
  ⟨rfl, fun _ _ => rfl, fun t ht => ⟨t, ht, rfl, rfl, rfl⟩⟩

theorem Touches.trans {r : Project} (h : Touches id p q) (h' : Touches id q r) :
    Touches id p r := by
  refine ⟨h'.buildDir.trans h.buildDir,
    fun other hother => (h'.others other hother).trans (h.others other hother), fun t ht => ?_⟩
  obtain ⟨t', ht', hdeclared, hobjects, hlanguages⟩ := h.target t ht
  obtain ⟨t'', ht'', hdeclared', hobjects', hlanguages'⟩ := h'.target t' ht'
  exact ⟨t'', ht'', hdeclared'.trans hdeclared, hobjects'.trans hobjects,
    hlanguages'.trans hlanguages⟩

theorem touches_withGraph (id : TargetId) (p : Project) (graph : NodeGraph) :
    Touches id p { p with graph } :=
  ⟨rfl, fun _ _ => rfl, fun t ht => ⟨t, ht, rfl, rfl, rfl⟩⟩

theorem touches_modifyTarget {change : Target → Target}
    (hdeclared : ∀ t, (change t).declared = t.declared)
    (hobjects : ∀ t, (change t).objects = t.objects)
    (hlanguages : ∀ t, (change t).languages = t.languages) (p : Project) (id : TargetId) :
    Touches id p (p.modifyTarget id change) := by
  refine ⟨rfl, fun other hother => ?_,
    fun t ht => ⟨change t, ?_, hdeclared t, hobjects t, hlanguages t⟩⟩
  · rw [target?_modifyTarget, if_neg hother]
  · rw [target?_modifyTarget, if_pos rfl, ht, Option.map_some]

theorem effectiveRequirements_touches (id : TargetId) (scope : RequirementScope) (p : Project) :
    Touches id p ((effectiveRequirements id scope).run p).2 ∧
      ((effectiveRequirements id scope).run p).2.graph = p.graph := by
  rcases effectiveRequirements_run id scope p with heq | ⟨reqs, heq⟩ <;> rw [heq]
  · exact ⟨.refl id p, rfl⟩
  · refine ⟨touches_modifyTarget ?_ ?_ ?_ p id, rfl⟩
    · exact fun _ => rfl
    · exact fun _ => rfl
    · exact fun _ => rfl

/-- The type of a target is what it was declared with. -/
theorem Touches.type (h : Touches id p q) {t t' : Target} (ht : p.target? id = some t)
    (ht' : q.target? id = some t') : t'.type = t.type := by
  obtain ⟨_, hsome, hdeclared, -⟩ := h.target t ht
  rw [ht'] at hsome
  cases hsome
  exact Target.type_of_declared hdeclared

/-- Two runs that make the output of a target. What an affected target has made is
marked. An object target hands out its objects. -/
structure Producing (affected : TargetId → Prop) (marked : NodeId → Prop) (id : TargetId)
    (p q q' : Project) : Prop where
  touches : Touches id p q
  made : KeepsMade p.graph q.graph
  outputs : ∀ t, q.target? id = some t → t.type = .object → t.outputs = t.objects
  alike : Alike affected
    (fun node => marked node ∨ affected id ∧ p.graph.made? node = none ∧ q.Builds id node) q q'

/-- Nothing has been made. -/
theorem producing_of_touches {q' : Project} (htouches : Touches id p q)
    (hgraph : q.graph = p.graph)
    (houtputs : ∀ t, q.target? id = some t → t.type = .object → t.outputs = t.objects)
    (h : Alike affected marked q q') : Producing affected marked id p q q' :=
  ⟨htouches, hgraph ▸ .refl p.graph, houtputs, h.mono fun _ => .inl⟩

theorem makeOutput_steps {target : Target} {deps : List (List NodeId)} {step : BuildStep} {u : Unit}
    (h : Yields (makeOutput id target deps step) p u q) :
    ∃ graph, ((p.graph.addProduct (outputPath p id target)).2.modify
        (p.graph.addProduct (outputPath p id target)).1
        fun node => deps.foldl Node.depends node).setStep
          (p.graph.addProduct (outputPath p id target)).1 step = .ok graph ∧
      q = { p with graph }.modifyTarget id fun t =>
        { t with outputs := [(p.graph.addProduct (outputPath p id target)).1] } := by
  simp only [makeOutput, yields_get_bind, yields_set_bind] at h
  obtain ⟨_, _, hstep, h⟩ := yields_bind.mp h
  obtain ⟨graph, hset, rfl⟩ := setProductStep_inv hstep
  exact ⟨graph, hset, yields_modify.mp h⟩

theorem makeOutput_producing {target t : Target} {deps : List (List NodeId)}
    {step step' : BuildStep} (h : Alike affected marked p p') (hindexed : p.graph.Indexed)
    (ht : p.target? id = some t) (htype : t.type.makesOutput = true)
    (hkind : step.kind = .archive ∨ step.kind = .link) (hcommand : step.command = none)
    (houtline : step'.outline = step.outline) (hsame : ¬ affected id → step' = step) :
    Coupled (makeOutput id target deps step) (makeOutput id target deps step') p p'
      fun _ _ q q' => Producing affected marked id p q q' := by
  intro _ _ q q' hyields hyields'
  obtain ⟨graph, hset, rfl⟩ := makeOutput_steps hyields
  obtain ⟨graph', hset', rfl⟩ := makeOutput_steps hyields'
  have hpath : outputPath p' id target = outputPath p id target := by
    rw [outputPath, outputPath, h.congr (·.buildDir) fun _ => rfl,
      h.congr (primaryToolchain · id) (by simp)]
  rw [hpath] at hset' ⊢
  revert hset hset'
  generalize outputPath p id target = path
  intro hset hset'
  have hproduces : p.graph.Produces path step _ graph :=
    ⟨rfl, _, Node.kind_foldl_depends deps, hset⟩
  obtain ⟨hproduct, -⟩ := hproduces.product hindexed
  obtain ⟨hmade, hsince⟩ := madeSince_of_product hproduct hcommand
  obtain ⟨known, -, -, hmades⟩ := hproduct.made?_eq hcommand
  obtain ⟨hid, -⟩ := h.graph.addProduct path
  have htouches : Touches id p ({ p with graph }.modifyTarget id fun t =>
      { t with outputs := [(p.graph.addProduct path).1] }) := by
    refine (touches_withGraph id p graph).trans (touches_modifyTarget ?_ ?_ ?_ _ id)
    · exact fun _ => rfl
    · exact fun _ => rfl
    · exact fun _ => rfl
  refine ⟨htouches, hmade, fun t' ht' hobject => ?_, ?_⟩
  · rw [htouches.type ht ht'] at hobject
    rw [hobject] at htype
    cases htype
  have hnext := h.graph.product (Node.outline_foldl_depends deps) hset hset' houtline hsame
  rw [hid]
  refine ((h.withGraph hnext).modifyTarget id ?_ ?_ ?_).mono fun node hnode => ?_
  · exact fun _ => rfl
  · exact fun _ => rfl
  · exact fun _ => rfl
  · -- an affected target builds the node that has become its output
    refine hnode.imp_right (And.imp_right fun heq => ?_)
    rw [heq]
    refine ⟨hsince.1, { t with outputs := [(p.graph.addProduct path).1] }, ?_,
      .inr ⟨htype, ?_, ?_⟩⟩
    · rw [target?_modifyTarget, if_pos rfl]
      exact congrArg (Option.map _) ht
    · exact List.mem_singleton_self _
    · exact ⟨known, step, (hmades _).trans (if_pos rfl), hkind⟩

theorem collectAndMake_producing {t : Target} (deps : Project → List (List NodeId))
    (step : Project → EffectiveRequirements → BuildStep) (h : Alike affected marked p p')
    (hindexed : p.graph.Indexed) (ht : p.target? id = some t) (htype : t.type.makesOutput = true)
    (hkind : ∀ p reqs, (step p reqs).kind = .archive ∨ (step p reqs).kind = .link)
    (hcommand : ∀ p reqs, (step p reqs).command = none)
    (hdeps : ∀ p, deps p.outline = deps p) (hstep : ∀ p reqs, step p.outline reqs = step p reqs)
    (houtline : ∀ p reqs reqs', (step p reqs').outline = (step p reqs).outline) :
    let make : Build Unit := if t.objects.isEmpty then pure () else do
      let reqs ← liftM (effectiveRequirements id .link)
      let p ← get
      makeOutput id t (deps p) (step p reqs)
    Coupled make make p p' fun _ _ q q' => Producing affected marked id p q q' := by
  intro make
  obtain ⟨hreqs, hafter⟩ := h.effectiveRequirements id .link
  obtain ⟨htouches, hgraph⟩ := effectiveRequirements_touches id .link p
  obtain ⟨t', ht', hdeclared, -⟩ := htouches.target t ht
  simp only [make]
  split
  · refine coupled_pure (producing_of_touches (.refl id p) rfl (fun t' ht' hobject => ?_) h)
    rw [ht] at ht'
    cases ht'
    rw [hobject] at htype
    cases htype
  refine coupled_liftState_bind (coupled_get_bind ?_)
  rw [hafter.congr deps hdeps, hafter.congr (step · _) fun p => hstep p _]
  refine (makeOutput_producing hafter (hgraph ▸ hindexed) ht' ?_ (hkind _ _) (hcommand _ _)
    (houtline _ _ _) fun hid => by rw [hreqs hid]).imp fun _ _ q q' hmade => ?_
  · rwa [Target.type_of_declared hdeclared]
  · exact ⟨htouches.trans hmade.touches, hgraph ▸ hmade.made, hmade.outputs, hgraph ▸ hmade.alike⟩

theorem produce_producing (h : Alike affected marked p p') (hindexed : p.graph.Indexed) :
    Coupled (produce id env) (produce id env) p p'
      fun _ _ q q' => Producing affected marked id p q q' := by
  have hnothing : (∀ t, p.target? id = some t → t.type ≠ .object) →
      Producing affected marked id p p p' := fun hnot =>
    producing_of_touches (.refl id p) rfl (fun t ht hobject => absurd hobject (hnot t ht)) h
  unfold produce
  refine coupled_get_bind ?_
  rcases h.target?_cases id with ⟨ht, ht'⟩ | ⟨t, publicReqs, privateReqs, collected, ht, ht'⟩ <;>
    simp only [ht, ht']
  · exact coupled_pure (hnothing (by simp [ht]))
  -- the requirements of the target play no part in what is made
  have hmake : makeOutput id { t with publicReqs, privateReqs, collected } = makeOutput id t := rfl
  have harchive : ∀ p, archiveStep p id { t with publicReqs, privateReqs, collected } =
      archiveStep p id t := fun _ => rfl
  have hlink : ∀ p, linkStep p id { t with publicReqs, privateReqs, collected } =
      linkStep p id t := fun _ => rfl
  simp only [hmake, harchive, hlink]
  cases htype : t.type with
  | object =>
      refine coupled_modify (producing_of_touches (touches_modifyTarget ?_ ?_ ?_ p id) rfl
        (fun t' ht' _ => ?_) (h.modifyTarget id ?_ ?_ ?_))
      case refine_4 =>
        obtain ⟨_, -, rfl⟩ := exists_target_of_modifyTarget ht'
        rw [if_pos rfl]
      all_goals exact fun _ => rfl
  | staticLibrary =>
      dsimp only
      exact collectAndMake_producing (fun p => [t.objects, dependencyOutputs p id])
        (fun p reqs => archiveStep p id t env reqs) h hindexed ht (by rw [htype]; rfl)
        (fun _ _ => .inl rfl) (fun _ _ => rfl) (by simp) (by simp) fun _ _ _ => rfl
  | sharedLibrary | program =>
      dsimp only
      have hmade := collectAndMake_producing
        (fun p => [t.objects, dependencyOutputs p id, t.auxiliaryInputs.map (·.1)])
        (fun p reqs => linkStep p id t env reqs) h hindexed ht (by rw [htype]; rfl)
        (fun _ _ => .inr rfl) (fun _ _ => rfl) (by simp) (by simp) fun _ _ _ => rfl
      exact hmade
  | interface | install => exact coupled_pure (hnothing (by simp [ht, htype]))

/-! ### Turns -/

/-- Two runs in which a target has had its turn. What an affected target has made is
marked. Its objects are its own, or they are among its sources. -/
structure Turned (affected : TargetId → Prop) (marked : NodeId → Prop) (id : TargetId)
    (p q q' : Project) : Prop where
  buildDir : q.buildDir = p.buildDir
  others : ∀ other, other ≠ id → q.target? other = p.target? other
  target : ∃ t, q.target? id = some t ∧ t.resolved = true ∧
    (∀ node ∈ t.objects, node ∈ t.sources ∨ MadeSince p.graph q.graph node) ∧
    (t.type.makesOutput = false → ∀ node ∈ t.outputs, node ∈ t.objects)
  made : KeepsMade p.graph q.graph
  alike : Alike affected
    (fun node => marked node ∨ affected id ∧ p.graph.made? node = none ∧ q.Builds id node) q q'

/-- What a target has compiled it still builds when it has been given its output. -/
theorem builds_of_touches {t : Target} (h : Touches id p q) (hmade : KeepsMade p.graph q.graph)
    (ht : p.target? id = some t) (hobject : node ∈ t.objects)
    (hcompiled : CompiledFor p.buildDir t.name p.graph node) :
    q.Builds id node := by
  obtain ⟨t', ht', hdeclared, hobjects, -⟩ := h.target t ht
  refine ⟨t', ht', .inl ⟨hobjects ▸ hobject, ?_⟩⟩
  rw [h.buildDir, Target.name_of_declared hdeclared]
  exact hcompiled.mono hmade

theorem builds_resolved (h : p.Builds id node) :
    (p.modifyTarget id fun t => { t with resolved := true }).Builds id node := by
  obtain ⟨t, ht, hbuilds⟩ := h
  refine ⟨{ t with resolved := true }, ?_, hbuilds⟩
  rw [target?_modifyTarget, if_pos rfl, ht, Option.map_some]

theorem compileTarget_turned {t : Target} (h : Alike affected marked p p')
    (hindexed : p.graph.Indexed) (ht : p.target? id = some t) (htype : t.type ≠ .interface)
    (hsources : ∀ node ∈ t.sources, node.index < p.graph.size) :
    Coupled (compileTarget id env t.sources) (compileTarget id env t.sources) p p'
      fun _ _ q q' => Turned affected marked id p q q' := by
  obtain ⟨hreqs, hafter⟩ := h.effectiveRequirements id .compile
  obtain ⟨htouches, hgraph⟩ := effectiveRequirements_touches id .compile p
  obtain ⟨t₁, ht₁, hdeclared₁, -⟩ := htouches.target t ht
  unfold compileTarget
  refine coupled_liftState_bind ?_
  generalize ((effectiveRequirements id .compile).run p).2 = r at *
  generalize ((effectiveRequirements id .compile).run p').2 = r' at *
  refine (compileSources_compiling hreqs hafter (hgraph ▸ hindexed) (hgraph ▸ hsources)).bind
    fun c c' s s' hc => ?_
  obtain rfl := hc.compilation
  obtain ⟨-, ⟨graph, rfl⟩, hindexed', hmade, hobjects, -⟩ := hc.taken
  refine coupled_modify_bind ?_
  refine Coupled.bind (produce_producing (hc.alike.modifyTarget id ?_ ?_ ?_) hindexed')
    fun _ _ u u' hu => coupled_modify ?_
  · exact fun _ => rfl
  · exact fun _ => rfl
  · exact fun _ => rfl
  -- the target as it is once its objects have been noted
  have ht₂ := target?_modifyTarget { r with graph } id id fun t => { t with
    objects := c'.objects
    auxiliaryInputs := c'.auxiliary
    languages := Target.mergeLanguages t.languages c'.languages }
  have ht₁' : Project.target? { r with graph } id = some t₁ := ht₁
  rw [if_pos rfl, ht₁', Option.map_some] at ht₂
  obtain ⟨t₃, ht₃, hdeclared₃, hobjects₃, -⟩ := hu.touches.target _ ht₂
  have hdeclared : t₃.declared = t.declared := hdeclared₃.trans hdeclared₁
  have hnoted : t₃.objects = c'.objects := hobjects₃
  have hdone : (u.modifyTarget id fun t => { t with resolved := true }).target? id =
      some { t₃ with resolved := true } := by
    rw [target?_modifyTarget, if_pos rfl, ht₃, Option.map_some]
  have hmade' : KeepsMade p.graph u.graph := hgraph ▸ hmade.trans hu.made
  refine ⟨hu.touches.buildDir.trans htouches.buildDir, fun other hother => ?_,
    ⟨_, hdone, rfl, fun node hnode => ?_, fun hnone node hnode => ?_⟩, hmade', ?_⟩
  · rw [target?_modifyTarget, if_neg hother, hu.touches.others other hother, target?_modifyTarget,
      if_neg hother, ← htouches.others other hother]
    rfl
  · rw [Target.sources_of_declared hdeclared]
    refine (hobjects node (hnoted ▸ hnode)).imp_right fun hsince => ?_
    exact hgraph ▸ hsince.later hu.made
  · -- of what is compiled, only object targets make no output of their own
    have hobject : t₃.type = .object := by
      rw [← Target.type_of_declared hdeclared] at htype
      revert hnone htype
      dsimp only
      cases t₃.type <;> simp [TargetType.makesOutput]
    exact hu.outputs t₃ ht₃ hobject ▸ hnode
  · refine (hu.alike.modifyTarget id ?_ ?_ ?_).mono fun node hnode => ?_
    · exact fun _ => rfl
    · exact fun _ => rfl
    · exact fun _ => rfl
    rcases hnode with (hmarked | ⟨hid, hnone, hobject, hcompiled⟩) | ⟨hid, hnone, hbuilds⟩
    · exact .inl hmarked
    · refine .inr ⟨hid, hgraph ▸ hnone,
        builds_resolved (builds_of_touches hu.touches hu.made ht₂ hobject ?_)⟩
      rwa [targetName, ht₁] at hcompiled
    · exact .inr ⟨hid, hgraph ▸ hmade.eq_none hnone, builds_resolved hbuilds⟩

/-- A target that has had its turn already is left alone, and so are the ones that
have to wait. Any other has its turn. -/
theorem resolveTarget_turned (h : Alike affected marked p p') (hindexed : p.graph.Indexed)
    (hsources : ∀ t, p.target? id = some t → ∀ node ∈ t.sources, node.index < p.graph.size)
    (hwaiting : ∀ t, p.target? id = some t → t.resolved = false → t.objects = [] ∧ t.outputs = []) :
    Coupled (resolveTarget id) (resolveTarget id) p p' fun _ _ q q' => (q = p ∧ q' = p') ∨
      (∀ t, p.target? id = some t → t.resolved = false) ∧ Turned affected marked id p q q' := by
  unfold resolveTarget
  refine coupled_get_bind ?_
  rcases h.target?_cases id with ⟨ht, ht'⟩ | ⟨t, publicReqs, privateReqs, collected, ht, ht'⟩ <;>
    simp only [ht, ht']
  · exact coupled_pure (.inl ⟨rfl, rfl⟩)
  split
  · exact coupled_pure (.inl ⟨rfl, rfl⟩)
  next hresolved =>
  have hopen : ∀ t', some t = some t' → t'.resolved = false := by simpa using hresolved
  split
  · -- an interface has nothing, and is marked as resolved
    obtain ⟨hobjects, houtputs⟩ := hwaiting t ht (hopen t rfl)
    refine coupled_modify (.inr ⟨hopen, rfl, fun other hother => ?_,
      ⟨{ t with resolved := true }, ?_, rfl, by simp [hobjects], by simp [houtputs]⟩, .refl _,
      (h.modifyTarget id ?_ ?_ ?_).mono fun _ => .inl⟩)
    · rw [target?_modifyTarget, if_neg hother]
    · rw [target?_modifyTarget, if_pos rfl, ht, Option.map_some]
    all_goals exact fun _ => rfl
  · exact coupled_pure (.inl ⟨rfl, rfl⟩)
  · exact coupled_pure (.inl ⟨rfl, rfl⟩)
  · next hinterface _ =>
      exact (compileTarget_turned h hindexed ht hinterface (hsources t ht)).imp
        fun _ _ _ _ hturned => .inr ⟨hopen, hturned⟩

/-! ### The first phase -/

theorem builds_mono (hbuildDir : q.buildDir = p.buildDir) (htarget : q.target? id = p.target? id)
    (hmade : KeepsMade p.graph q.graph) (h : p.Builds id node) : q.Builds id node := by
  obtain ⟨t, ht, hbuilds⟩ := h
  refine ⟨t, htarget.trans ht, hbuilds.imp (fun hobject => ?_) fun houtput => ?_⟩
  · rw [hbuildDir]
    exact ⟨hobject.1, hobject.2.mono hmade⟩
  · obtain ⟨htype, hmem, path, step, hnode, hkind⟩ := houtput
    exact ⟨htype, hmem, path, step, hmade.made _ _ hnode, hkind⟩

/-- What is built has been made. -/
theorem made_of_builds (h : p.Builds id node) : ∃ entry, p.graph.made? node = some entry := by
  obtain ⟨t, -, ⟨-, path, step, -, -, hnode, -⟩ | ⟨-, -, path, step, hnode, -⟩⟩ := h
  · exact ⟨_, hnode⟩
  · exact ⟨_, hnode⟩

/-- Two runs that have compiled some targets. The marked nodes are built by affected
targets. Another target has made its objects itself, without a mark, or they are
among its sources. -/
structure Lockstep (affected : TargetId → Prop) (marked : NodeId → Prop) (p p' : Project) :
    Prop where
  sound : Sound ⟨p, [], []⟩
  waiting : ∀ id t, p.target? id = some t → t.resolved = false → t.objects = [] ∧ t.outputs = []
  outputs : ∀ id t, p.target? id = some t → t.type.makesOutput = false →
    ∀ node ∈ t.outputs, node ∈ t.objects
  built : ∀ node, marked node →
    ∃ id t, affected id ∧ p.target? id = some t ∧ t.resolved = true ∧ p.Builds id node
  apart : ∀ id t, ¬ affected id → p.target? id = some t → ∀ node ∈ t.objects,
    node ∈ t.sources ∨ ¬ marked node ∧ ∃ entry, p.graph.made? node = some entry
  alike : Alike affected marked p p'

theorem Lockstep.of_fresh (hfresh : p.Fresh) (h : Alike affected (fun _ => False) p p') :
    Lockstep affected (fun _ => False) p p' := by
  refine ⟨hfresh.sound, fun id t ht _ => ?_, fun id t ht _ node hnode => ?_, fun _ => False.elim,
    fun id t _ ht node hnode => ?_, h⟩
  · exact ⟨(hfresh.targets id t ht).objects, (hfresh.targets id t ht).outputs⟩
  · rw [(hfresh.targets id t ht).outputs] at hnode
    cases hnode
  · rw [(hfresh.targets id t ht).objects] at hnode
    cases hnode

/-- The other targets are as they were before the turn. -/
theorem Turned.target_cases {q' : Project} {other : TargetId} {t : Target}
    (h : Turned affected marked id p q q') (ht : q.target? other = some t) :
    (other ≠ id ∧ p.target? other = some t) ∨ other = id ∧ t.resolved = true ∧
      (∀ node ∈ t.objects, node ∈ t.sources ∨ MadeSince p.graph q.graph node) ∧
      (t.type.makesOutput = false → ∀ node ∈ t.outputs, node ∈ t.objects) := by
  by_cases heq : other = id
  · obtain ⟨_, hsome, hrest⟩ := h.target
    rw [heq, hsome] at ht
    cases ht
    exact .inr ⟨heq, hrest⟩
  · exact .inl ⟨heq, h.others other heq ▸ ht⟩

/-- A turn marks nodes only that nothing made before, and only for an affected target. -/
theorem Lockstep.turn {q' : Project} (h : Lockstep affected marked p p')
    (hsound : Sound ⟨q, [], []⟩) (hopen : ∀ t, p.target? id = some t → t.resolved = false)
    (hturned : Turned affected marked id p q q') :
    Lockstep affected
      (fun node => marked node ∨ affected id ∧ p.graph.made? node = none ∧ q.Builds id node)
      q q' := by
  have hmarked : ∀ node, marked node → ∃ entry, p.graph.made? node = some entry := by
    intro node hnode
    obtain ⟨_, _, -, -, -, hbuilds⟩ := h.built node hnode
    exact made_of_builds hbuilds
  refine ⟨hsound, fun other t ht hwaits => ?_, fun other t ht => ?_, fun node hnode => ?_,
    fun other t hother ht node hnode => ?_, hturned.alike⟩
  · rcases hturned.target_cases ht with ⟨-, hold⟩ | ⟨-, hresolved, -⟩
    · exact h.waiting other t hold hwaits
    · rw [hresolved] at hwaits
      cases hwaits
  · rcases hturned.target_cases ht with ⟨-, hold⟩ | ⟨-, -, -, houtputs⟩
    · exact h.outputs other t hold
    · exact houtputs
  · rcases hnode with hold | ⟨hid, -, hbuilds⟩
    · -- the target that has built the node is not the one whose turn it was
      obtain ⟨other, t, hother, ht, hresolved, hbuilds⟩ := h.built node hold
      have hne : other ≠ id := by
        rintro rfl
        rw [hopen t ht] at hresolved
        cases hresolved
      have hsame := hturned.others other hne
      exact ⟨other, t, hother, hsame.trans ht, hresolved,
        builds_mono hturned.buildDir hsame hturned.made hbuilds⟩
    · obtain ⟨t, ht, hresolved, -⟩ := hturned.target
      exact ⟨id, t, hid, ht, hresolved, hbuilds⟩
  · rcases hturned.target_cases ht with ⟨-, hold⟩ | ⟨rfl, -, hobjects, -⟩
    · refine (h.apart other t hother hold node hnode).imp_right ?_
      rintro ⟨hnot, entry, hentry⟩
      refine ⟨?_, entry, hturned.made.made node entry hentry⟩
      rintro (hnode | ⟨-, hnone, -⟩)
      · exact hnot hnode
      · rw [hentry] at hnone
        cases hnone
    · refine (hobjects node hnode).imp_right fun ⟨hnone, hsome⟩ => ⟨?_, hsome⟩
      rintro (hold | ⟨hid, -⟩)
      · obtain ⟨_, hentry⟩ := hmarked node hold
        rw [hnone] at hentry
        cases hentry
      · exact hother hid

theorem resolveTarget_lockstep (h : Lockstep affected marked p p') :
    Coupled (resolveTarget id) (resolveTarget id) p p'
      fun _ _ q q' => ∃ marked, Lockstep affected marked q q' := by
  intro u u' q q' hyields hyields'
  have hsound := Changes.sound (resolveTarget_changes h.sound hyields) h.sound
  have hsources : ∀ t, p.target? id = some t → ∀ node ∈ t.sources, node.index < p.graph.size :=
    fun t ht node hnode => h.sound.targets id t ht node (Target.mem_nodes.mpr (.inl hnode))
  rcases resolveTarget_turned h.alike h.sound.indexed hsources (h.waiting id) u u' q q' hyields
      hyields' with ⟨rfl, rfl⟩ | ⟨hopen, hturned⟩
  · exact ⟨marked, h⟩
  · exact ⟨_, h.turn hsound hopen hturned⟩

theorem resolveTargets_lockstep {order : List TargetId} (h : Lockstep affected marked p p') :
    Coupled (order.forM resolveTarget) (order.forM resolveTarget) p p'
      fun _ _ q q' => ∃ marked, Lockstep affected marked q q' := by
  refine coupled_forM ⟨marked, h⟩ fun _ _ _ _ hlock => ?_
  obtain ⟨_, hlock⟩ := hlock
  exact resolveTarget_lockstep hlock

end Resolve

end BuildPlan
