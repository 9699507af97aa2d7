import BuildPlan.Proofs.Resolve.InstalledCopies
import BuildPlan.Proofs.Resolve.Retry

/-!
# BuildPlan.Proofs.Resolve.StrictInputs

Where the inputs of build steps come from, and which of them a strict project vouches for.
What a step reads is made by another step, is a declared source of a target, or is named by
the plan of an install target. Validation looks at the declared sources only.
-/

namespace BuildPlan

namespace NodeGraph

variable {graph graph' : NodeGraph} {path : Path} {node : NodeId}

/-- Some step takes the node as a source. -/
def IsInput (graph : NodeGraph) (node : NodeId) : Prop :=
  ∃ id step, graph.step? id = some step ∧ node ∈ step.sources

theorem isInput_iff :
    graph.IsInput node ↔ ∃ id path step, graph.made? id = some (path, step) ∧
      node ∈ step.sources := by
  constructor
  · rintro ⟨id, step, hstep, hnode⟩
    obtain ⟨path, hkind⟩ := step?_eq_some_iff.mp hstep
    exact ⟨id, path, _, made?_eq_some_iff.mpr ⟨path, step, hkind, rfl⟩, hnode⟩
  · rintro ⟨id, path, step, hmade, hnode⟩
    obtain ⟨_, step', hkind, heq⟩ := made?_eq_some_iff.mp hmade
    cases heq
    exact ⟨id, step', step?_eq_some_iff.mpr ⟨_, hkind⟩, hnode⟩

/-- The node is a file. -/
def IsFile (graph : NodeGraph) (node : NodeId) (path : Path) : Prop :=
  ∃ made, graph.kind? node = some (.file path made)

theorem path?_of_isFile (h : graph.IsFile node path) :
    (graph.node? node).bind Node.path? = some path := by
  obtain ⟨made, hkind⟩ := h
  obtain ⟨found, hfound, hkind⟩ := Option.map_eq_some_iff.mp hkind
  rw [hfound, Option.bind_some, Node.path?, hkind]

/-- The node is a file with that path, and the index leads to it unless it is built. -/
def Names (graph : NodeGraph) (path : Path) (node : NodeId) : Prop :=
  (∃ known, path.same known = true ∧ graph.IsFile node known) ∧ graph.LeadsTo path node

theorem names_file (h : graph.Indexed) (path : Path) :
    (graph.file path).2.Names path (graph.file path).1 := by
  have hfind := find_file graph path
  obtain ⟨known, made, hsame, hkind⟩ := (h.file path).kind_of_find hfind
  exact ⟨⟨known, hsame, made, hkind⟩, .inl hfind⟩

/-- If the index leads to a node that is not built, no other one goes by the path. -/
theorem Names.unique {other : NodeId} (h : graph.Names path node) (hindexed : graph.Indexed)
    (hfind : graph.find path = some other) (hbuilt : graph.isBuilt other = false) :
    other = node := by
  obtain ⟨⟨known, hsame, made, hkind⟩, hleads⟩ := h
  rcases hleads with hfound | hbuilt'
  · exact Option.some.inj (hfind.symm.trans hfound)
  · obtain ⟨_, step, hkind'⟩ := isBuilt_iff.mp hbuilt'
    rw [hkind] at hkind'
    cases hkind'
    have hdiffer : path.same known = false := by
      refine hindexed.not_same (fun top htop => ?_) hkind
      rw [hfind] at htop
      cases htop
      exact hbuilt
    rw [hsame] at hdiffer
    cases hdiffer

end NodeGraph

namespace Resolve

open Build NodeGraph Project

variable {p q r s : Project} {graph graph' graph'' : NodeGraph} {path : Path} {step : BuildStep}
  {node source : NodeId} {id other : TargetId} {t : Target} {plan : InstallPlan} {u : Unit}
  {src : InstallSource} {env : EnvironmentId}

/-! ### What later graphs retain -/

/-- What was made, what was a file and what was found by a path is so in the later graph. -/
structure Retains (graph graph' : NodeGraph) : Prop where
  keeps : KeepsMade graph graph'
  files : ∀ node path, graph.IsFile node path → graph'.IsFile node path
  leads : ∀ path node, graph.LeadsTo path node → graph'.LeadsTo path node

theorem Retains.refl (graph : NodeGraph) : Retains graph graph :=
  ⟨.refl graph, fun _ _ => id, fun _ _ => id⟩

theorem Retains.trans (h : Retains graph graph') (h' : Retains graph' graph'') :
    Retains graph graph'' :=
  ⟨h.keeps.trans h'.keeps, fun node path hfile => h'.files node path (h.files node path hfile),
    fun path node hleads => h'.leads path node (h.leads path node hleads)⟩

theorem Retains.names (h : Retains graph graph') (hnames : graph.Names path node) :
    graph'.Names path node := by
  obtain ⟨⟨known, hsame, hfile⟩, hleads⟩ := hnames
  exact ⟨⟨known, hsame, h.files node known hfile⟩, h.leads path node hleads⟩

theorem Retains.isInput (h : Retains graph graph') (hinput : graph.IsInput node) :
    graph'.IsInput node := by
  obtain ⟨id, path, step, hmade, hnode⟩ := isInput_iff.mp hinput
  exact isInput_iff.mpr ⟨id, path, step, h.keeps.made id _ hmade, hnode⟩

/-- Operations that make nothing take nothing away. -/
theorem retains_of_keeps (hkeeps : graph.Keeps graph')
    (hfiles : ∀ node path, graph.IsFile node path → graph'.IsFile node path)
    (hfind : ∀ path node, graph.find path = some node → graph'.find path = some node) :
    Retains graph graph' := by
  have hmade := keepsMade_of_keeps hkeeps
  exact ⟨hmade, hfiles, fun path node => Or.imp (hfind path node) hmade.isBuilt⟩

theorem retains_file (graph : NodeGraph) (path : Path) : Retains graph (graph.file path).2 :=
  retains_of_keeps (keeps_file graph path)
    (fun _ _ hfile => hfile.imp fun _ hkind => kind?_file_of_some hkind path)
    fun _ _ hfind => find_file_of_some hfind path

theorem retains_group (graph : NodeGraph) (name : String) {change : Node → Node}
    (hchange : ∀ node, (change node).kind = node.kind) (id : NodeId) :
    Retains graph ((graph.group name).2.modify id change) := by
  refine retains_of_keeps ((keeps_group graph name).trans (keeps_modify _ id hchange))
    (fun node path hfile => hfile.imp fun made hkind => ?_) fun path node hfind => ?_
  · rw [kind?_modify _ _ _ hchange]
    exact kind?_group_eq_file_iff.mpr hkind
  · rw [find_modify, find_group, hfind]

theorem retains_setCommand {tokens : List Token} {made : NodeId}
    (hmade : graph.kind? made = some (.file path (some step))) :
    Retains graph (graph.setCommand made tokens) := by
  refine retains_of_keeps (keeps_setCommand hmade) (fun node known hfile => ?_) fun _ _ => id
  obtain ⟨other, hkind⟩ := hfile
  rw [IsFile, kind?_setCommand hmade]
  split
  · next heq =>
      rw [heq, hmade] at hkind
      cases hkind
      exact ⟨_, rfl⟩
  · exact ⟨other, hkind⟩

/-- The file that is given a step keeps its path. -/
theorem retains_product (hproduces : graph.Produces path step node graph')
    (hindexed : graph.Indexed) (hcommand : step.command = none) : Retains graph graph' := by
  obtain ⟨hproduct, -⟩ := hproduces.product hindexed
  have hkeeps := (madeSince_of_product (p := { name := "", graph }) hproduct hcommand).1
  refine ⟨hkeeps, fun other known hfile => ?_, fun path' other hleads => ?_⟩
  · obtain ⟨made, hkind⟩ := hfile
    -- a name that is kept is a path that is kept
    by_cases heq : other = node
    · obtain ⟨known', -, hkind'⟩ := hproduct.made
      have hname := hkeeps.names other (lt_size_of_kind? hkind)
      rw [heq] at hname hkind ⊢
      rw [name_file hkind', name_file hkind] at hname
      obtain rfl : known' = known := congrArg Path.mk hname
      exact ⟨_, hkind'⟩
    · exact ⟨made, (hproduct.others other heq).trans hkind⟩
  · by_cases hbuilt : graph.isBuilt other = true
    · exact .inr (hkeeps.isBuilt hbuilt)
    · exact .inl (hproduces.find (by simpa using hbuilt) (hleads.resolve_right hbuilt))

/-! ### Where inputs come from -/

/-- An input is made by a step, or the declarations name it: as a source of a target, or as a
source of an install plan, by its node or by its path. -/
inductive Supplied (p : Project) (graph : NodeGraph) (node : NodeId) : Prop
  | built (hbuilt : graph.isBuilt node = true)
  | declared {id : TargetId} {t : Target} (ht : p.target? id = some t) (hnode : node ∈ t.sources)
  | planned {id : TargetId} {plan : InstallPlan} (hplan : p.plan? id = some plan)
      (hnode : .node node ∈ plan.sources)
  | named {id : TargetId} {plan : InstallPlan} {path : Path} (hplan : p.plan? id = some plan)
      (hpath : .path path ∈ plan.sources) (hnames : graph.Names path node)

theorem Supplied.mono (h : Supplied p graph node) (hretains : Retains graph graph') :
    Supplied p graph' node := by
  cases h with
  | built hbuilt => exact .built (hretains.keeps.isBuilt hbuilt)
  | declared ht hnode => exact .declared ht hnode
  | planned hplan hnode => exact .planned hplan hnode
  | named hplan hpath hnames => exact .named hplan hpath (hretains.names hnames)

/-- The source stands for a node with the property. A target stands for its outputs. -/
def InstallSource.Covered (graph : NodeGraph) (holds : NodeId → Prop) : InstallSource → Prop
  | .target _ => True
  | .node node => holds node
  | .path path => ∃ node, holds node ∧ graph.Names path node

theorem InstallSource.Covered.mono {holds holds' : NodeId → Prop}
    (h : InstallSource.Covered graph holds src) (hretains : Retains graph graph')
    (hholds : ∀ node, holds node → holds' node) : InstallSource.Covered graph' holds' src := by
  cases src with
  | target => trivial
  | node node => exact hholds node h
  | path path =>
      obtain ⟨node, hnode, hnames⟩ := h
      exact ⟨node, hholds node hnode, hretains.names hnames⟩

/-- The plan has been carried out: its nodes and files have been read. -/
def Served (graph : NodeGraph) (plan : InstallPlan) : Prop :=
  ∀ src ∈ plan.sources, InstallSource.Covered graph graph.IsInput src

theorem Served.mono (h : Served graph plan) (hretains : Retains graph graph') :
    Served graph' plan :=
  fun src hsrc => (h src hsrc).mono hretains fun _ => hretains.isInput

/-- A project that the resolution of `p` has led to, as far as inputs go. -/
structure Drawn (p q : Project) : Prop where
  strict : q.strict = p.strict
  indexed : q.graph.Indexed
  steps : ∀ node path step, q.graph.made? node = some (path, step) →
    ∀ source ∈ step.sources, Supplied p q.graph source
  nodes : ∀ id t, q.target? id = some t → ∀ node ∈ t.nodes, Supplied p q.graph node
  plans : ∀ id plan, q.plan? id = some plan → p.plan? id = some plan

theorem Drawn.start (hfresh : p.Fresh) : Drawn p p := by
  refine ⟨rfl, hfresh.indexed, fun node path step hmade => ?_, fun id t ht node hnode => ?_,
    fun _ _ hplan => hplan⟩
  · obtain ⟨_, _, hkind, -⟩ := made?_eq_some_iff.mp hmade
    exact absurd hkind hfresh.not_made
  · obtain ⟨-, hobjects, houtputs, -, -⟩ := hfresh.targets id t ht
    rw [Target.mem_nodes, hobjects, houtputs] at hnode
    rcases hnode with hnode | ⟨plan, hplan, hnode⟩ | hnode | hnode
    · exact .declared ht hnode
    · obtain ⟨src, hsrc, heq⟩ := List.mem_filterMap.mp hnode
      split at heq
      · cases heq
        exact .planned (by rw [Project.plan?, ht, Option.bind_some, hplan]) hsrc
      · cases heq
      · cases heq
    · cases hnode
    · cases hnode

/-- A part of resolution leads from `q` to `r`, and the plans that it takes are carried out. -/
structure Supplies (p q r : Project) : Prop where
  drawn : Drawn p r
  retains : Retains q.graph r.graph
  plans : ∀ id plan, q.plan? id = some plan →
    r.plan? id = some plan ∨ Served r.graph plan

theorem Drawn.supplies (h : Drawn p q) : Supplies p q q := ⟨h, .refl _, fun _ _ => .inl⟩

theorem Supplies.trans (h : Supplies p q r) (h' : Supplies p r s) : Supplies p q s := by
  refine ⟨h'.drawn, h.retains.trans h'.retains, fun id plan hplan => ?_⟩
  rcases h.plans id plan hplan with hwaits | hserved
  · exact h'.plans id plan hwaits
  · exact .inr (hserved.mono h'.retains)

/-- A loop of parts of resolution. -/
theorem supplies_forM {α : Type} {f : α → Build PUnit} {as : List α}
    (hturn : ∀ a q r, Drawn p q → Yields (f a) q ⟨⟩ r → Supplies p q r) (h : Drawn p q)
    (hrun : Yields (as.forM f) q u r) : Supplies p q r :=
  Yields.forM (R := fun q r => Drawn p q → Supplies p q r) (fun _ => Drawn.supplies)
    (fun _ _ _ hfirst hrest h => (hfirst h).trans (hrest (hfirst h).drawn))
    (fun a _ q r hyields h => hturn a q r h hyields) hrun h

/-! ### Single changes -/

theorem Drawn.withGraph (h : Drawn p q) (hindexed : graph.Indexed)
    (hretains : Retains q.graph graph)
    (hsteps : ∀ node path step, graph.made? node = some (path, step) →
      q.graph.made? node = some (path, step) ∨ ∀ source ∈ step.sources, Supplied p graph source) :
    Supplies p q { q with graph } := by
  refine ⟨⟨h.strict, hindexed, fun node path step hmade source hsource => ?_,
    fun id t ht node hnode => ?_, h.plans⟩, hretains, fun _ _ => .inl⟩
  · rcases hsteps node path step hmade with hold | hnew
    · exact (h.steps node path step hold source hsource).mono hretains
    · exact hnew source hsource
  · exact (h.nodes id t ht node hnode).mono hretains

/-- A step that takes its sources from what is supplied. -/
theorem Drawn.product (h : Drawn p q) (hproduces : q.graph.Produces path step node graph)
    (hcommand : step.command = none)
    (hsources : ∀ source ∈ step.sources, Supplied p q.graph source) :
    Supplies p q { q with graph } ∧ graph.isBuilt node = true ∧
      ∀ source ∈ step.sources, graph.IsInput source := by
  obtain ⟨hproduct, hindexed⟩ := hproduces.product h.indexed
  have hretains := retains_product hproduces h.indexed hcommand
  obtain ⟨known, -, -, hmades⟩ := hproduct.made?_eq hcommand
  have hmade : graph.made? node = some (known, step) := (hmades node).trans (if_pos rfl)
  refine ⟨h.withGraph hindexed hretains fun other path' step' hother => ?_, ?_,
    fun source hsource => isInput_iff.mpr ⟨node, known, step, hmade, hsource⟩⟩
  · rw [hmades] at hother
    split at hother
    · cases hother
      exact .inr fun source hsource => (hsources source hsource).mono hretains
    · exact .inl hother
  · obtain ⟨_, step', hkind, -⟩ := made?_eq_some_iff.mp hmade
    exact isBuilt_iff.mpr ⟨_, step', hkind⟩

theorem Drawn.keeps (h : Drawn p q) (hkeeps : q.graph.Keeps graph) (hindexed : graph.Indexed)
    (hretains : Retains q.graph graph) : Supplies p q { q with graph } :=
  h.withGraph hindexed hretains fun node _ _ hmade => .inl (hkeeps.made node ▸ hmade)

theorem Drawn.modifyTarget {f : Target → Target} (h : Drawn p q)
    (hnodes : ∀ t, q.target? id = some t → ∀ node ∈ (f t).nodes,
      node ∈ t.nodes ∨ Supplied p q.graph node)
    (hpending : ∀ t, (f t).pending = none ∨ (f t).pending = t.pending) :
    Drawn p (q.modifyTarget id f) := by
  refine ⟨h.strict, h.indexed, h.steps, fun other t' ht' node hnode => ?_,
    fun other plan hplan => h.plans other plan (plan?_modifyTarget hpending hplan)⟩
  obtain ⟨t, ht, rfl⟩ := exists_target_of_modifyTarget ht'
  split at hnode
  · next heq =>
      exact (hnodes t (heq ▸ ht) node hnode).elim (h.nodes other t ht node) fun hnew => hnew
  · exact h.nodes other t ht node hnode

theorem Drawn.note {f : Target → Target} (h : Drawn p q)
    (hnodes : ∀ t, q.target? id = some t → ∀ node ∈ (f t).nodes,
      node ∈ t.nodes ∨ Supplied p q.graph node)
    (hpending : ∀ t, (f t).pending = t.pending) : Supplies p q (q.modifyTarget id f) := by
  refine ⟨h.modifyTarget hnodes fun t => .inr (hpending t), .refl _, fun other plan hplan => ?_⟩
  obtain ⟨t, ht, hplan⟩ := Option.bind_eq_some_iff.mp hplan
  refine .inl ?_
  rw [Project.plan?, target?_modifyTarget]
  split
  · next heq => rw [← heq, ht, Option.map_some, Option.bind_some, hpending, hplan]
  · rw [ht, Option.bind_some, hplan]

theorem Drawn.objects (h : Drawn p q) (ht : q.target? id = some t) (hnode : node ∈ t.objects) :
    Supplied p q.graph node :=
  h.nodes id t ht node (Target.mem_nodes.mpr (.inr (.inr (.inl hnode))))

theorem Drawn.outputs (h : Drawn p q) (ht : q.target? id = some t) (hnode : node ∈ t.outputs) :
    Supplied p q.graph node :=
  h.nodes id t ht node (Target.mem_nodes.mpr (.inr (.inr (.inr hnode))))

/-- A target is given objects and outputs. -/
theorem Drawn.give {f : Target → Target} (h : Drawn p q)
    (hsources : ∀ t, (f t).sources = t.sources) (hpending : ∀ t, (f t).pending = t.pending)
    (hobjects : ∀ t, q.target? id = some t → ∀ node ∈ (f t).objects, Supplied p q.graph node)
    (houtputs : ∀ t, q.target? id = some t → ∀ node ∈ (f t).outputs, Supplied p q.graph node) :
    Supplies p q (q.modifyTarget id f) := by
  refine h.note (fun t ht node hnode => ?_) hpending
  rw [Target.mem_nodes, hsources, hpending] at hnode
  rw [Target.mem_nodes]
  rcases hnode with hsource | hplanned | hobject | houtput
  · exact .inl (.inl hsource)
  · exact .inl (.inr (.inl hplanned))
  · exact .inr (hobjects t ht node hobject)
  · exact .inr (houtputs t ht node houtput)

/-! ### Targets that compile -/

theorem Drawn.effectiveRequirements (h : Drawn p q) (id : TargetId) (scope : RequirementScope) :
    Supplies p q ((Project.effectiveRequirements id scope).run q).2 := by
  rcases effectiveRequirements_run id scope q with heq | ⟨reqs, heq⟩
  · rw [heq]
    exact h.supplies
  · rw [heq]
    exact h.note (fun _ _ _ => .inl) fun _ => rfl

/-- The objects of a target and those that it has cached. -/
def Compilation.Supplied (p : Project) (graph : NodeGraph) (c : Compilation) : Prop :=
  (∀ node ∈ c.objects, Resolve.Supplied p graph node) ∧
    ∀ entry ∈ c.compiled, Resolve.Supplied p graph entry.2

theorem Compilation.Supplied.mono {c : Compilation} (h : c.Supplied p graph)
    (hretains : Retains graph graph') : c.Supplied p graph' :=
  ⟨fun node hnode => (h.1 node hnode).mono hretains, fun entry hentry =>
    (h.2 entry hentry).mono hretains⟩

theorem Compilation.Supplied.addObject {c : Compilation} (h : c.Supplied p graph)
    (hnode : Resolve.Supplied p graph node) : (c.addObject node).Supplied p graph := by
  refine ⟨fun other hother => ?_, h.2⟩
  rcases Node.mem_addNew.mp hother with hold | hnew
  · exact h.1 other hold
  · rwa [List.mem_singleton.mp hnew]

theorem makeObject_supplies {tc : Toolchain} {handler : SourceHandler}
    {reqs : EffectiveRequirements} (h : Drawn p q) (hsource : Supplied p q.graph source)
    (hrun : Yields (makeObject id env tc handler reqs source) q node r) :
    Supplies p q r ∧ r.graph.isBuilt node = true := by
  obtain ⟨rfl, graph, hset, rfl⟩ := makeObject_inv hrun
  have hproduces : q.graph.Produces _ _ _ graph := ⟨rfl, _, Node.kind_depends _ _, hset⟩
  obtain ⟨hsupplies, hbuilt, -⟩ := h.product hproduces rfl fun other hother => by
    rwa [List.mem_singleton.mp hother]
  exact ⟨hsupplies, hbuilt⟩

theorem compileSource_supplies {reqs : EffectiveRequirements} {c c' : Compilation}
    (h : Drawn p q) (hsource : Supplied p q.graph source) (hc : c.Supplied p q.graph)
    (hrun : Yields (compileSource id env reqs c source) q c' r) :
    Supplies p q r ∧ c'.Supplied p r.graph := by
  simp only [compileSource, yields_get_bind] at hrun
  split at hrun
  · obtain ⟨rfl, rfl⟩ := yields_pure.mp hrun
    exact ⟨h.supplies, hc⟩
  split at hrun
  · -- a linker flag
    obtain ⟨rfl, rfl⟩ := yields_pure.mp hrun
    exact ⟨h.supplies, hc⟩
  split at hrun
  · -- a linker input, or a source to pass over
    obtain ⟨rfl, rfl⟩ := yields_pure.mp hrun
    refine ⟨h.supplies, ?_⟩
    split
    · exact hc.addObject hsource
    · exact hc
  split at hrun
  · next hfound =>
      obtain ⟨rfl, rfl⟩ := yields_pure.mp hrun
      have hcached := hc.2 _ (List.mem_of_find?_eq_some hfound)
      exact ⟨h.supplies, Compilation.Supplied.addObject hc hcached⟩
  · obtain ⟨object, s, hmake, hrun⟩ := yields_bind.mp hrun
    obtain ⟨rfl, rfl⟩ := yields_pure.mp hrun
    obtain ⟨hsupplies, hbuilt⟩ := makeObject_supplies h hsource hmake
    have hc' := hc.mono hsupplies.retains
    refine ⟨hsupplies, (Compilation.Supplied.addObject hc' (.built hbuilt)).1,
      fun entry hentry => ?_⟩
    rcases List.mem_cons.mp hentry with rfl | hentry
    · exact .built hbuilt
    · exact hc'.2 entry hentry

theorem compileSources_supplies {reqs : EffectiveRequirements} {sources : List NodeId}
    {c c' : Compilation} (h : Drawn p q)
    (hsources : ∀ source ∈ sources, Supplied p q.graph source) (hc : c.Supplied p q.graph)
    (hrun : Yields (sources.foldlM (compileSource id env reqs) c) q c' r) :
    Supplies p q r ∧ c'.Supplied p r.graph := by
  induction sources generalizing q c with
  | nil =>
      obtain ⟨rfl, rfl⟩ := yields_pure.mp hrun
      exact ⟨h.supplies, hc⟩
  | cons source rest ih =>
      rw [List.foldlM_cons, yields_bind] at hrun
      obtain ⟨c₁, s, hfirst, hrest⟩ := hrun
      obtain ⟨hsupplies, hc₁⟩ :=
        compileSource_supplies h (hsources source List.mem_cons_self) hc hfirst
      obtain ⟨hsupplies', hc'⟩ := ih hsupplies.drawn (fun other hother =>
        (hsources other (List.mem_cons_of_mem _ hother)).mono hsupplies.retains) hc₁ hrest
      exact ⟨hsupplies.trans hsupplies', hc'⟩

/-- What is linked or archived is an object or the output of a target. -/
theorem mem_sources_outputStep {reqs : EffectiveRequirements}
    (h : source ∈ (outputStep q id t env reqs).sources) :
    source ∈ t.objects ∨ ∃ dep, source ∈ q.outputsOf dep := by
  have hlinked : ∀ deps : List TargetId, source ∈ t.objects ++ deps.flatMap q.outputsOf →
      source ∈ t.objects ∨ ∃ dep, source ∈ q.outputsOf dep := fun deps hmem =>
    (List.mem_append.mp hmem).imp_right fun hmem =>
      (List.mem_flatMap.mp hmem).imp fun dep hdep => hdep.2
  unfold outputStep at h
  split at h
  · exact .inl h
  · exact hlinked _ h

theorem Drawn.outputsOf (h : Drawn p q) {dep : TargetId} (hnode : node ∈ q.outputsOf dep) :
    Supplied p q.graph node := by
  obtain ⟨t, ht, hnode⟩ := mem_outputsOf.mp hnode
  exact h.outputs ht hnode

theorem produce_supplies (h : Drawn p q) (hrun : Yields (produce id env) q u r) :
    Supplies p q r := by
  rcases produce_cases q id with hnothing | ⟨t, ht, htype | ⟨hcompiles, hmakes, hobjects⟩⟩
  · rw [Yields, run_produce_nothing hnothing] at hrun
    cases hrun
    exact h.supplies
  · rw [Yields, run_produce_object ht htype] at hrun
    cases hrun
    exact h.give (fun _ => rfl) (fun _ => rfl) (fun _ ht _ hnode => h.objects ht hnode)
      fun _ ht _ hnode => h.objects ht hnode
  · rw [Yields, run_produce ht hcompiles hmakes hobjects] at hrun
    have hcollected := h.effectiveRequirements id .link
    obtain ⟨graph, output, hproduces, rfl⟩ := makeOutput_inv hrun
    obtain ⟨hmade, hbuilt, -⟩ := hcollected.drawn.product hproduces outputStep_command
      fun source hsource => by
        rcases mem_sources_outputStep hsource with hobject | ⟨dep, hlinked⟩
        · exact (h.objects ht hobject).mono hcollected.retains
        · exact hcollected.drawn.outputsOf hlinked
    exact (hcollected.trans hmade).trans <|
      hmade.drawn.give (fun _ => rfl) (fun _ => rfl)
        (fun _ ht _ hnode => hmade.drawn.objects ht hnode)
        fun _ _ => List.forall_mem_singleton.mpr (.built hbuilt)

theorem Drawn.noteCompilation {c : Compilation} (h : Drawn p q) (id : TargetId)
    (hobjects : ∀ node ∈ c.objects, Supplied p q.graph node) :
    Supplies p q (q.modifyTarget id (Resolve.noteCompilation c)) :=
  h.give (fun _ => rfl) (fun _ => rfl) (fun _ _ => hobjects)
    fun _ ht _ hnode => h.outputs ht hnode

theorem compileTarget_supplies {sources : List NodeId} (h : Drawn p q)
    (hsources : ∀ source ∈ sources, Supplied p q.graph source)
    (hrun : Yields (compileTarget id env sources) q u r) : Supplies p q r := by
  obtain ⟨c, graph, made, hcompile, hproduce, rfl⟩ := compileTarget_inv hrun
  have hcollected := h.effectiveRequirements id .compile
  obtain ⟨hcompiled, hc⟩ := compileSources_supplies hcollected.drawn
    (fun source hsource => (hsources source hsource).mono hcollected.retains) ⟨by simp, by simp⟩
    hcompile
  have hnoted := hcompiled.drawn.noteCompilation id hc.1
  have hproduced := produce_supplies hnoted.drawn hproduce
  exact (((hcollected.trans hcompiled).trans hnoted).trans hproduced).trans
    (hproduced.drawn.note (fun _ _ _ => .inl) fun _ => rfl)

theorem resolveTarget_supplies (h : Drawn p q) (hrun : Yields (resolveTarget id) q u r) :
    Supplies p q r := by
  rcases settled_or_open q id with hsettled | ⟨t, ht, hopen, htype | ⟨env, htype, henv⟩⟩
  · rw [Yields, hsettled.yields] at hrun
    cases hrun
    exact h.supplies
  · rw [Yields, run_resolveTarget_interface ht hopen htype] at hrun
    rw [yields_modify.mp hrun]
    exact h.note (fun _ _ _ => .inl) fun _ => rfl
  · rw [Yields, run_resolveTarget_compile ht hopen htype henv] at hrun
    exact compileTarget_supplies h (fun source hsource =>
      h.nodes id t ht source (Target.mem_nodes.mpr (.inl hsource))) hrun

theorem expandCommands_supplies {start : Nat} (h : Drawn p q)
    (hrun : Yields (expandCommands start) q u r) : Supplies p q r := by
  rw [expandCommands, yields_get_bind] at hrun
  refine supplies_forM (fun node q r h hexpand => ?_) h hrun
  rcases expandNode_inv hexpand with ⟨rfl, -⟩ | ⟨step, tokens, hstep, -, -, rfl⟩
  · exact h.supplies
  · obtain ⟨path, hkind⟩ := step?_eq_some_iff.mp hstep
    exact h.keeps (keeps_setCommand hkind) (h.indexed.setCommand hkind) (retains_setCommand hkind)

/-! ### Install targets -/

theorem copyNode_supplies {copyEnv : Option EnvironmentId} {copy : NodeId} (h : Drawn p q)
    (hsource : Supplied p q.graph source)
    (hrun : Yields (copyNode copyEnv source path) q copy r) :
    Supplies p q r ∧ r.graph.isBuilt copy = true ∧ r.graph.IsInput source := by
  simp only [copyNode, yields_get_bind, yields_set_bind] at hrun
  obtain ⟨_, _, hstep, hrun⟩ := yields_bind.mp hrun
  obtain ⟨rfl, rfl⟩ := yields_pure.mp hrun
  obtain ⟨graph, hproduces, rfl⟩ :=
    produces_of_setProductStep (Node.kind_depends [source] []) hstep
  obtain ⟨hsupplies, hbuilt, hinputs⟩ := h.product hproduces rfl fun other hother => by
    rwa [List.mem_singleton.mp hother]
  exact ⟨hsupplies, hbuilt, hinputs source (List.mem_singleton_self _)⟩

/-- Everything that is copied has become an input. -/
theorem copyInto_supplies {copyEnv : Option EnvironmentId} {dir : Path}
    {sources outputs : List NodeId} (h : Drawn p q)
    (hsources : ∀ source ∈ sources, Supplied p q.graph source)
    (hrun : Yields (sources.mapM fun source => do
      copyNode copyEnv source (dir.join (copiedName (← get).graph source))) q outputs r) :
    Supplies p q r ∧ (∀ output ∈ outputs, r.graph.isBuilt output = true) ∧
      ∀ source ∈ sources, r.graph.IsInput source := by
  induction sources generalizing q outputs with
  | nil =>
      rw [List.mapM_nil] at hrun
      obtain ⟨rfl, rfl⟩ := yields_pure.mp hrun
      exact ⟨h.supplies, by simp, by simp⟩
  | cons source rest ih =>
      rw [List.mapM_cons, yields_bind] at hrun
      obtain ⟨copy, s, hfirst, hrun⟩ := hrun
      obtain ⟨copies, s', hrest, hrun⟩ := yields_bind.mp hrun
      obtain ⟨rfl, rfl⟩ := yields_pure.mp hrun
      rw [yields_get_bind] at hfirst
      obtain ⟨hsupplies, hbuilt, hinput⟩ :=
        copyNode_supplies h (hsources source List.mem_cons_self) hfirst
      obtain ⟨hsupplies', hbuilts, hinputs⟩ := ih hsupplies.drawn (fun other hother =>
        (hsources other (List.mem_cons_of_mem _ hother)).mono hsupplies.retains) hrest
      exact ⟨hsupplies.trans hsupplies',
        List.forall_mem_cons.mpr ⟨hsupplies'.retains.keeps.isBuilt hbuilt, hbuilts⟩,
        List.forall_mem_cons.mpr ⟨hsupplies'.retains.isInput hinput, hinputs⟩⟩

theorem copyAll_supplies {name : String} {copyEnv : Option EnvironmentId}
    {destination : Destination} {sources outputs : List NodeId} (h : Drawn p q)
    (hsources : ∀ source ∈ sources, Supplied p q.graph source)
    (hrun : Yields (copyAll name copyEnv sources destination) q outputs r) :
    Supplies p q r ∧ (∀ output ∈ outputs, r.graph.isBuilt output = true) ∧
      ∀ source ∈ sources, r.graph.IsInput source := by
  unfold copyAll at hrun
  split at hrun
  · exact copyInto_supplies h hsources hrun
  split at hrun
  · obtain ⟨rfl, rfl⟩ := yields_pure.mp hrun
    exact ⟨h.supplies, by simp, by simp⟩
  · obtain ⟨copy, s, hcopy, hrun⟩ := yields_bind.mp hrun
    obtain ⟨rfl, rfl⟩ := yields_pure.mp hrun
    obtain ⟨hsupplies, hbuilt, hinput⟩ :=
      copyNode_supplies h (hsources _ List.mem_cons_self) hcopy
    exact ⟨hsupplies, by simpa using hbuilt, by simpa using hinput⟩
  · exact absurd hrun not_yields_throw

/-- A plan is taken from its target. -/
theorem Drawn.take (h : Drawn p q) (id : TargetId) :
    Drawn p (q.modifyTarget id fun t => { t with pending := none }) := by
  refine h.modifyTarget (fun t _ node hnode => .inl ?_) fun _ => .inl rfl
  rw [Target.mem_nodes] at hnode ⊢
  refine hnode.imp_right (Or.imp_left ?_)
  rintro ⟨_, hnone, -⟩
  cases hnone

/-- An operation that installs a target carries out the plans that it takes. -/
def InstallSupplies (p : Project) (install : TargetId → Build Unit) : Prop :=
  ∀ id q r u, Drawn p q → Yields (install id) q u r → Supplies p q r

/-- Nodes that are added to those found before. -/
theorem supplied_addNew {found new : List NodeId} (hretains : Retains graph graph')
    (hfound : ∀ node ∈ found, Supplied p graph node)
    (hnew : ∀ node ∈ new, Supplied p graph' node) :
    ∀ node ∈ Node.addNew found new, Supplied p graph' node := by
  intro node hnode
  rcases Node.mem_addNew.mp hnode with hold | hmem
  · exact (hfound node hold).mono hretains
  · exact hnew node hmem

/-- The nodes of a plan's source are found, and those found before are kept. -/
theorem findSource_supplies {install : TargetId → Build Unit} {found nodes : List NodeId}
    (hinstall : InstallSupplies p install) (h : Drawn p q) (hplan : p.plan? id = some plan)
    (hsrc : src ∈ plan.sources) (hfound : ∀ node ∈ found, Supplied p q.graph node)
    (hrun : Yields (findSource install found src) q nodes r) :
    Supplies p q r ∧ (∀ node ∈ nodes, Supplied p r.graph node) ∧ (∀ node ∈ found, node ∈ nodes) ∧
      InstallSource.Covered r.graph (· ∈ nodes) src := by
  cases src with
  | target dep =>
      obtain ⟨_, s, hdep, hrun⟩ := yields_bind.mp hrun
      rw [yields_get_bind] at hrun
      obtain ⟨rfl, rfl⟩ := yields_pure.mp hrun
      have hsupplies := hinstall dep q r _ h hdep
      exact ⟨hsupplies,
        supplied_addNew hsupplies.retains hfound fun _ => hsupplies.drawn.outputsOf,
        fun node hnode => Node.mem_addNew.mpr (.inl hnode), trivial⟩
  | node node =>
      obtain ⟨rfl, rfl⟩ := yields_pure.mp hrun
      refine ⟨h.supplies, supplied_addNew (.refl _) hfound ?_,
        fun node hnode => Node.mem_addNew.mpr (.inl hnode),
        Node.mem_addNew.mpr (.inr (List.mem_singleton_self _))⟩
      exact List.forall_mem_singleton.mpr (.planned hplan hsrc)
  | path path =>
      rw [findSource, yields_modifyGet_bind] at hrun
      obtain ⟨rfl, rfl⟩ := yields_pure.mp hrun
      have hretains := retains_file q.graph path
      have hnames := names_file h.indexed path
      refine ⟨h.keeps (keeps_file q.graph path) (h.indexed.file path) hretains,
        supplied_addNew hretains hfound ?_, fun node hnode => Node.mem_addNew.mpr (.inl hnode),
        (q.file path).1, Node.mem_addNew.mpr (.inr (List.mem_singleton_self _)), hnames⟩
      exact List.forall_mem_singleton.mpr (.named hplan hsrc hnames)

theorem findSources_supplies {install : TargetId → Build Unit} {sources : List InstallSource}
    {found nodes : List NodeId} (hinstall : InstallSupplies p install) (h : Drawn p q)
    (hplan : p.plan? id = some plan) (hsources : ∀ src ∈ sources, src ∈ plan.sources)
    (hfound : ∀ node ∈ found, Supplied p q.graph node)
    (hrun : Yields (sources.foldlM (findSource install) found) q nodes r) :
    Supplies p q r ∧ (∀ node ∈ nodes, Supplied p r.graph node) ∧ (∀ node ∈ found, node ∈ nodes) ∧
      ∀ src ∈ sources, InstallSource.Covered r.graph (· ∈ nodes) src := by
  induction sources generalizing q found with
  | nil =>
      obtain ⟨rfl, rfl⟩ := yields_pure.mp hrun
      exact ⟨h.supplies, hfound, fun _ hnode => hnode, by simp⟩
  | cons src rest ih =>
      rw [List.foldlM_cons, yields_bind] at hrun
      obtain ⟨found', s, hfirst, hrest⟩ := hrun
      obtain ⟨hsupplies, hfound', hkept, hcovered⟩ := findSource_supplies hinstall h hplan
        (hsources src List.mem_cons_self) hfound hfirst
      obtain ⟨hsupplies', hnodes, hkept', hcovereds⟩ := ih hsupplies.drawn
        (fun other hother => hsources other (List.mem_cons_of_mem _ hother)) hfound' hrest
      exact ⟨hsupplies.trans hsupplies', hnodes, fun node hnode => hkept' node (hkept node hnode),
        List.forall_mem_cons.mpr ⟨hcovered.mono hsupplies'.retains hkept', hcovereds⟩⟩

/-- A plan that is taken is carried out: what its sources stand for is copied. -/
theorem installWithin_supplies (p : Project) (depth : Nat) :
    InstallSupplies p (installWithin depth) := by
  induction depth with
  | zero =>
      intro id q r u h hrun
      obtain ⟨-, rfl⟩ := yields_pure.mp hrun
      exact h.supplies
  | succ depth ih =>
      intro id q r u h hrun
      rw [installWithin, yields_get_bind] at hrun
      split at hrun
      · obtain ⟨-, rfl⟩ := yields_pure.mp hrun
        exact h.supplies
      next t ht =>
      split at hrun
      · obtain ⟨-, rfl⟩ := yields_pure.mp hrun
        exact h.supplies
      next plan hplan =>
      rw [yields_set_bind] at hrun
      obtain ⟨nodes, s, hfind, hrun⟩ := yields_bind.mp hrun
      obtain ⟨outputs, s', hcopy, hrun⟩ := yields_bind.mp hrun
      rw [yields_modify.mp hrun]
      have hwaits : q.plan? id = some plan := by
        rw [Project.plan?, ht, Option.bind_some, hplan]
      obtain ⟨hfound, hnodes, -, hcovered⟩ := findSources_supplies ih (h.take id)
        (h.plans id plan hwaits) (fun _ hsrc => hsrc) (by simp) hfind
      obtain ⟨hcopied, houtputs, hinputs⟩ := copyAll_supplies hfound.drawn hnodes hcopy
      have hfinished : Supplies p s'
          (s'.modifyTarget id fun t => { t with outputs, resolved := true }) :=
        hcopied.drawn.give (fun _ => rfl) (fun _ => rfl)
          (fun _ ht _ hnode => hcopied.drawn.objects ht hnode)
          fun _ _ node hnode => .built (houtputs node hnode)
      have hcarried := (hfound.trans hcopied).trans hfinished
      refine ⟨hcarried.drawn, hcarried.retains, fun other plan' hother => ?_⟩
      by_cases heq : other = id
      · -- the plan that was taken
        rw [heq, hwaits] at hother
        cases hother
        refine .inr fun src hsrc => (hcovered src hsrc).mono hcopied.retains ?_
        exact fun node hnode => hinputs node hnode
      · refine hcarried.plans other plan' ?_
        rw [Project.plan?, target?_modifyTarget_of_ne heq]
        exact hother

theorem install_supplies (h : Drawn p q) (hrun : Yields (install id) q u r) : Supplies p q r := by
  rw [install, yields_get_bind] at hrun
  exact installWithin_supplies p _ id q r u h hrun

theorem makeGroup_supplies {name : String} {targets : List TargetId} (h : Drawn p q)
    (hrun : Yields (makeGroup name targets) q u r) : Supplies p q r := by
  rw [makeGroup, yields_get_bind] at hrun
  rw [yields_set.mp hrun]
  have hchange : ∀ node : Node, (node.depends (targets.flatMap q.outputsOf)).kind = node.kind :=
    fun _ => rfl
  exact h.keeps ((keeps_group _ name).trans (keeps_modify _ _ hchange))
    ((h.indexed.group name).modify _ hchange) (retains_group _ name hchange _)

/-- A run of resolution takes its inputs from what is supplied and carries out every plan. -/
theorem Runs.supplies {order : List TargetId} {compiled expanded copied installed : Project}
    (hfresh : p.Fresh) (h : Runs p order compiled expanded copied installed q) :
    Drawn p q ∧ Retains p.graph q.graph ∧
      ∀ id plan, p.plan? id = some plan → Served q.graph plan := by
  have hcompiled := supplies_forM (fun _ _ _ => resolveTarget_supplies) (.start hfresh) h.compile
  have hexpanded := hcompiled.trans (expandCommands_supplies hcompiled.drawn h.expand)
  have hcopied := hexpanded.trans
    (supplies_forM (fun _ _ _ => install_supplies) hexpanded.drawn h.install)
  have hgrouped := hcopied.trans
    (supplies_forM (fun _ _ _ => makeGroup_supplies) hcopied.drawn h.group)
  have hfinished := hgrouped.trans (expandCommands_supplies hgrouped.drawn h.finish)
  refine ⟨hfinished.drawn, hfinished.retains, fun id plan hplan => ?_⟩
  rcases hcopied.plans id plan hplan with hwaits | hserved
  · -- every target with a plan has been installed
    obtain ⟨t, ht, -⟩ := Option.bind_eq_some_iff.mp hplan
    rw [installs_plan? h.install id (mem_buildOrder h.ordered ht)] at hwaits
    cases hwaits
  · have hrest := (supplies_forM (fun _ _ _ => makeGroup_supplies) hcopied.drawn h.group).retains
    exact hserved.mono (hrest.trans (expandCommands_supplies hgrouped.drawn h.finish).retains)

/-! ### What validation looks at -/

/-- Declarations make no nodes but files. -/
theorem isFile_of_declared (h : p.Declared) (hnode : node.index < p.graph.size) :
    ∃ path, p.graph.IsFile node path := by
  induction h with
  | new => cases hnode
  | environment _ _ ih | setEnvironment _ _ _ ih | edit _ _ _ ih | default _ _ ih
  | group _ _ _ ih => exact ih hnode
  | target _ _ hadd ih =>
      rw [graph_of_addTarget hadd] at hnode ⊢
      exact ih hnode
  | link _ hlink ih =>
      rw [graph_of_link hlink] at hnode ⊢
      exact ih hnode
  | @depends q _ id change hchange ih =>
      simp only [IsFile, NodeGraph.kind?_modify _ _ _ hchange]
      exact ih (NodeGraph.size_modify q.graph id change ▸ hnode)
  | @file q _ path ih =>
      change node.index < (q.graph.file path).2.size at hnode
      change ∃ known, (q.graph.file path).2.IsFile node known
      cases hfind : q.graph.find path with
      | some top =>
          simp only [NodeGraph.file, hfind] at hnode ⊢
          exact ih hnode
      | none =>
          simp only [NodeGraph.file, hfind, size_addFile] at hnode ⊢
          by_cases hnew : node = ⟨q.graph.size⟩
          · exact ⟨path, none, (kind?_addFile q.graph path node).trans (if_pos hnew)⟩
          · have hold : node.index ≠ q.graph.size := fun heq => hnew (congrArg NodeId.mk heq)
            obtain ⟨known, made, hkind⟩ := ih (by omega)
            exact ⟨known, made, kind?_addFile_of_some hkind path⟩

/-- The node is a file that exists on disk. -/
def Present (q : Project) (exist : Path → Bool) (node : NodeId) : Prop :=
  ∃ path, q.graph.IsFile node path ∧ exist (q.onDisk path) = true

/-- A strict project that has been resolved has no problems. -/
theorem validate_of_resolved {exist : Path → Bool} (h : Yields (Project.resolve exist) p u q)
    (hstrict : q.strict = true) : q.validate exist = [] := by
  obtain ⟨_, r, -, henforce⟩ := yields_bind.mp h
  rw [Project.enforce, yields_get_bind] at henforce
  split at henforce
  · next hnone =>
      obtain ⟨-, rfl⟩ := yields_pure.mp henforce
      exact hnone
  · split at henforce
    · exact absurd henforce not_yields_throw
    · next hlenient =>
        obtain ⟨-, rfl⟩ := yields_pure.mp henforce
        exact absurd hstrict hlenient

/-- Validation finds the sources of targets that are missing. -/
theorem present_of_validate {exist : Path → Bool} (h : q.validate exist = [])
    (ht : q.target? id = some t) (hnode : node ∈ t.sources)
    (hbuilt : q.graph.isBuilt node = false) (hfile : q.graph.IsFile node path) :
    Present q exist node := by
  have hmissing : q.missingSources exist = [] :=
    List.map_eq_nil_iff.mp (List.append_eq_nil_iff.mp h).2
  have hpath : q.unbuiltPath? node = some path := by
    rw [unbuiltPath?, hbuilt]
    exact path?_of_isFile hfile
  have hsource : node ∈ q.sourceNodes := by
    rw [sourceNodes, List.mem_eraseDups, List.mem_flatMap]
    exact ⟨t, Array.mem_toList_iff.mpr (Array.mem_of_getElem? ht), hnode⟩
  have hexist := List.filter_eq_nil_iff.mp hmissing path
    (List.mem_filterMap.mpr ⟨node, hsource, hpath⟩)
  exact ⟨path, hfile, by simpa using hexist⟩

/-- Every file that an install plan names, and that no step makes, exists on disk. -/
structure PlansPresent (p q : Project) (exist : Path → Bool) : Prop where
  nodes : ∀ id plan node, p.plan? id = some plan → .node node ∈ plan.sources →
    q.graph.isBuilt node = false → Present q exist node
  paths : ∀ id plan path node, p.plan? id = some plan → .path path ∈ plan.sources →
    q.graph.find path = some node → q.graph.isBuilt node = false → Present q exist node

/-- In a strict project that has been resolved, every input that no step makes exists on disk
exactly if the sources of the install plans do. Validation vouches for what targets compile or
link. What the plans name is an input as well, and validation does not look at it. -/
theorem inputs_present_iff {exist : Path → Bool} (hdeclared : p.Declared)
    (hstrict : p.strict = true) (h : Yields (Project.resolve exist) p u q) :
    (∀ node, q.graph.IsInput node → q.graph.isBuilt node = false → Present q exist node) ↔
      PlansPresent p q exist := by
  have hfresh := hdeclared.fresh
  obtain ⟨order, _, _, _, _, hruns⟩ := yields_resolveAll_iff.mp (resolve_inv h)
  obtain ⟨hdrawn, hretains, hserved⟩ := hruns.supplies hfresh
  constructor
  · refine fun hall => ⟨fun id plan node hplan hnode hbuilt => ?_,
      fun id plan path node hplan hpath hfind hbuilt => ?_⟩
    · exact hall node (hserved id plan hplan _ hnode) hbuilt
    · obtain ⟨input, hinput, hnames⟩ := hserved id plan hplan _ hpath
      obtain rfl := hnames.unique hdrawn.indexed hfind hbuilt
      exact hall node hinput hbuilt
  · -- an input that no step makes has been declared, and validated if a target compiles it
    intro hplans node hinput hbuilt
    obtain ⟨_, _, step, hmade, hnode⟩ := isInput_iff.mp hinput
    cases hdrawn.steps _ _ step hmade node hnode with
    | built hbuilt' =>
        rw [hbuilt] at hbuilt'
        cases hbuilt'
    | @declared id t ht hsource =>
        obtain ⟨t', ht', heq⟩ := ((hruns.parts hfresh.sound).ledger hfresh).fixed.exists_target ht
        obtain ⟨path, hfile⟩ := isFile_of_declared hdeclared ((hfresh.targets id t ht).nodes node
          (Target.mem_nodes.mpr (.inl hsource)))
        exact present_of_validate (validate_of_resolved h (hdrawn.strict.trans hstrict)) ht'
          (Target.sources_of_declared heq ▸ hsource) hbuilt (hretains.files node path hfile)
    | planned hplan hsource => exact hplans.nodes _ _ node hplan hsource hbuilt
    | named hplan hpath hnames =>
        refine hplans.paths _ _ _ node hplan hpath (hnames.2.resolve_right fun hbuilt' => ?_) hbuilt
        rw [hbuilt] at hbuilt'
        cases hbuilt'

/-! ### A strict project that installs a file -/

/-- A target that copies the file `r` into `x`. -/
def readmeTarget : Target where
  name := "docs"
  type := .install
  env := some ⟨0⟩
  pending := some { sources := [.path ⟨"r"⟩], destination := .directory ⟨"x"⟩ }

def installing : Project where
  name := "installing"
  strict := true
  environments := #[copyTools]
  targets := #[readmeTarget]

/-- The project that resolving `installing` leaves where no file exists. -/
def installedReadme : Project := ((Project.resolve fun _ => false).run.run installing).2

theorem declared_installing : installing.Declared := by
  have hnew := (Declared.new "installing" ⟨"."⟩ ⟨"build"⟩ true).environment copyTools
  have hadd : Yields (addTarget readmeTarget)
      (Project.addEnvironment { name := "installing", strict := true } copyTools).2 ⟨0⟩
        installing := by
    cbv
  refine hnew.target ⟨rfl, rfl, rfl, fun _ => rfl, ?_⟩ hadd
  simp [Target.nodes, InstallPlan.nodes, readmeTarget]

theorem yields_installedReadme :
    Yields (Project.resolve fun _ => false) installing () installedReadme :=
  Prod.ext (by cbv) rfl

/-- The copy reads `r`, which no step makes. -/
theorem isInput_readme :
    installedReadme.graph.IsInput ⟨0⟩ ∧ installedReadme.graph.isBuilt ⟨0⟩ = false := by
  have hcopy : installedReadme.graph.step? ⟨1⟩ =
      some { copyStep (some ⟨0⟩) ⟨0⟩ with command := some [⟨[.text "cp"]⟩] } := by
    cbv
  exact ⟨⟨⟨1⟩, _, hcopy, List.mem_singleton_self _⟩, by cbv⟩

theorem not_plansPresent_installing :
    installing.Declared ∧ installing.strict = true ∧
      Yields (Project.resolve fun _ => false) installing () installedReadme ∧
      ¬ PlansPresent installing installedReadme fun _ => false := by
  refine ⟨declared_installing, rfl, yields_installedReadme, fun hplans => ?_⟩
  obtain ⟨_, -, hexist⟩ := (inputs_present_iff declared_installing rfl yields_installedReadme).mpr
    hplans ⟨0⟩ isInput_readme.1 isInput_readme.2
  cases hexist

/-- Strict mode does not see to it that the inputs exist. -/
theorem not_forall_inputs_present : ¬ ∀ (p q : Project) (exist : Path → Bool), p.Declared →
    p.strict = true → Yields (Project.resolve exist) p () q →
      ∀ node, q.graph.IsInput node → q.graph.isBuilt node = false → Present q exist node := by
  intro hall
  obtain ⟨_, -, hexist⟩ := hall _ _ _ declared_installing rfl yields_installedReadme ⟨0⟩
    isInput_readme.1 isInput_readme.2
  cases hexist

end Resolve

end BuildPlan
