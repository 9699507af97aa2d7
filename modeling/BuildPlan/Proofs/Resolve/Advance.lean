import BuildPlan.Proofs.Build.Leads
import BuildPlan.Proofs.Resolve.Installs
import BuildPlan.Proofs.Resolve.OrderingEdges

/-!
# BuildPlan.Proofs.Resolve.Advance

What a run of resolution never takes back, whatever project it starts from and
whether it succeeds or not. Targets that have had their turns have had them, plans
that have been taken stay away, requirements that have been collected are kept, and
the nodes and groups of the graph stay there.
-/

namespace BuildPlan

namespace NodeGraph

variable {graph graph' graph'' : NodeGraph} {id : NodeId} {path : Path} {step : BuildStep}

/-- The index of groups leads to nodes. -/
def GroupsKnown (graph : NodeGraph) : Prop :=
  ∀ name id, graph.byGroup.lookup name = some id → id.index < graph.size

/-- No node and no group is taken away, and groups that are added have nodes. -/
structure Grows (graph graph' : NodeGraph) : Prop where
  size : graph.size ≤ graph'.size
  kept : ∀ name id, graph.byGroup.lookup name = some id → graph'.byGroup.lookup name = some id
  new : ∀ name id, graph'.byGroup.lookup name = some id →
    graph.byGroup.lookup name = some id ∨ id.index < graph'.size

theorem Grows.refl (graph : NodeGraph) : Grows graph graph :=
  ⟨Nat.le_refl _, fun _ _ => id, fun _ _ => .inl⟩

theorem Grows.trans (h : Grows graph graph') (h' : Grows graph' graph'') :
    Grows graph graph'' := by
  refine ⟨Nat.le_trans h.size h'.size,
    fun name id hid => h'.kept name id (h.kept name id hid), fun name id hid => ?_⟩
  rcases h'.new name id hid with hid | hlt
  · exact (h.new name id hid).imp_right fun hlt => Nat.lt_of_lt_of_le hlt h'.size
  · exact .inr hlt

theorem Grows.known (h : Grows graph graph') (hknown : graph.GroupsKnown) :
    graph'.GroupsKnown := by
  intro name id hid
  rcases h.new name id hid with hid | hlt
  · exact Nat.lt_of_lt_of_le (hknown name id hid) h.size
  · exact hlt

/-- A graph with the same groups grows if it has as many nodes. -/
theorem grows_of_byGroup (hsize : graph.size ≤ graph'.size)
    (hgroups : graph'.byGroup = graph.byGroup) : Grows graph graph' :=
  ⟨hsize, fun _ _ hid => by rwa [hgroups], fun _ _ hid => .inl (by rwa [hgroups] at hid)⟩

theorem grows_modify (graph : NodeGraph) (id : NodeId) (change : Node → Node) :
    Grows graph (graph.modify id change) :=
  grows_of_byGroup (Nat.le_of_eq (size_modify graph id change).symm) rfl

theorem grows_addFile (graph : NodeGraph) (path : Path) : Grows graph (graph.addFile path).2 :=
  grows_of_byGroup (by simp) rfl

theorem grows_file (graph : NodeGraph) (path : Path) : Grows graph (graph.file path).2 := by
  unfold file
  split
  · exact .refl graph
  · exact grows_addFile graph path

theorem grows_addProduct (graph : NodeGraph) (path : Path) :
    Grows graph (graph.addProduct path).2 := by
  rcases addProduct_cases graph path with ⟨_, -, -, hadd⟩ | hadd
  · rw [hadd]
    exact .refl graph
  · rw [hadd]
    exact grows_addFile graph path

/-- A product's node is found or made, and changed. -/
theorem grows_product (graph : NodeGraph) (path : Path) (id : NodeId) (change : Node → Node) :
    Grows graph ((graph.addProduct path).2.modify id change) :=
  (grows_addProduct graph path).trans (grows_modify _ id change)

theorem grows_setStep (h : graph.setStep id step = .ok graph') : Grows graph graph' := by
  rcases setStep_cases h with ⟨-, rfl⟩ | ⟨_, _, -, -, rfl⟩
  · exact .refl graph'
  · exact grows_modify graph id _

theorem lt_size_group (h : graph.GroupsKnown) (name : String) :
    (graph.group name).1.index < (graph.group name).2.size := by
  unfold group
  split
  · next id hfound => exact h name id hfound
  · simp [size]

theorem grows_group (graph : NodeGraph) (name : String) : Grows graph (graph.group name).2 := by
  unfold group
  split
  · exact .refl graph
  next hnone =>
  refine ⟨by simp [size], fun name' id hid => ?_, fun name' id hid => ?_⟩
  · rwa [Assoc.lookup_put_ne]
    rintro rfl
    rw [hnone] at hid
    cases hid
  · by_cases heq : name' = name
    · subst heq
      rw [Assoc.lookup_put_self] at hid
      cases hid
      exact .inr (by simp [size])
    · rw [Assoc.lookup_put_ne heq] at hid
      exact .inl hid

/-- A graph that the operations on graphs lead to. -/
inductive Arises : NodeGraph → Prop
  | empty : Arises {}
  | file {graph : NodeGraph} (h : Arises graph) (path : Path) : Arises (graph.file path).2
  | product {graph : NodeGraph} (h : Arises graph) (path : Path) : Arises (graph.addProduct path).2
  | group {graph : NodeGraph} (h : Arises graph) (name : String) : Arises (graph.group name).2
  | modify {graph : NodeGraph} (h : Arises graph) (id : NodeId) (change : Node → Node) :
      Arises (graph.modify id change)

theorem Arises.groupsKnown (h : Arises graph) : graph.GroupsKnown := by
  induction h with
  | empty =>
      intro name id hid
      cases hid
  | file _ path ih => exact (grows_file _ path).known ih
  | product _ path ih => exact (grows_addProduct _ path).known ih
  | group _ name ih => exact (grows_group _ name).known ih
  | modify _ id change ih => exact (grows_modify _ id change).known ih

theorem Grouped.known (h : graph.Grouped) : graph.GroupsKnown := by
  intro name id hid
  obtain ⟨name', hkind⟩ := h name id hid
  exact lt_size_of_kind? hkind

end NodeGraph

namespace Resolve

open Build NodeGraph Project

variable {p q r : Project} {id other : TargetId} {u : Unit}

theorem Settled.modifyTarget {f : Target → Target} (hdeclared : ∀ t, (f t).declared = t.declared)
    (hresolved : ∀ t, t.resolved = true → (f t).resolved = true) (h : Settled p id) :
    Settled (p.modifyTarget other f) id := by
  intro t' ht'
  obtain ⟨t, ht, rfl⟩ := exists_target_of_modifyTarget ht'
  have hold := h t ht
  split
  · rw [Target.type_of_declared (hdeclared t), Target.env_of_declared (hdeclared t)]
    exact hold.imp_left (hresolved t)
  · exact hold

/-! ### What is not taken back -/

/-- Declarations stay as they are, and nothing that has been done is undone. Requirements
that are kept are those that had been collected, or that would have been. -/
structure Advances (p q : Project) : Prop where
  fixed : Fixed p ⟨q, [], []⟩
  labels : q.groups = p.groups
  settled : ∀ id, Settled p id → Settled q id
  plans : ∀ id, p.plan? id = none → q.plan? id = none
  memos : ∀ id, q.memo? id = p.memo? id ∨
    p.memo? id = none ∧ q.memo? id = some (p.gatherRequirements id)
  graph : p.graph.Grows q.graph

theorem Fixed.trans (h : Fixed p ⟨q, [], []⟩) (h' : Fixed q ⟨r, [], []⟩) : Fixed p ⟨r, [], []⟩ :=
  ⟨h'.buildDir.trans h.buildDir, h'.environments.trans h.environments,
    fun id => (h'.targets id).trans (h.targets id)⟩

/-- What is gathered is read off declarations. -/
theorem Fixed.gatherRequirements (h : Fixed p ⟨q, [], []⟩) :
    q.gatherRequirements = p.gatherRequirements :=
  gatherRequirements_congr h.environments h.size (h.map fun _ => rfl)

instance : IsPreorder Project Advances where
  refl _ := ⟨⟨rfl, rfl, fun _ => rfl⟩, rfl, fun _ h => h, fun _ h => h, fun _ => .inl rfl, .refl _⟩
  trans p q r h h' := by
    refine ⟨h.fixed.trans h'.fixed, h'.labels.trans h.labels,
      fun id hid => h'.settled id (h.settled id hid), fun id hid => h'.plans id (h.plans id hid),
      fun id => ?_, h.graph.trans h'.graph⟩
    rcases h'.memos id with hlater | ⟨hnone, hlater⟩
    · rw [hlater]
      exact h.memos id
    · rw [h.fixed.gatherRequirements] at hlater
      refine .inr ⟨?_, hlater⟩
      rcases h.memos id with hkept | ⟨hnone', -⟩
      · rw [← hkept, hnone]
      · exact hnone'

theorem advances_withGraph {graph : NodeGraph} (h : p.graph.Grows graph) :
    Advances p { p with graph } :=
  ⟨⟨rfl, rfl, fun _ => rfl⟩, rfl, fun _ h => h, fun _ h => h, fun _ => .inl rfl, h⟩

/-- A target that has been given something, its plan and its requirements apart. -/
theorem advances_of_memos {f : Target → Target} (hdeclared : ∀ t, (f t).declared = t.declared)
    (hresolved : ∀ t, t.resolved = true → (f t).resolved = true)
    (hpending : ∀ t, (f t).pending = none ∨ (f t).pending = t.pending)
    (hmemos : ∀ other, (p.modifyTarget id f).memo? other = p.memo? other ∨
      p.memo? other = none ∧ (p.modifyTarget id f).memo? other =
        some (p.gatherRequirements other)) :
    Advances p (p.modifyTarget id f) := by
  refine ⟨⟨rfl, rfl, map_declared_modifyTarget hdeclared p id⟩, rfl,
    fun _ => Settled.modifyTarget hdeclared hresolved, fun other hother => ?_, hmemos, .refl _⟩
  refine Option.eq_none_iff_forall_ne_some.mpr fun plan hplan => ?_
  rw [plan?_modifyTarget hpending hplan] at hother
  cases hother

theorem advances_modifyTarget {f : Target → Target} (hdeclared : ∀ t, (f t).declared = t.declared)
    (hresolved : ∀ t, t.resolved = true → (f t).resolved = true)
    (hpending : ∀ t, (f t).pending = none ∨ (f t).pending = t.pending)
    (hcollected : ∀ t, (f t).collected = t.collected) : Advances p (p.modifyTarget id f) :=
  advances_of_memos hdeclared hresolved hpending fun other =>
    .inl (memo?_modifyTarget hcollected p id other)

/-- Requirements that are collected are noted with their target, and with no other one. -/
theorem advances_collectRequirements (id : TargetId) (p : Project) :
    Advances p ((collectRequirements id).run p).2 := by
  rcases (collectRequirements_run id p).2 with hidle | hnotes
  · rw [hidle]
    exact refl p
  rw [hnotes]
  refine advances_of_memos (fun _ => rfl) (fun _ h => h) (fun _ => .inr rfl) fun other => ?_
  by_cases hother : other = id
  · subst hother
    rw [requirementsOf, memo?, target?_modifyTarget, if_pos rfl, memo?]
    cases ht : p.target? other with
    | none => exact .inl rfl
    | some t => cases hcollected : t.collected <;> simp [hcollected]
  · rw [memo?, target?_modifyTarget, if_neg hother]
    exact .inl rfl

/-! ### Products -/

theorem advances_setProductStep (node : NodeId) (step : BuildStep) (p : Project) :
    Leads Advances (setProductStep node step) p := by
  refine leads_get_bind ((leads_liftExcept _).bind fun graph q hset => ?_)
  obtain ⟨hset, rfl⟩ := yields_liftExcept.mp hset
  exact leads_set (advances_withGraph (grows_setStep hset))

theorem advances_makeObject (id : TargetId) (env : EnvironmentId) (tc : Toolchain)
    (handler : SourceHandler) (reqs : EffectiveRequirements) (source : NodeId) (p : Project) :
    Leads Advances (makeObject id env tc handler reqs source) p := by
  unfold makeObject
  refine leads_get_bind ?_
  dsimp only
  split
  · exact (leads_throw _).bind fun _ _ hthrow => absurd hthrow not_yields_throw
  · refine leads_set_bind (advances_withGraph (grows_product _ _ _ _)) ?_
    exact (advances_setProductStep _ _ _).bind fun _ _ _ => leads_pure _

theorem advances_compileSource (id : TargetId) (env : EnvironmentId)
    (reqs : EffectiveRequirements) (c : Compilation) (source : NodeId) (p : Project) :
    Leads Advances (compileSource id env reqs c source) p := by
  unfold compileSource
  refine leads_get_bind ?_
  dsimp only
  split
  · exact leads_pure c
  split
  · exact leads_pure _
  split
  · exact leads_pure _
  split
  · exact leads_pure _
  · exact (advances_makeObject _ _ _ _ _ _ _).bind fun _ _ _ => leads_pure _

theorem advances_effectiveRequirements (id : TargetId) (scope : RequirementScope) (p : Project) :
    Advances p ((effectiveRequirements id scope).run p).2 := by
  rw [effectiveRequirements_state]
  exact advances_collectRequirements id p

theorem advances_makeOutput (id : TargetId) (t : Target) (deps : List (List NodeId))
    (step : BuildStep) (p : Project) : Leads Advances (makeOutput id t deps step) p := by
  refine leads_get_bind ?_
  dsimp only
  refine leads_set_bind (advances_withGraph (grows_product _ _ _ _)) ?_
  refine (advances_setProductStep _ _ _).bind fun _ q _ => leads_modify ?_
  exact advances_modifyTarget (fun _ => rfl) (fun _ h => h) (fun _ => .inr rfl) fun _ => rfl

theorem advances_produce (id : TargetId) (env : EnvironmentId) (p : Project) :
    Leads Advances (produce id env) p := by
  rcases produce_cases p id with hnothing | ⟨t, ht, htype | ⟨hcompiles, hmakes, hobjects⟩⟩
  · exact leads_of_yields (run_produce_nothing hnothing)
  · rw [Leads, run_produce_object ht htype]
    exact advances_modifyTarget (fun _ => rfl) (fun _ h => h) (fun _ => .inr rfl) fun _ => rfl
  · rw [Leads, run_produce ht hcompiles hmakes hobjects]
    exact IsTrans.trans _ _ _ (advances_effectiveRequirements id .link p)
      (advances_makeOutput _ _ _ _ _)

/-! ### The first phase -/

theorem advances_markResolved (id : TargetId) (p : Project) :
    Leads Advances (markResolved id) p :=
  leads_modify <|
    advances_modifyTarget (fun _ => rfl) (fun _ _ => rfl) (fun _ => .inr rfl) fun _ => rfl

theorem advances_compileTarget (id : TargetId) (env : EnvironmentId) (sources : List NodeId)
    (p : Project) : Leads Advances (compileTarget id env sources) p := by
  refine leads_liftState_bind (advances_effectiveRequirements id .compile p) ?_
  refine (leads_foldlM (advances_compileSource _ _ _) _ _).bind fun c q _ => ?_
  refine leads_modify_bind ?_ ((advances_produce id env _).bind fun _ r _ => ?_)
  · exact advances_modifyTarget (fun _ => rfl) (fun _ h => h) (fun _ => .inr rfl) fun _ => rfl
  · exact advances_markResolved id r

theorem advances_resolveTarget (id : TargetId) (p : Project) :
    Leads Advances (resolveTarget id) p := by
  rcases settled_or_open p id with hsettled | ⟨t, ht, hopen, htype | ⟨env, htype, henv⟩⟩
  · exact leads_of_yields hsettled.yields
  · rw [Leads, run_resolveTarget_interface ht hopen htype]
    exact advances_markResolved id p
  · rw [Leads, run_resolveTarget_compile ht hopen htype henv]
    exact advances_compileTarget id env t.sources p

/-! ### Commands -/

theorem advances_expandNode (node : NodeId) (p : Project) :
    Leads Advances (expandNode node) p := by
  unfold expandNode
  refine leads_get_bind ?_
  split
  · exact leads_pure ()
  split
  · exact leads_pure ()
  refine (leads_liftExcept _).bind fun command q hexpand => ?_
  obtain ⟨-, rfl⟩ := yields_liftExcept.mp hexpand
  split
  · exact leads_pure ()
  · exact leads_set (advances_withGraph (grows_modify _ _ _))

theorem advances_expandCommands (start : Nat) (p : Project) :
    Leads Advances (expandCommands start) p :=
  leads_get_bind (leads_forM advances_expandNode _)

/-! ### The second phase -/

theorem advances_copyNode (env : Option EnvironmentId) (source : NodeId) (path : Path)
    (p : Project) : Leads Advances (copyNode env source path) p := by
  refine leads_get_bind ?_
  dsimp only
  refine leads_set_bind (advances_withGraph (grows_product _ _ _ _)) ?_
  exact (advances_setProductStep _ _ _).bind fun _ _ _ => leads_pure _

theorem advances_copyAll (name : String) (env : Option EnvironmentId) (sources : List NodeId)
    (destination : Destination) (p : Project) :
    Leads Advances (copyAll name env sources destination) p := by
  unfold copyAll
  split
  · exact leads_mapM (fun source q => leads_get_bind (advances_copyNode env source _ q)) sources
  split
  · exact leads_pure _
  · exact (advances_copyNode env _ _ p).bind fun _ _ _ => leads_pure _
  · exact leads_throw _

theorem advances_findSource {install : TargetId → Build Unit}
    (hinstall : ∀ id p, Leads Advances (install id) p) (found : List NodeId)
    (source : InstallSource) (p : Project) :
    Leads Advances (findSource install found source) p := by
  cases source with
  | target dep => exact (hinstall dep p).bind fun _ q _ => leads_get_bind (leads_pure _)
  | node node => exact leads_pure _
  | path path =>
      exact leads_modifyGet_bind (advances_withGraph (grows_file p.graph path)) (leads_pure _)

theorem advances_take (p : Project) (id : TargetId) :
    Advances p (p.modifyTarget id fun t => { t with pending := none }) :=
  advances_modifyTarget (fun _ => rfl) (fun _ h => h) (fun _ => .inl rfl) fun _ => rfl

/-- Carrying out a plan that has been taken. -/
theorem advances_carryOut {install : TargetId → Build Unit}
    (hinstall : ∀ id p, Leads Advances (install id) p) (id : TargetId) (t : Target)
    (plan : InstallPlan) (p : Project) :
    Leads Advances (do
      let sources ← plan.sources.foldlM (findSource install) []
      let outputs ← copyAll t.name t.env sources plan.destination
      modify (·.modifyTarget id fun t => { t with outputs, resolved := true })) p := by
  refine (leads_foldlM (advances_findSource hinstall) _ _).bind fun sources q _ => ?_
  refine (advances_copyAll _ _ _ _ q).bind fun outputs r _ => leads_modify ?_
  exact advances_modifyTarget (fun _ => rfl) (fun _ _ => rfl) (fun _ => .inr rfl) fun _ => rfl

theorem advances_installWithin (depth : Nat) (id : TargetId) (p : Project) :
    Leads Advances (installWithin depth id) p := by
  induction depth generalizing id p with
  | zero => exact leads_pure ()
  | succ depth ih =>
      unfold installWithin
      refine leads_get_bind ?_
      split
      · exact leads_pure ()
      split
      · exact leads_pure ()
      · exact leads_set_bind (advances_take p id) (advances_carryOut ih id _ _ _)

theorem advances_install (id : TargetId) (p : Project) : Leads Advances (install id) p :=
  leads_get_bind (advances_installWithin _ id p)

theorem grows_makeGroup (graph : NodeGraph) (name : String) (outputs : List NodeId) :
    Grows graph ((graph.group name).2.modify (graph.group name).1 (·.depends outputs)) :=
  (grows_group graph name).trans (grows_modify _ _ _)

theorem advances_makeGroup (name : String) (targets : List TargetId) (p : Project) :
    Leads Advances (makeGroup name targets) p :=
  leads_get_bind (leads_set (advances_withGraph (grows_makeGroup p.graph name _)))

/-! ### Both phases -/

/-- Resolution takes nothing back, whatever comes of it. -/
theorem advances_resolveAll (p : Project) : Leads Advances resolveAll p := by
  refine leads_get_bind ((leads_liftExcept _).bind fun order q _ => ?_)
  refine (leads_forM advances_resolveTarget _).bind fun _ compiled _ => ?_
  refine (advances_expandCommands 0 compiled).bind fun _ expanded _ => leads_get_bind ?_
  refine (leads_forM advances_install _).bind fun _ copied _ => leads_get_bind ?_
  refine (leads_forM (fun _ => advances_makeGroup _ _) _).bind fun _ installed _ => ?_
  exact advances_expandCommands _ installed

theorem leads_enforce {R : Project → Project → Prop} [IsPreorder Project R]
    (exist : Path → Bool) (p : Project) : Leads R (enforce exist) p := by
  refine leads_get_bind ?_
  split
  · exact leads_pure ()
  · split
    · exact leads_throw _
    · exact leads_pure ()

theorem advances_resolve (exist : Path → Bool) (p : Project) :
    Leads Advances (Project.resolve exist) p :=
  (advances_resolveAll p).bind fun _ q _ => leads_enforce exist q

/-- Resolution leaves groups with nodes, also if it fails. -/
theorem groupsKnown_resolve (exist : Path → Bool) (hknown : p.graph.GroupsKnown) :
    ((Project.resolve exist).run.run p).2.graph.GroupsKnown :=
  (advances_resolve exist p).graph.known hknown

end Resolve

end BuildPlan
