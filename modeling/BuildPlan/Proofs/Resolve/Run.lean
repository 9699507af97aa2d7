import BuildPlan.Proofs.Build
import BuildPlan.Proofs.Resolve.Change
import Mathlib

/-!
# BuildPlan.Proofs.Resolve.Run

Every operation of resolution that succeeds is a path of changes. What a block
does is read off its steps, from the making of one product up to both phases.

Mathlib is imported whole here and nowhere else. The modules that build on this one
evaluate closed projects with `cbv`, through equations of library functions (`StateT.set`,
`List.lookup`) that no smaller import provides.
-/

namespace BuildPlan.Resolve

open Build

variable {p q : Project} {made : List NodeId} {jobs : List Job} {id : TargetId}
  {env : EnvironmentId} {source object : NodeId}

/-! ### Products -/

theorem setProductStep_inv {id : NodeId} {step : BuildStep} {u : Unit}
    (h : Yields (setProductStep id step) p u q) :
    ∃ graph, p.graph.setStep id step = .ok graph ∧ q = { p with graph } := by
  simp only [setProductStep, yields_bind, yields_get, yields_liftExcept, yields_set] at h
  obtain ⟨_, _, ⟨rfl, rfl⟩, graph, _, ⟨hset, rfl⟩, rfl⟩ := h
  exact ⟨graph, hset, rfl⟩

/-- A product's node that has been found or made is given its step. -/
theorem produces_of_setProductStep {path : Path} {step : BuildStep} {change : Node → Node}
    {u : Unit}
    (hchange : ∀ node, (change node).kind = node.kind)
    (h : Yields (setProductStep (p.graph.addProduct path).1 step)
      { p with graph := (p.graph.addProduct path).2.modify (p.graph.addProduct path).1 change }
      u q) :
    ∃ graph, p.graph.Produces path step (p.graph.addProduct path).1 graph ∧
      q = { p with graph } := by
  obtain ⟨graph, hset, rfl⟩ := setProductStep_inv h
  exact ⟨graph, ⟨rfl, change, hchange, hset⟩, rfl⟩

/-! ### Objects -/

/-- Effective requirements are computed from what is collected, and note nothing else. -/
theorem effectiveRequirements_state (id : TargetId) (scope : RequirementScope) (p : Project) :
    ((Project.effectiveRequirements id scope).run p).2 =
      ((Project.collectRequirements id).run p).2 := by
  cases scope <;> rfl

theorem effectiveRequirements_run (id : TargetId) (scope : RequirementScope) (p : Project) :
    ((Project.effectiveRequirements id scope).run p).2 = p ∨
      ∃ reqs, ((Project.effectiveRequirements id scope).run p).2 =
        p.modifyTarget id fun t => { t with collected := some reqs } := by
  rw [effectiveRequirements_state, Project.collectRequirements]
  simp only [StateT.run_bind]
  cases hcollected : (p.target? id).bind Target.collected with
  | some reqs =>
      refine .inl ?_
      simp [hcollected]
      rfl
  | none =>
      refine .inr ⟨p.gatherRequirements id, ?_⟩
      simp [hcollected]
      rfl

theorem effectiveRequirements_changes (id : TargetId) (scope : RequirementScope) :
    Changes .compile ⟨p, made, jobs⟩
      ⟨((Project.effectiveRequirements id scope).run p).2, made, jobs⟩ := by
  rcases effectiveRequirements_run id scope p with heq | ⟨reqs, heq⟩
  · rw [heq]
    exact .refl
  · rw [heq]
    exact .single (.note (fun _ => ⟨rfl, rfl, rfl, rfl⟩) fun _ _ hnode => .inl hnode)

theorem makeObject_changes {target : TargetId} {tc : Toolchain} {handler : SourceHandler}
    {requirements : EffectiveRequirements} (hsound : Sound ⟨p, made, jobs⟩)
    (h : Yields (makeObject target env tc handler requirements source) p object q) :
    Changes .compile ⟨p, made, jobs⟩ ⟨q, made, jobs⟩ ∧ object.index < q.graph.size := by
  simp only [makeObject, yields_get_bind] at h
  split at h
  · simp only [yields_bind, not_yields_throw, false_and, exists_false] at h
  next hnone =>
  rw [yields_set_bind, yields_bind] at h
  obtain ⟨_, _, hstep, h⟩ := h
  obtain ⟨rfl, rfl⟩ := yields_pure.mp h
  revert hnone hstep
  generalize objectPath p.buildDir (p.targetName target) ⟨p.graph.name source⟩
    handler.objectSuffix = path
  intro hnone hstep
  obtain ⟨graph, hmade, rfl⟩ := produces_of_setProductStep (Node.kind_depends [source] _) hstep
  refine ⟨.single (.object hmade rfl rfl fun top htop => ?_), ?_⟩
  · rw [htop, Option.bind_some] at hnone
    rw [NodeGraph.isBuilt, Option.isSome_eq_false_iff, Option.isNone_iff_eq_none]
    exact Option.eq_none_iff_forall_ne_some.mpr fun step hstep => hnone step hstep
  · exact (size_le_of_product (hmade.product hsound.indexed).1).2

/-- The nodes that a target's sources have come to are nodes. -/
structure Compilation.Within (c : Compilation) (p : Project) : Prop where
  objects : ∀ node ∈ c.objects, node.index < p.graph.size
  compiled : ∀ entry ∈ c.compiled, entry.2.index < p.graph.size

theorem Compilation.Within.mono {c : Compilation} (h : c.Within p)
    (hsize : p.graph.size ≤ q.graph.size) : c.Within q :=
  ⟨fun node hnode => Nat.lt_of_lt_of_le (h.objects node hnode) hsize,
    fun entry hentry => Nat.lt_of_lt_of_le (h.compiled entry hentry) hsize⟩

theorem Compilation.Within.addObject {c : Compilation} (h : c.Within p)
    (hobject : object.index < p.graph.size) : (c.addObject object).Within p := by
  refine ⟨fun node hnode => ?_, h.compiled⟩
  rcases Node.mem_addNew.mp hnode with hold | hnew
  · exact h.objects node hold
  · rwa [List.mem_singleton.mp hnew]

theorem compileSource_changes {requirements : EffectiveRequirements} {c c' : Compilation}
    (hsound : Sound ⟨p, made, jobs⟩) (hsource : source.index < p.graph.size) (hc : c.Within p)
    (h : Yields (compileSource id env requirements c source) p c' q) :
    Changes .compile ⟨p, made, jobs⟩ ⟨q, made, jobs⟩ ∧ c'.Within q := by
  simp only [compileSource, yields_get_bind] at h
  split at h
  · obtain ⟨rfl, rfl⟩ := yields_pure.mp h
    exact ⟨.refl, hc⟩
  split at h
  · -- a linker flag
    obtain ⟨rfl, rfl⟩ := yields_pure.mp h
    exact ⟨.refl, hc.objects, hc.compiled⟩
  split at h
  · -- a linker input, or a source to pass over
    obtain ⟨rfl, rfl⟩ := yields_pure.mp h
    refine ⟨.refl, ?_⟩
    split
    · exact hc.addObject hsource
    · exact hc
  split at h
  · next hfound =>
      -- the target has compiled this source before
      obtain ⟨rfl, rfl⟩ := yields_pure.mp h
      exact ⟨.refl, Compilation.Within.addObject ⟨hc.objects, hc.compiled⟩
        (hc.compiled _ (List.mem_of_find?_eq_some hfound))⟩
  · obtain ⟨object, r, hmake, h⟩ := yields_bind.mp h
    obtain ⟨rfl, rfl⟩ := yields_pure.mp h
    obtain ⟨hchanges, hobject⟩ := makeObject_changes hsound hmake
    have hc' := hc.mono (Changes.size_le hchanges hsound)
    obtain ⟨hobjects, -⟩ := Compilation.Within.addObject ⟨hc'.objects, hc'.compiled⟩ hobject
    refine ⟨hchanges, hobjects, fun entry hentry => ?_⟩
    rcases List.mem_cons.mp hentry with rfl | hentry
    · exact hobject
    · exact hc'.compiled entry hentry

theorem compileSources_changes {requirements : EffectiveRequirements} {sources : List NodeId}
    {c c' : Compilation} (hsound : Sound ⟨p, made, jobs⟩)
    (hsources : ∀ source ∈ sources, source.index < p.graph.size) (hc : c.Within p)
    (h : Yields (sources.foldlM (compileSource id env requirements) c) p c' q) :
    Changes .compile ⟨p, made, jobs⟩ ⟨q, made, jobs⟩ ∧ c'.Within q := by
  induction sources generalizing p c with
  | nil =>
      obtain ⟨rfl, rfl⟩ := yields_pure.mp h
      exact ⟨.refl, hc⟩
  | cons source rest ih =>
      rw [List.foldlM_cons, yields_bind] at h
      obtain ⟨c₁, r, hfirst, hrest⟩ := h
      obtain ⟨hchanges, hc₁⟩ :=
        compileSource_changes hsound (hsources _ List.mem_cons_self) hc hfirst
      have hsize := Changes.size_le hchanges hsound
      obtain ⟨hchanges', hc'⟩ := ih (hchanges.sound hsound)
        (fun other hother =>
          Nat.lt_of_lt_of_le (hsources other (List.mem_cons_of_mem _ hother)) hsize) hc₁ hrest
      exact ⟨hchanges.trans hchanges', hc'⟩

/-! ### Outputs -/

theorem outputPath_congr {t t' : Target} (h : t'.declared = t.declared) :
    outputPath p id t' = outputPath p id t := by
  have hname : t'.name = t.name := by
    have hname := congrArg Target.name h
    exact hname
  have houtput : t'.outputName = t.outputName := by
    have houtput := congrArg Target.outputName h
    exact houtput
  rw [outputPath, outputPath, hname, Target.type_of_declared h, houtput]

theorem makeOutput_inv {target : Target} {deps : List (List NodeId)} {step : BuildStep} {u : Unit}
    (h : Yields (makeOutput id target deps step) p u q) :
    ∃ graph node, p.graph.Produces (outputPath p id target) step node graph ∧
      q = { p with graph }.modifyTarget id fun t => { t with outputs := [node] } := by
  simp only [makeOutput, yields_get_bind, yields_set_bind] at h
  obtain ⟨_, _, hstep, h⟩ := yields_bind.mp h
  obtain ⟨graph, hmade, rfl⟩ := produces_of_setProductStep (Node.kind_foldl_depends deps) hstep
  exact ⟨graph, _, hmade, yields_modify.mp h⟩

/-- A target whose output is made is given it when it is marked as resolved. -/
theorem makeOutput_changes {t target : Target} {deps : List (List NodeId)} {step : BuildStep}
    {u : Unit} (htarget : p.target? id = some t) (hdeclared : t.declared = target.declared)
    (htype : t.type.makesOutput = true) (hkind : step.kind = .archive ∨ step.kind = .link)
    (hcommand : step.command = none) (h : Yields (makeOutput id target deps step) p u q) :
    Changes .compile ⟨p, [], ⟨id, none⟩ :: jobs⟩
      ⟨q.modifyTarget id fun t => { t with resolved := true }, [], jobs⟩ := by
  obtain ⟨graph, node, hmade, rfl⟩ := makeOutput_inv h
  rw [← outputPath_congr hdeclared] at hmade
  rw [Project.modifyTarget_modifyTarget]
  refine .head (.output htarget htype hmade hkind hcommand) (.single ?_)
  exact .finished (fun _ => rfl) fun _ _ => .inl rfl

theorem effectiveRequirements_target {t : Target} (h : p.target? id = some t)
    (scope : RequirementScope) :
    ∃ t', ((Project.effectiveRequirements id scope).run p).2.target? id = some t' ∧ Notes t t' := by
  rcases effectiveRequirements_run id scope p with heq | ⟨reqs, heq⟩
  · exact ⟨t, by rw [heq, h], rfl, rfl, rfl, rfl⟩
  · refine ⟨{ t with collected := some reqs }, ?_, rfl, rfl, rfl, rfl⟩
    rw [heq, Project.target?_modifyTarget, if_pos rfl, h]
    rfl

/-- A target that makes nothing is marked as resolved. -/
theorem makeNothing_changes :
    Changes .compile ⟨p, [], ⟨id, none⟩ :: jobs⟩
      ⟨p.modifyTarget id fun t => { t with resolved := true }, [], jobs⟩ :=
  .single (.finished (fun _ => rfl) fun _ _ => .inr ⟨rfl, .inl rfl⟩)

/-- The output of a library or program is made once the requirements of its step
have been collected, provided that there are objects. -/
theorem collectAndMake_changes {target : Target} {deps : Project → List (List NodeId)}
    {step : Project → EffectiveRequirements → BuildStep} {u : Unit}
    (htarget : p.target? id = some target) (htype : target.type.makesOutput = true)
    (hkind : ∀ p reqs, (step p reqs).kind = .archive ∨ (step p reqs).kind = .link)
    (hcommand : ∀ p reqs, (step p reqs).command = none)
    (h : Yields (if target.objects.isEmpty then pure () else do
      let reqs ← liftM (Project.effectiveRequirements id .link)
      let p ← get
      makeOutput id target (deps p) (step p reqs)) p u q) :
    Changes .compile ⟨p, [], ⟨id, none⟩ :: jobs⟩
      ⟨q.modifyTarget id fun t => { t with resolved := true }, [], jobs⟩ := by
  split at h
  · obtain ⟨-, rfl⟩ := yields_pure.mp h
    exact makeNothing_changes
  rw [yields_liftState_bind, yields_get_bind] at h
  obtain ⟨t, ht, hnotes⟩ := effectiveRequirements_target htarget .link
  refine (effectiveRequirements_changes id .link).trans
    (makeOutput_changes ht hnotes.declared ?_ (hkind _ _) (hcommand _ _) h)
  rwa [Target.type_of_declared hnotes.declared]

/-- The output of a target is made, and the target is marked as resolved. -/
theorem produce_changes {u : Unit} (h : Yields (produce id env) p u q) :
    Changes .compile ⟨p, [], ⟨id, none⟩ :: jobs⟩
      ⟨q.modifyTarget id fun t => { t with resolved := true }, [], jobs⟩ := by
  simp only [produce, yields_get_bind] at h
  split at h
  · obtain ⟨-, rfl⟩ := yields_pure.mp h
    exact makeNothing_changes
  next target htarget =>
  split at h
  · next htype =>
      -- the objects themselves are handed out; the target makes no product
      rw [yields_modify.mp h, Project.modifyTarget_modifyTarget]
      refine .single (.finished (fun _ => rfl) fun t ht => ?_)
      rw [htarget] at ht
      cases ht
      exact .inr ⟨rfl, .inr ⟨htype, rfl⟩⟩
  · next htype =>
      exact collectAndMake_changes htarget (by rw [htype]; rfl) (fun _ _ => .inl rfl)
        (fun _ _ => rfl) h
  · next htype =>
      exact collectAndMake_changes htarget (by rw [htype]; rfl) (fun _ _ => .inr rfl)
        (fun _ _ => rfl) h
  · next htype =>
      exact collectAndMake_changes htarget (by rw [htype]; rfl) (fun _ _ => .inr rfl)
        (fun _ _ => rfl) h
  · obtain ⟨-, rfl⟩ := yields_pure.mp h
    exact makeNothing_changes
  · obtain ⟨-, rfl⟩ := yields_pure.mp h
    exact makeNothing_changes

theorem compileTarget_changes {sources : List NodeId} {t : Target} {u : Unit}
    (hsound : Sound ⟨p, [], []⟩) (htarget : p.target? id = some t) (hopen : t.resolved = false)
    (htype : t.type ≠ .install) (hsources : ∀ source ∈ sources, source.index < p.graph.size)
    (h : Yields (compileTarget id env sources) p u q) :
    Changes .compile ⟨p, [], []⟩ ⟨q, [], []⟩ := by
  rw [compileTarget, yields_liftState_bind] at h
  have hstart : Changes .compile ⟨p, [], []⟩ ⟨p, [], [⟨id, none⟩]⟩ :=
    .single (.start htarget hopen htype)
  have hreqs : Changes .compile ⟨p, [], []⟩ _ :=
    hstart.trans (effectiveRequirements_changes id .compile)
  obtain ⟨c, r, hcompile, h⟩ := yields_bind.mp h
  rw [yields_modify_bind] at h
  obtain ⟨hobjects, hc⟩ := compileSources_changes (hreqs.sound hsound)
    (fun source hsource => Nat.lt_of_lt_of_le (hsources source hsource) (hreqs.size_le hsound))
    ⟨by simp, by simp⟩ hcompile
  refine (hreqs.trans hobjects).trans ?_
  have hnote : Changes .compile ⟨r, [], [⟨id, none⟩]⟩ ⟨r.modifyTarget id fun t => { t with
      objects := c.objects
      auxiliaryInputs := c.auxiliary
      languages := Target.mergeLanguages t.languages c.languages }, [], [⟨id, none⟩]⟩ :=
    .single (.note (fun _ => ⟨rfl, rfl, rfl, rfl⟩) fun _ node hnode => .inr (hc.objects node hnode))
  refine hnote.trans ?_
  obtain ⟨_, r', hproduce, h⟩ := yields_bind.mp h
  rw [yields_modify.mp h]
  exact produce_changes hproduce

theorem resolveTarget_changes {u : Unit} (hsound : Sound ⟨p, [], []⟩)
    (h : Yields (resolveTarget id) p u q) :
    Changes .compile ⟨p, [], []⟩ ⟨q, [], []⟩ := by
  rw [resolveTarget, yields_get_bind] at h
  split at h
  · obtain ⟨-, rfl⟩ := yields_pure.mp h
    exact .refl
  next t htarget =>
  split at h
  · obtain ⟨-, rfl⟩ := yields_pure.mp h
    exact .refl
  next hresolved =>
  have hopen : t.resolved = false := by simpa using hresolved
  split at h
  · next htype =>
      rw [yields_modify.mp h]
      exact .head (.start htarget hopen (by rw [htype]; decide)) makeNothing_changes
  · obtain ⟨-, rfl⟩ := yields_pure.mp h
    exact .refl
  · obtain ⟨-, rfl⟩ := yields_pure.mp h
    exact .refl
  · next _ _ _ _ _ hinstall =>
      refine compileTarget_changes hsound htarget hopen hinstall (fun source hsource => ?_) h
      exact hsound.targets id t htarget source (Target.mem_nodes.mpr (.inl hsource))

/-- A loop of changes that each start from valid ids. -/
theorem forM_changes {phase : Phase} {α : Type} {f : α → Build PUnit} {as : List α} {u : PUnit}
    (hstep : ∀ a ∈ as, ∀ p q, Sound ⟨p, [], jobs⟩ → Yields (f a) p ⟨⟩ q →
      Changes phase ⟨p, [], jobs⟩ ⟨q, [], jobs⟩)
    (hsound : Sound ⟨p, [], jobs⟩) (h : Yields (as.forM f) p u q) :
    Changes phase ⟨p, [], jobs⟩ ⟨q, [], jobs⟩ := by
  refine Yields.forM
    (R := fun p q => Sound ⟨p, [], jobs⟩ → Changes phase ⟨p, [], jobs⟩ ⟨q, [], jobs⟩)
    (fun _ _ => .refl) (fun p q r hpq hqr hsound => ?_) (fun a ha p q hyields hsound => ?_) h hsound
  · exact (hpq hsound).trans (hqr ((hpq hsound).sound hsound))
  · exact hstep a ha p q hsound hyields

/-! ### Installs -/

theorem copyNode_changes {plan : InstallPlan} {env : Option EnvironmentId} {copy : NodeId}
    (hsource : source.index < p.graph.size)
    (h : Yields (copyNode env source (plan.destination.place p.graph source)) p copy q) :
    Changes .install ⟨p, made, ⟨id, some plan⟩ :: jobs⟩
      ⟨q, made ++ [copy], ⟨id, some plan⟩ :: jobs⟩ := by
  simp only [copyNode, yields_get_bind, yields_set_bind] at h
  obtain ⟨_, _, hstep, h⟩ := yields_bind.mp h
  obtain ⟨rfl, rfl⟩ := yields_pure.mp h
  obtain ⟨graph, hmade, rfl⟩ := produces_of_setProductStep (Node.kind_depends [source] []) hstep
  exact .single (.copy hsource hmade)

/-- Nodes are copied one by one into a directory. -/
theorem copyInto_changes {plan : InstallPlan} {dir : Path}
    (hdir : plan.destination = .directory dir) {env : Option EnvironmentId}
    {sources outputs : List NodeId} (hsound : Sound ⟨p, made, ⟨id, some plan⟩ :: jobs⟩)
    (hsources : ∀ source ∈ sources, source.index < p.graph.size)
    (h : Yields (sources.mapM fun source => do
      copyNode env source (dir.join (copiedName (← get).graph source))) p outputs q) :
    Changes .install ⟨p, made, ⟨id, some plan⟩ :: jobs⟩
      ⟨q, made ++ outputs, ⟨id, some plan⟩ :: jobs⟩ := by
  induction sources generalizing p made outputs with
  | nil =>
      rw [List.mapM_nil] at h
      obtain ⟨rfl, rfl⟩ := yields_pure.mp h
      rw [List.append_nil]
      exact .refl
  | cons source rest ih =>
      rw [List.mapM_cons, yields_bind] at h
      obtain ⟨copy, r, hfirst, h⟩ := h
      obtain ⟨copies, r', hrest, h⟩ := yields_bind.mp h
      obtain ⟨rfl, rfl⟩ := yields_pure.mp h
      have hplace :
          dir.join (copiedName p.graph source) = plan.destination.place p.graph source := by
        rw [hdir]
        rfl
      rw [yields_get_bind, hplace] at hfirst
      have hcopy : Changes .install _ ⟨r, made ++ [copy], ⟨id, some plan⟩ :: jobs⟩ :=
        copyNode_changes (hsources _ List.mem_cons_self) hfirst
      have hrest := ih (hcopy.sound hsound) (fun other hother =>
        Nat.lt_of_lt_of_le (hsources other (List.mem_cons_of_mem _ hother))
          (hcopy.size_le hsound)) hrest
      rw [List.append_assoc, List.singleton_append] at hrest
      exact hcopy.trans hrest

theorem copyAll_changes {plan : InstallPlan} {name : String} {env : Option EnvironmentId}
    {sources outputs : List NodeId} (hsound : Sound ⟨p, [], ⟨id, some plan⟩ :: jobs⟩)
    (hsources : ∀ source ∈ sources, source.index < p.graph.size)
    (h : Yields (copyAll name env sources plan.destination) p outputs q) :
    Changes .install ⟨p, [], ⟨id, some plan⟩ :: jobs⟩ ⟨q, outputs, ⟨id, some plan⟩ :: jobs⟩ := by
  unfold copyAll at h
  split at h
  · next hdir => exact copyInto_changes hdir hsound hsources h
  next path hpath =>
  split at h
  · obtain ⟨rfl, rfl⟩ := yields_pure.mp h
    exact .refl
  · next source =>
      obtain ⟨copy, r, hcopy, h⟩ := yields_bind.mp h
      obtain ⟨rfl, rfl⟩ := yields_pure.mp h
      have hplace : path = plan.destination.place p.graph source := by
        rw [hpath]
        rfl
      rw [hplace] at hcopy
      exact copyNode_changes (hsources source List.mem_cons_self) hcopy
  · exact absurd h not_yields_throw

theorem mem_outputsOf {node : NodeId} :
    node ∈ p.outputsOf id ↔ ∃ t, p.target? id = some t ∧ node ∈ t.outputs := by
  unfold Project.outputsOf
  cases p.target? id <;> simp

/-- An operation that installs a target is a path of changes. -/
def Installs (install : TargetId → Build Unit) : Prop :=
  ∀ id jobs p q u, Sound ⟨p, [], jobs⟩ → Yields (install id) p u q →
    Changes .install ⟨p, [], jobs⟩ ⟨q, [], jobs⟩

theorem findSource_changes {install : TargetId → Build Unit} {source : InstallSource}
    {found nodes : List NodeId} (hinstall : Installs install) (hsound : Sound ⟨p, [], jobs⟩)
    (hsource : ∀ node, source = .node node → node.index < p.graph.size)
    (hfound : ∀ node ∈ found, node.index < p.graph.size)
    (h : Yields (findSource install found source) p nodes q) :
    Changes .install ⟨p, [], jobs⟩ ⟨q, [], jobs⟩ ∧ ∀ node ∈ nodes, node.index < q.graph.size := by
  cases source with
  | target dep =>
      obtain ⟨_, r, hdep, h⟩ := yields_bind.mp h
      rw [yields_get_bind] at h
      obtain ⟨rfl, rfl⟩ := yields_pure.mp h
      have hchanges : Changes .install _ ⟨q, [], jobs⟩ := hinstall dep jobs p q _ hsound hdep
      refine ⟨hchanges, fun node hnode => ?_⟩
      rcases Node.mem_addNew.mp hnode with hold | hnew
      · exact Nat.lt_of_lt_of_le (hfound node hold) (hchanges.size_le hsound)
      · obtain ⟨t, ht, houtput⟩ := mem_outputsOf.mp hnew
        exact (hchanges.sound hsound).targets dep t ht node
          (Target.mem_nodes.mpr (.inr (.inr (.inr houtput))))
  | node given =>
      obtain ⟨rfl, rfl⟩ := yields_pure.mp h
      refine ⟨.refl, fun node hnode => ?_⟩
      rcases Node.mem_addNew.mp hnode with hold | hnew
      · exact hfound node hold
      · exact hsource node (by rw [List.mem_singleton.mp hnew])
  | path path =>
      rw [findSource, yields_modifyGet_bind] at h
      obtain ⟨rfl, rfl⟩ := yields_pure.mp h
      obtain ⟨hsize, hlt⟩ := hsound.indexed.size_file path
      refine ⟨.single (.file path), fun node hnode => ?_⟩
      rcases Node.mem_addNew.mp hnode with hold | hnew
      · exact Nat.lt_of_lt_of_le (hfound node hold) hsize
      · rw [List.mem_singleton.mp hnew]
        exact hlt

/-- Finding the sources of a plan installs the targets among them. -/
theorem findSources_changes {install : TargetId → Build Unit} {sources : List InstallSource}
    {found nodes : List NodeId} (hinstall : Installs install) (hsound : Sound ⟨p, [], jobs⟩)
    (hsources : ∀ node, .node node ∈ sources → node.index < p.graph.size)
    (hfound : ∀ node ∈ found, node.index < p.graph.size)
    (h : Yields (sources.foldlM (findSource install) found) p nodes q) :
    Changes .install ⟨p, [], jobs⟩ ⟨q, [], jobs⟩ ∧ ∀ node ∈ nodes, node.index < q.graph.size := by
  induction sources generalizing p found with
  | nil =>
      obtain ⟨rfl, rfl⟩ := yields_pure.mp h
      exact ⟨.refl, hfound⟩
  | cons source rest ih =>
      rw [List.foldlM_cons, yields_bind] at h
      obtain ⟨found', r, hfirst, hrest⟩ := h
      obtain ⟨hchanges, hfound'⟩ := findSource_changes hinstall hsound
        (fun node heq => hsources node (heq ▸ List.mem_cons_self)) hfound hfirst
      obtain ⟨hchanges', hnodes⟩ := ih (Changes.sound hchanges hsound)
        (fun node hnode => Nat.lt_of_lt_of_le (hsources node (List.mem_cons_of_mem _ hnode))
          (Changes.size_le hchanges hsound)) hfound' hrest
      exact ⟨hchanges.trans hchanges', hnodes⟩

theorem mem_nodes_plan {plan : InstallPlan} {node : NodeId} (h : .node node ∈ plan.sources) :
    node ∈ plan.nodes :=
  List.mem_filterMap.mpr ⟨.node node, h, rfl⟩

/-- Carrying out a plan that has been taken is a path of changes. -/
theorem carryOut_changes {install : TargetId → Build Unit} {t : Target} {plan : InstallPlan}
    {u : Unit} (hinstall : Installs install) (hsound : Sound ⟨p, [], ⟨id, some plan⟩ :: jobs⟩)
    (hsources : ∀ node, .node node ∈ plan.sources → node.index < p.graph.size)
    (h : Yields (do
      let sources ← plan.sources.foldlM (findSource install) []
      let outputs ← copyAll t.name t.env sources plan.destination
      modify (·.modifyTarget id fun t => { t with outputs, resolved := true })) p u q) :
    Changes .install ⟨p, [], ⟨id, some plan⟩ :: jobs⟩ ⟨q, [], jobs⟩ := by
  obtain ⟨nodes, r, hfind, h⟩ := yields_bind.mp h
  obtain ⟨outputs, r', hcopy, h⟩ := yields_bind.mp h
  obtain ⟨hfound, hnodes⟩ := findSources_changes hinstall hsound hsources (by simp) hfind
  have hcopied := copyAll_changes (Changes.sound hfound hsound) hnodes hcopy
  rw [yields_modify.mp h]
  refine (hfound.trans hcopied).tail ?_
  exact .finished (fun _ => rfl) fun _ _ => .inl rfl

/-- The nodes of a plan are valid when it is taken. -/
theorem Sound.plan {t : Target} {plan : InstallPlan} (hsound : Sound ⟨p, made, jobs⟩)
    (htarget : p.target? id = some t) (hplan : t.pending = some plan) :
    ∀ node, .node node ∈ plan.sources → node.index < p.graph.size :=
  fun node hnode => hsound.targets id t htarget node
    (Target.mem_nodes.mpr (.inr (.inl ⟨plan, hplan, mem_nodes_plan hnode⟩)))

/-- The depth bounds nothing but how far the targets are followed. -/
theorem installWithin_changes (depth : Nat) : Installs (installWithin depth) := by
  induction depth with
  | zero =>
      intro id jobs p q u hsound h
      obtain ⟨-, rfl⟩ := yields_pure.mp h
      exact .refl
  | succ depth ih =>
      intro id jobs p q u hsound h
      rw [installWithin, yields_get_bind] at h
      split at h
      · obtain ⟨-, rfl⟩ := yields_pure.mp h
        exact .refl
      next t htarget =>
      split at h
      · obtain ⟨-, rfl⟩ := yields_pure.mp h
        exact .refl
      next plan hplan =>
      rw [yields_set_bind] at h
      have htake : Changes .install _
          ⟨p.modifyTarget id fun t => { t with pending := none }, [], ⟨id, some plan⟩ :: jobs⟩ :=
        .single (.take htarget hplan)
      exact htake.trans (carryOut_changes ih (htake.sound hsound) (hsound.plan htarget hplan) h)

theorem install_changes {u : Unit} (hsound : Sound ⟨p, [], jobs⟩) (h : Yields (install id) p u q) :
    Changes .install ⟨p, [], jobs⟩ ⟨q, [], jobs⟩ := by
  rw [install, yields_get_bind] at h
  exact installWithin_changes _ id jobs p q u hsound h

theorem makeGroup_changes {name : String} {targets : List TargetId} {u : Unit}
    (h : Yields (makeGroup name targets) p u q) : Changes .install ⟨p, [], []⟩ ⟨q, [], []⟩ := by
  rw [makeGroup, yields_get_bind] at h
  rw [yields_set.mp h]
  exact .single (.group name fun _ => rfl)

/-! ### Commands -/

/-- What expanding a node's command comes to: nothing is changed, or the command
of its step is attached. -/
theorem expandNode_inv {node : NodeId} {u : Unit} (h : Yields (expandNode node) p u q) :
    (q = p ∧ ∀ step, p.graph.step? node = some step → step.command = none →
      expandStep p step = .ok none) ∨
    ∃ step tokens, p.graph.step? node = some step ∧ step.command = none ∧
      expandStep p step = .ok (some tokens) ∧
      q = { p with graph := p.graph.setCommand node tokens } := by
  rw [expandNode, yields_get_bind] at h
  split at h
  · next hnone =>
      obtain ⟨-, rfl⟩ := yields_pure.mp h
      refine .inl ⟨rfl, fun step hstep => ?_⟩
      rw [hnone] at hstep
      cases hstep
  next step hstep =>
  split at h
  · next hcommand =>
      obtain ⟨-, rfl⟩ := yields_pure.mp h
      refine .inl ⟨rfl, fun other hother hnone => ?_⟩
      rw [hstep] at hother
      cases hother
      rw [hnone] at hcommand
      cases hcommand
  next hcommand =>
  obtain ⟨result, r, hexpand, h⟩ := yields_bind.mp h
  obtain ⟨hexpand, rfl⟩ := yields_liftExcept.mp hexpand
  split at h
  · obtain ⟨-, rfl⟩ := yields_pure.mp h
    refine .inl ⟨rfl, fun other hother _ => ?_⟩
    rw [hstep] at hother
    cases hother
    exact hexpand
  · refine .inr ⟨step, _, hstep, ?_, hexpand, yields_set.mp h⟩
    simpa using hcommand

theorem expandNode_changes {node : NodeId} {u : Unit} (h : Yields (expandNode node) p u q) :
    Changes .expand ⟨p, [], []⟩ ⟨q, [], []⟩ := by
  rcases expandNode_inv h with ⟨rfl, -⟩ | ⟨step, tokens, hstep, -, -, rfl⟩
  · exact .refl
  · obtain ⟨path, hkind⟩ := NodeGraph.step?_eq_some_iff.mp hstep
    exact .single (.command hkind)

theorem expandCommands_changes {start : Nat} {u : Unit} (hsound : Sound ⟨p, [], []⟩)
    (h : Yields (expandCommands start) p u q) : Changes .expand ⟨p, [], []⟩ ⟨q, [], []⟩ := by
  rw [expandCommands, yields_get_bind] at h
  exact forM_changes (fun _ _ _ _ _ => expandNode_changes) hsound h

/-! ### Both phases -/

/-- A run of resolution, by the projects that its loops leave. -/
structure Runs (p : Project) (order : List TargetId)
    (compiled expanded copied installed q : Project) : Prop where
  ordered : p.buildOrder = .ok order
  compile : Yields (order.forM resolveTarget) p ⟨⟩ compiled
  expand : Yields (expandCommands 0) compiled () expanded
  install : Yields (order.forM install) expanded ⟨⟩ copied
  group : Yields (copied.groups.forM fun (name, targets) => makeGroup name targets) copied ⟨⟩
    installed
  finish : Yields (expandCommands expanded.graph.size) installed () q

theorem yields_resolveAll_iff {u : Unit} :
    Yields resolveAll p u q ↔ ∃ order compiled expanded copied installed,
      Runs p order compiled expanded copied installed q := by
  rw [resolveAll, yields_get_bind, yields_bind]
  constructor
  · rintro ⟨order, _, horder, h⟩
    obtain ⟨horder, rfl⟩ := yields_liftExcept.mp horder
    rw [yields_bind] at h
    obtain ⟨_, compiled, hcompile, h⟩ := h
    rw [yields_bind] at h
    obtain ⟨_, expanded, hexpand, h⟩ := h
    rw [yields_get_bind, yields_bind] at h
    obtain ⟨_, copied, hinstall, h⟩ := h
    rw [yields_get_bind, yields_bind] at h
    obtain ⟨_, installed, hgroups, hfinish⟩ := h
    exact ⟨order, compiled, expanded, copied, installed,
      horder, hcompile, hexpand, hinstall, hgroups, hfinish⟩
  · rintro ⟨order, compiled, expanded, copied, installed, h⟩
    refine ⟨order, p, yields_liftExcept.mpr ⟨h.ordered, rfl⟩, ?_⟩
    refine yields_bind.mpr ⟨⟨⟩, compiled, h.compile, ?_⟩
    refine yields_bind.mpr ⟨⟨⟩, expanded, h.expand, ?_⟩
    refine yields_get_bind.mpr (yields_bind.mpr ⟨⟨⟩, copied, h.install, ?_⟩)
    exact yields_get_bind.mpr (yields_bind.mpr ⟨⟨⟩, installed, h.group, h.finish⟩)

/-- A project that resolution has gone through: how it stood after each part. -/
structure Parts (p compiled expanded installed q : Project) : Prop where
  compile : Changes .compile ⟨p, [], []⟩ ⟨compiled, [], []⟩
  expand : Yields (expandCommands 0) compiled () expanded
  install : Changes .install ⟨expanded, [], []⟩ ⟨installed, [], []⟩
  finish : Yields (expandCommands expanded.graph.size) installed () q
  sound : Sound ⟨p, [], []⟩

/-- Every loop of the two phases is a path of changes of its phase. -/
theorem Runs.parts {order : List TargetId} {compiled expanded copied installed : Project}
    (hsound : Sound ⟨p, [], []⟩) (h : Runs p order compiled expanded copied installed q) :
    Parts p compiled expanded installed q := by
  have hcompiled : Changes .compile _ _ :=
    forM_changes (fun _ _ _ _ hs => resolveTarget_changes hs) hsound h.compile
  have hexpanded : Changes .expand _ _ := expandCommands_changes (hcompiled.sound hsound) h.expand
  have hcopied : Changes .install _ _ :=
    forM_changes (fun _ _ _ _ hs => install_changes hs)
      (hexpanded.sound (hcompiled.sound hsound)) h.install
  have hgrouped : Changes .install _ _ :=
    forM_changes (fun _ _ _ _ _ => makeGroup_changes)
      (hcopied.sound (hexpanded.sound (hcompiled.sound hsound))) h.group
  exact ⟨hcompiled, h.expand, hcopied.trans hgrouped, h.finish, hsound⟩

theorem resolveAll_inv {u : Unit} (hsound : Sound ⟨p, [], []⟩) (h : Yields resolveAll p u q) :
    ∃ compiled expanded installed, Parts p compiled expanded installed q := by
  obtain ⟨_, compiled, expanded, _, installed, hruns⟩ := yields_resolveAll_iff.mp h
  exact ⟨compiled, expanded, installed, hruns.parts hsound⟩

theorem resolve_inv {exist : Path → Bool} {u : Unit} (h : Yields (Project.resolve exist) p u q) :
    Yields resolveAll p () q := by
  obtain ⟨_, r, hall, henforce⟩ := yields_bind.mp h
  rw [Project.enforce, yields_get_bind] at henforce
  split at henforce
  · obtain ⟨-, rfl⟩ := yields_pure.mp henforce
    exact hall
  · split at henforce
    · exact absurd henforce not_yields_throw
    · obtain ⟨-, rfl⟩ := yields_pure.mp henforce
      exact hall

/-- Outside strict mode no problem stands in the way. -/
theorem yields_resolve_of_lenient {exist : Path → Bool} (hall : Yields resolveAll p () q)
    (hlenient : q.strict = false) : Yields (Project.resolve exist) p () q := by
  refine yields_bind.mpr ⟨(), q, hall, ?_⟩
  rw [Project.enforce, yields_get_bind]
  split
  · exact yields_pure.mpr ⟨rfl, rfl⟩
  · rw [hlenient]
    exact yields_pure.mpr ⟨rfl, rfl⟩

end BuildPlan.Resolve
