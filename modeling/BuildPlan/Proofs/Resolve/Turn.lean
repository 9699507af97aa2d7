import BuildPlan.Proofs.Build.Outcome
import BuildPlan.Proofs.Project.Reached
import BuildPlan.Proofs.Resolve.Scopes

/-!
# BuildPlan.Proofs.Resolve.Turn

The turn that a target has in the first phase. A turn changes no target but its
own, and targets have their turns in the build order: what a target reads of its
dependencies is what they have at the end of the phase. Targets that are not
installed keep it to the end of the run.
-/

namespace BuildPlan.Resolve

open Build Project

variable {p q r : Project} {s : Stage} {id other : TargetId} {env : EnvironmentId} {u : Unit}

/-! ### What stays as it was declared -/

theorem Fixed.map {β : Type} {f : Target → β} (hf : ∀ t, f t.declared = f t) (h : Fixed p s)
    (id : TargetId) : (s.project.target? id).map f = (p.target? id).map f := by
  have hread : ∀ o : Option Target, o.map f = (o.map Target.declared).map f := by
    intro o
    cases o <;> simp [hf]
  rw [hread, h.targets, ← hread]

theorem Fixed.dependenciesOf (h : Fixed p s) : s.project.dependenciesOf = p.dependenciesOf := by
  funext id
  exact congrArg (·.getD []) (h.map (f := Target.dependencies) (fun _ => rfl) id)

theorem Fixed.targetName (h : Fixed p s) : s.project.targetName = p.targetName := by
  funext id
  exact congrArg (·.getD "") (h.map (f := Target.name) (fun _ => rfl) id)

theorem Fixed.size (h : Fixed p s) : s.project.targets.size = p.targets.size := by
  have hnone : ∀ i, s.project.targets.size ≤ i ↔ p.targets.size ≤ i := by
    intro i
    have htarget := h.targets ⟨i⟩
    rw [← Array.getElem?_eq_none_iff, ← Array.getElem?_eq_none_iff]
    change s.project.target? ⟨i⟩ = none ↔ p.target? ⟨i⟩ = none
    rw [← Option.map_eq_none_iff (f := Target.declared), htarget, Option.map_eq_none_iff]
  have hle := (hnone p.targets.size).mpr (Nat.le_refl _)
  have hge := (hnone s.project.targets.size).mp (Nat.le_refl _)
  omega

theorem Fixed.targetIds (h : Fixed p s) : s.project.targetIds = p.targetIds := by
  rw [Project.targetIds, Project.targetIds, h.size]

theorem Fixed.transitiveDependencies (h : Fixed p s) (id : TargetId) :
    s.project.transitiveDependencies id = p.transitiveDependencies id := by
  rw [Project.transitiveDependencies, Project.transitiveDependencies, h.dependenciesOf, h.targetIds]

theorem Fixed.linkedTargets (h : Fixed p s) (id : TargetId) :
    linkedTargets s.project id = linkedTargets p id := by
  have hany : ∀ (test : TargetType → Bool) dep,
      (s.project.target? dep).any (fun t => test t.type) =
        (p.target? dep).any fun t => test t.type := by
    intro test dep
    have htype := h.map (f := Target.type) (fun _ => rfl) dep
    have hread : ∀ o : Option Target,
        o.any (fun t => test t.type) = (o.map Target.type).any test := by
      intro o
      cases o <;> rfl
    rw [hread, htype, ← hread]
  simp only [Resolve.linkedTargets, h.transitiveDependencies, hany TargetType.linksIntoDependents,
    hany (decide <| · = .object), hany (decide <| · ≠ .object)]

theorem Fixed.buildOrder (h : Fixed p s) : s.project.buildOrder = p.buildOrder := by
  have hbelow : s.project.positionsBelow = p.positionsBelow := by
    funext ids position
    rw [positionsBelow, positionsBelow, h.dependenciesOf]
  simp only [Project.buildOrder, orderAmong, cyclesAmong, h.targetIds, h.dependenciesOf,
    h.targetName, hbelow]

theorem Changes.keepsMade {phase : Phase} {s s' : Stage} (hchanges : Changes phase s s')
    (h : Sound s) : KeepsMade s.project.graph s'.project.graph := by
  induction hchanges with
  | refl => exact .refl _
  | tail hchanges hchange ih => exact ih.trans (hchange.keepsMade (Changes.sound hchanges h))

/-! ### Single turns -/

/-- The target has had its turn, or it has none. -/
def Settled (p : Project) (id : TargetId) : Prop :=
  ∀ t, p.target? id = some t →
    t.resolved = true ∨ t.type = .install ∨ t.type ≠ .interface ∧ t.env = none

/-- A settled target is left alone. -/
theorem Settled.yields (h : Settled p id) : Yields (resolveTarget id) p () p := by
  rw [resolveTarget, yields_get_bind]
  split
  · exact yields_pure.mpr ⟨rfl, rfl⟩
  next t ht =>
  split
  · exact yields_pure.mpr ⟨rfl, rfl⟩
  next hopen =>
  have hrest := (h t ht).resolve_left hopen
  split
  · next htype => simp [htype] at hrest
  · exact yields_pure.mpr ⟨rfl, rfl⟩
  · exact yields_pure.mpr ⟨rfl, rfl⟩
  · next henv hinterface hinstall =>
      rcases hrest with htype | ⟨-, hnone⟩
      · exact absurd htype hinstall
      · rw [henv] at hnone
        cases hnone

/-- The turn of an interface. -/
theorem run_resolveTarget_interface {t : Target} (ht : p.target? id = some t)
    (hopen : t.resolved = false) (htype : t.type = .interface) :
    (resolveTarget id).run.run p = (markResolved id).run.run p := by
  rw [resolveTarget, run_get_bind, ht]
  simp only [hopen, htype, Bool.false_eq_true, if_false]

/-- The turn of a target that compiles. -/
theorem run_resolveTarget_compile {t : Target} (ht : p.target? id = some t)
    (hopen : t.resolved = false) (htype : t.type.compiles = true) (henv : t.env = some env) :
    (resolveTarget id).run.run p = (compileTarget id env t.sources).run.run p := by
  rw [resolveTarget, run_get_bind, ht]
  cases hkind : t.type with
  | interface | install =>
      rw [hkind] at htype
      cases htype
  | staticLibrary | sharedLibrary | program | object =>
      simp only [hopen, hkind, henv, Bool.false_eq_true, if_false]

/-- A target that is not settled is an interface, or it compiles. -/
theorem settled_or_open (p : Project) (id : TargetId) :
    Settled p id ∨ ∃ t, p.target? id = some t ∧ t.resolved = false ∧
      (t.type = .interface ∨ ∃ env, t.type.compiles = true ∧ t.env = some env) := by
  cases ht : p.target? id with
  | none =>
      refine .inl fun t hsome => ?_
      rw [ht] at hsome
      cases hsome
  | some t =>
      have hsettled : (t.resolved = true ∨ t.type = .install ∨
          t.type ≠ .interface ∧ t.env = none) → Settled p id := by
        intro hor t' ht'
        rw [ht] at ht'
        cases ht'
        exact hor
      cases hresolved : t.resolved with
      | true => exact .inl (hsettled (.inl hresolved))
      | false =>
          cases htype : t.type with
          | install => exact .inl (hsettled (.inr (.inl htype)))
          | interface => exact .inr ⟨t, rfl, hresolved, .inl htype⟩
          | staticLibrary | sharedLibrary | program | object =>
              cases henv : t.env with
              | none => exact .inl (hsettled (.inr (.inr ⟨by simp [htype], henv⟩)))
              | some env =>
                  have hcompiles : t.type.compiles = true := by rw [htype]; rfl
                  exact .inr ⟨t, rfl, hresolved, .inr ⟨env, hcompiles, henv⟩⟩

/-! ### The output of a target -/

/-- What the output of a target is made to depend on. -/
def outputInputs (p : Project) (id : TargetId) (t : Target) : List (List NodeId) :=
  match t.type with
  | .staticLibrary => [t.objects, dependencyOutputs p id]
  | _ => [t.objects, dependencyOutputs p id, t.auxiliaryInputs.map (·.1)]

/-- The step that makes the output of a target. -/
def outputStep (p : Project) (id : TargetId) (t : Target) (env : EnvironmentId)
    (requirements : EffectiveRequirements) : BuildStep :=
  match t.type with
  | .staticLibrary => archiveStep p id t env requirements
  | _ => linkStep p id t env requirements

/-- The output of a library or program with objects is made once the requirements of
its step have been collected. -/
theorem run_produce {t : Target} (ht : p.target? id = some t) (hcompiles : t.type.compiles = true)
    (hmakes : t.type.makesOutput = true) (hobjects : t.objects ≠ []) :
    (produce id env).run.run p =
      (makeOutput id t (outputInputs ((effectiveRequirements id .link).run p).2 id t)
        (outputStep ((effectiveRequirements id .link).run p).2 id t env
          ((effectiveRequirements id .link).run p).1)).run.run
        ((effectiveRequirements id .link).run p).2 := by
  have hempty : t.objects.isEmpty = false := by simpa using hobjects
  rw [produce, run_get_bind, ht]
  unfold outputInputs outputStep
  cases hkind : t.type with
  | interface | install =>
      rw [hkind] at hcompiles
      cases hcompiles
  | object =>
      rw [hkind] at hmakes
      cases hmakes
  | staticLibrary | sharedLibrary | program =>
      simp only [hkind, hempty, Bool.false_eq_true, if_false]
      rw [run_liftState_bind, run_get_bind]

theorem run_produce_object {t : Target} (ht : p.target? id = some t) (htype : t.type = .object) :
    (produce id env).run.run p =
      (.ok (), p.modifyTarget id fun t => { t with outputs := t.objects }) := by
  rw [produce, run_get_bind, ht]
  simp only [htype]
  rfl

theorem run_produce_nothing (h : ∀ t, p.target? id = some t →
    t.type.compiles = true → t.type.makesOutput = true ∧ t.objects = []) :
    (produce id env).run.run p = (.ok (), p) := by
  rw [produce, run_get_bind]
  cases ht : p.target? id with
  | none => rfl
  | some t =>
      have hnothing := h t ht
      cases hkind : t.type with
      | interface | install =>
          simp only [hkind]
          rfl
      | object => simp [hkind, TargetType.compiles, TargetType.makesOutput] at hnothing
      | staticLibrary | sharedLibrary | program =>
          obtain ⟨-, hobjects⟩ := hnothing (by rw [hkind]; rfl)
          simp only [hkind, hobjects]
          rfl

/-! ### A turn leaves the other targets alone -/

theorem compileSource_graph {reqs : EffectiveRequirements} {c c' : Compilation} {source : NodeId}
    (h : Yields (compileSource id env reqs c source) p c' q) : ∃ graph, q = { p with graph } := by
  simp only [compileSource, yields_get_bind] at h
  split at h
  · exact ⟨p.graph, (yields_pure.mp h).2⟩
  split at h
  · exact ⟨p.graph, (yields_pure.mp h).2⟩
  split at h
  · exact ⟨p.graph, (yields_pure.mp h).2⟩
  split at h
  · exact ⟨p.graph, (yields_pure.mp h).2⟩
  · obtain ⟨object, r, hmake, h⟩ := yields_bind.mp h
    obtain ⟨-, graph, -, rfl⟩ := makeObject_inv hmake
    exact ⟨graph, (yields_pure.mp h).2⟩

theorem compileSources_graph {reqs : EffectiveRequirements} {sources : List NodeId}
    {c c' : Compilation} (h : Yields (sources.foldlM (compileSource id env reqs) c) p c' q) :
    ∃ graph, q = { p with graph } := by
  induction sources generalizing p c with
  | nil => exact ⟨p.graph, (yields_pure.mp h).2⟩
  | cons source rest ih =>
      rw [List.foldlM_cons, yields_bind] at h
      obtain ⟨_, r, hfirst, hrest⟩ := h
      obtain ⟨_, rfl⟩ := compileSource_graph hfirst
      obtain ⟨graph, rfl⟩ := ih hrest
      exact ⟨graph, rfl⟩

theorem makeOutput_touches {target : Target} {deps : List (List NodeId)} {step : BuildStep}
    (h : Yields (makeOutput id target deps step) p u q) : Touches id p q := by
  obtain ⟨graph, -, rfl⟩ := makeOutput_steps h
  refine (touches_withGraph id p graph).trans (touches_modifyTarget ?_ ?_ ?_ _ id)
  · exact fun _ => rfl
  · exact fun _ => rfl
  · exact fun _ => rfl

/-- The three ways in which a target that has been compiled is given its outputs. -/
theorem produce_cases (p : Project) (id : TargetId) :
    (∀ t, p.target? id = some t → t.type.compiles = true →
        t.type.makesOutput = true ∧ t.objects = []) ∨
      ∃ t, p.target? id = some t ∧ (t.type = .object ∨
        t.type.compiles = true ∧ t.type.makesOutput = true ∧ t.objects ≠ []) := by
  cases ht : p.target? id with
  | none => exact .inl fun _ hsome => by cases hsome
  | some t =>
      cases htype : t.type with
      | interface | install =>
          refine .inl fun t' ht' hcompiles => ?_
          cases ht'
          rw [htype] at hcompiles
          cases hcompiles
      | object => exact .inr ⟨t, rfl, .inl htype⟩
      | staticLibrary | sharedLibrary | program =>
          by_cases hobjects : t.objects = []
          · refine .inl fun t' ht' _ => ?_
            cases ht'
            exact ⟨by rw [htype]; rfl, hobjects⟩
          · exact .inr ⟨t, rfl, .inr ⟨by rw [htype]; rfl, by rw [htype]; rfl, hobjects⟩⟩

theorem produce_touches (h : Yields (produce id env) p u q) : Touches id p q := by
  rcases produce_cases p id with hnothing | ⟨t, ht, htype | ⟨hcompiles, hmakes, hobjects⟩⟩
  · rw [Yields, run_produce_nothing hnothing] at h
    cases h
    exact .refl id p
  · rw [Yields, run_produce_object ht htype] at h
    cases h
    refine touches_modifyTarget ?_ ?_ ?_ p id
    · exact fun _ => rfl
    · exact fun _ => rfl
    · exact fun _ => rfl
  · rw [Yields, run_produce ht hcompiles hmakes hobjects] at h
    exact (effectiveRequirements_touches id .link p).1.trans (makeOutput_touches h)

/-- What a target notes of its compiled sources. -/
def noteCompilation (c : Compilation) (t : Target) : Target :=
  { t with
    objects := c.objects
    auxiliaryInputs := c.auxiliary
    languages := Target.mergeLanguages t.languages c.languages }

/-- The steps of a turn: requirements are collected, the sources compiled and noted,
and the output is made. -/
theorem compileTarget_inv {sources : List NodeId}
    (h : Yields (compileTarget id env sources) p u q) :
    ∃ c graph made,
      Yields (sources.foldlM
          (compileSource id env ((effectiveRequirements id .compile).run p).1) {})
        ((effectiveRequirements id .compile).run p).2 c
        { ((effectiveRequirements id .compile).run p).2 with graph } ∧
      Yields (produce id env)
        ({ ((effectiveRequirements id .compile).run p).2 with graph }.modifyTarget id
          (noteCompilation c)) () made ∧
      q = made.modifyTarget id fun t => { t with resolved := true } := by
  rw [compileTarget, yields_liftState_bind, yields_bind] at h
  obtain ⟨c, s, hcompile, h⟩ := h
  obtain ⟨graph, rfl⟩ := compileSources_graph hcompile
  rw [yields_modify_bind, yields_bind] at h
  obtain ⟨_, made, hproduce, h⟩ := h
  exact ⟨c, graph, made, hcompile, hproduce, yields_modify.mp h⟩

/-- Before the output is made, the sources of the target are compiled and noted. -/
theorem noted_changes {sources : List NodeId} {c : Compilation} {graph : NodeGraph} {t : Target}
    (hsound : Sound ⟨p, [], []⟩) (ht : p.target? id = some t) (hopen : t.resolved = false)
    (htype : t.type ≠ .install) (hsources : ∀ source ∈ sources, source.index < p.graph.size)
    (h : Yields (sources.foldlM
        (compileSource id env ((effectiveRequirements id .compile).run p).1) {})
      ((effectiveRequirements id .compile).run p).2 c
      { ((effectiveRequirements id .compile).run p).2 with graph }) :
    Changes .compile ⟨p, [], []⟩
      ⟨{ ((effectiveRequirements id .compile).run p).2 with graph }.modifyTarget id
        (noteCompilation c), [], [⟨id, none⟩]⟩ := by
  have hstart : Changes .compile ⟨p, [], []⟩ ⟨p, [], [⟨id, none⟩]⟩ :=
    .single (.start ht hopen htype)
  have hreqs : Changes .compile ⟨p, [], []⟩ _ :=
    hstart.trans (effectiveRequirements_changes id .compile)
  obtain ⟨hobjects, hc⟩ := compileSources_changes (Changes.sound hreqs hsound)
    (fun source hsource =>
      Nat.lt_of_lt_of_le (hsources source hsource) (Changes.size_le hreqs hsound))
    ⟨by simp, by simp⟩ h
  refine (hreqs.trans hobjects).tail ?_
  exact .note (fun _ => ⟨rfl, rfl, rfl, rfl⟩) fun _ node hnode => .inr (hc.objects node hnode)

theorem compileTarget_others {sources : List NodeId}
    (h : Yields (compileTarget id env sources) p u q) (hother : other ≠ id) :
    q.target? other = p.target? other := by
  obtain ⟨c, graph, made, -, hproduce, rfl⟩ := compileTarget_inv h
  rw [target?_modifyTarget, if_neg hother, (produce_touches hproduce).others other hother,
    target?_modifyTarget, if_neg hother]
  exact (effectiveRequirements_touches id .compile p).1.others other hother

theorem resolveTarget_others (h : Yields (resolveTarget id) p u q) (hother : other ≠ id) :
    q.target? other = p.target? other := by
  rcases settled_or_open p id with hsettled | ⟨t, ht, hopen, htype | ⟨env, htype, henv⟩⟩
  · rw [Yields, hsettled.yields] at h
    cases h
    rfl
  · rw [Yields, run_resolveTarget_interface ht hopen htype] at h
    rw [yields_modify.mp h, target?_modifyTarget, if_neg hother]
  · rw [Yields, run_resolveTarget_compile ht hopen htype henv] at h
    exact compileTarget_others h hother

theorem resolveTargets_others {order : List TargetId} (h : Yields (order.forM resolveTarget) p u q)
    (hother : other ∉ order) : q.target? other = p.target? other := by
  induction order generalizing p with
  | nil => rw [(yields_pure.mp h).2]
  | cons id rest ih =>
      obtain ⟨hne, hrest⟩ := not_or.mp (mt List.mem_cons.mpr hother)
      obtain ⟨_, r, hfirst, hlast⟩ := yields_bind.mp h
      rw [ih hlast hrest, resolveTarget_others hfirst hne]

/-! ### Turns within the first phase -/

/-- The turn of a target in the first phase, which leads from `p` to `q`: how the
project stood when it came and when it was over. -/
structure Turn (order : List TargetId) (p : Project) (id : TargetId) (a b q : Project) : Prop where
  turn : Yields (resolveTarget id) a () b
  split : ∃ before after, order = before ++ id :: after ∧
    Yields (before.forM resolveTarget) p ⟨⟩ a ∧ Yields (after.forM resolveTarget) b ⟨⟩ q

theorem exists_turn {order : List TargetId} (h : Yields (order.forM resolveTarget) p ⟨⟩ q)
    (hid : id ∈ order) : ∃ a b, Turn order p id a b q := by
  obtain ⟨before, after, rfl⟩ := List.append_of_mem hid
  obtain ⟨a, hbefore, h⟩ := yields_forM_append.mp h
  obtain ⟨_, b, hturn, hafter⟩ := yields_bind.mp h
  exact ⟨a, b, hturn, before, after, rfl, hbefore, hafter⟩

/-- Of two turns one is over before the other one comes. -/
theorem exists_turns {order : List TargetId} (h : Yields (order.forM resolveTarget) p ⟨⟩ q)
    (hid : id ∈ order) (hother : other ∈ order) (hne : id ≠ other) :
    ∃ a b a' b', Turn order p id a b q ∧ Turn order p other a' b' q ∧
      ((∃ between : List TargetId, Yields (between.forM resolveTarget) b ⟨⟩ a') ∨
        ∃ between : List TargetId, Yields (between.forM resolveTarget) b' ⟨⟩ a) := by
  obtain ⟨before, after, rfl⟩ := List.append_of_mem hid
  obtain ⟨a, hbefore, hrest⟩ := yields_forM_append.mp h
  obtain ⟨_, b, hturn, hafter⟩ := yields_bind.mp hrest
  have hmem : other ∈ before ∨ other ∈ after := by
    rcases List.mem_append.mp hother with hmem | hmem
    · exact .inl hmem
    · exact .inr ((List.mem_cons.mp hmem).resolve_left hne.symm)
  rcases hmem with hmem | hmem
  · obtain ⟨first, between, rfl⟩ := List.append_of_mem hmem
    obtain ⟨a', hfirst, hlater⟩ := yields_forM_append.mp hbefore
    obtain ⟨_, b', hturn', hbetween⟩ := yields_bind.mp hlater
    refine ⟨a, b, a', b', ⟨hturn, _, _, rfl, hbefore, hafter⟩,
      ⟨hturn', first, between ++ id :: after, by simp, hfirst, ?_⟩, .inr ⟨between, hbetween⟩⟩
    exact yields_forM_append.mpr ⟨a, hbetween, hrest⟩
  · obtain ⟨between, last, rfl⟩ := List.append_of_mem hmem
    obtain ⟨a', hbetween, hlater⟩ := yields_forM_append.mp hafter
    obtain ⟨_, b', hturn', hlast⟩ := yields_bind.mp hlater
    refine ⟨a, b, a', b', ⟨hturn, _, _, rfl, hbefore, hafter⟩,
      ⟨hturn', before ++ id :: between, last, by simp, ?_, hlast⟩, .inl ⟨between, hbetween⟩⟩
    exact yields_forM_append.mpr ⟨a, hbefore, yields_bind.mpr ⟨⟨⟩, b, hturn, hbetween⟩⟩

theorem resolveTargets_changes {order : List TargetId} (hsound : Sound ⟨p, [], []⟩)
    (h : Yields (order.forM resolveTarget) p ⟨⟩ q) : Changes .compile ⟨p, [], []⟩ ⟨q, [], []⟩ :=
  forM_changes (fun _ _ _ _ hs => resolveTarget_changes hs) hsound h

section Turn

variable {order : List TargetId} {a b : Project}

theorem Turn.before (h : Turn order p id a b q) (hsound : Sound ⟨p, [], []⟩) :
    Changes .compile ⟨p, [], []⟩ ⟨a, [], []⟩ := by
  obtain ⟨_, _, -, hbefore, -⟩ := h.split
  exact resolveTargets_changes hsound hbefore

theorem Turn.within (h : Turn order p id a b q) (hsound : Sound ⟨p, [], []⟩) :
    Changes .compile ⟨a, [], []⟩ ⟨b, [], []⟩ :=
  resolveTarget_changes (Changes.sound (h.before hsound) hsound) h.turn

theorem Turn.after (h : Turn order p id a b q) (hsound : Sound ⟨p, [], []⟩) :
    Changes .compile ⟨b, [], []⟩ ⟨q, [], []⟩ := by
  obtain ⟨_, _, -, -, hafter⟩ := h.split
  exact resolveTargets_changes (Changes.sound ((h.before hsound).trans (h.within hsound)) hsound)
    hafter

/-- Before its turn a target is as it was declared. -/
theorem Turn.waiting (h : Turn order p id a b q) (hnodup : order.Nodup) :
    a.target? id = p.target? id := by
  obtain ⟨before, after, rfl, hbefore, -⟩ := h.split
  refine resolveTargets_others hbefore fun hmem => ?_
  exact List.disjoint_of_nodup_append hnodup hmem List.mem_cons_self

/-- After its turn a target is left alone. -/
theorem Turn.kept (h : Turn order p id a b q) (hnodup : order.Nodup) :
    q.target? id = b.target? id := by
  obtain ⟨before, after, rfl, -, hafter⟩ := h.split
  refine resolveTargets_others hafter fun hmem => ?_
  exact (List.nodup_cons.mp hnodup.of_append_right).1 hmem

theorem idxOf_lt_of_reaches (horder : p.buildOrder = .ok order) {dep : TargetId}
    (hpath : p.Reaches id dep) : order.idxOf dep < order.idxOf id := by
  induction hpath with
  | single hedge => exact idxOf_lt_of_buildOrder horder hedge
  | tail _ hedge ih => exact (idxOf_lt_of_buildOrder horder hedge).trans ih

theorem nodup_buildOrder (horder : p.buildOrder = .ok order) : order.Nodup :=
  (buildOrder_ok horder).1.nodup_iff.mpr (nodup_targetIds p)

theorem mem_buildOrder (horder : p.buildOrder = .ok order) {t : Target}
    (ht : p.target? id = some t) : id ∈ order := by
  rw [(buildOrder_ok horder).1.mem_iff, mem_targetIds]
  exact (Array.getElem?_eq_some_iff.mp ht).1

/-- When a target has its turn, those that it depends on have had theirs. -/
theorem Turn.deps (h : Turn order p id a b q) (horder : p.buildOrder = .ok order) {dep : TargetId}
    (hpath : p.Reaches id dep) : a.target? dep = q.target? dep := by
  have hnodup := nodup_buildOrder horder
  have hlt := idxOf_lt_of_reaches horder hpath
  have hturn := h.turn
  obtain ⟨before, after, rfl, -, hafter⟩ := h.split
  have hid : id ∉ before := fun hmem =>
    List.disjoint_of_nodup_append hnodup hmem List.mem_cons_self
  have hdep : dep ∈ before := by
    by_contra hdep
    rw [List.idxOf_append_of_notMem hid, List.idxOf_append_of_notMem hdep,
      List.idxOf_cons_self] at hlt
    omega
  have hrest : dep ∉ id :: after := fun hmem => List.disjoint_of_nodup_append hnodup hdep hmem
  have hlater : Yields ((id :: after).forM resolveTarget) a ⟨⟩ q :=
    yields_bind.mpr ⟨⟨⟩, b, hturn, hafter⟩
  exact (resolveTargets_others hlater hrest).symm

end Turn

/-! ### What targets keep after the first phase -/

/-- Only install targets have a plan. -/
theorem Ledger.pending_of_type (hfresh : p.Fresh) (h : Ledger p s) {t : Target}
    (ht : s.project.target? id = some t) (htype : t.type ≠ .install) : t.pending = none := by
  refine Option.eq_none_iff_forall_ne_some.mpr fun plan hplan => htype ?_
  obtain ⟨t₀, ht₀, -, hinstall⟩ := hfresh.type_of_plan? (h.turns.pending id t plan ht hplan).2
  obtain ⟨_, hsome, hdeclared⟩ := h.fixed.declared ht
  rw [ht₀] at hsome
  cases hsome
  rw [Target.type_of_declared hdeclared, hinstall]

/-- A target that is not installed has nothing to do in the second phase. -/
theorem Runs.target? {order : List TargetId} {compiled expanded copied installed : Project}
    (h : Runs p order compiled expanded copied installed q) (hfresh : p.Fresh)
    (htype : ∀ t, p.target? id = some t → t.type ≠ .install) :
    q.target? id = compiled.target? id := by
  have hparts := h.parts hfresh.sound
  have hcompiled := Changes.ledger hfresh hparts.compile (.of_fresh hfresh)
  cases ht : compiled.target? id with
  | none =>
      have htarget := hparts.after.fixed.targets id
      rw [ht, Option.map_none, Option.map_eq_none_iff] at htarget
      exact htarget
  | some t =>
      obtain ⟨t₀, ht₀, hdeclared⟩ := hcompiled.fixed.declared ht
      have hinstall : t.type ≠ .install := by
        rw [Target.type_of_declared hdeclared]
        exact htype t₀ ht₀
      exact (hparts.after.idle id t ht (hcompiled.pending_of_type hfresh ht hinstall)).1

end BuildPlan.Resolve
