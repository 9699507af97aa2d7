import BuildPlan.Proofs.Resolve.Failure

/-!
# BuildPlan.Proofs.Resolve.Installs

Install targets are carried out once. A plan that has been taken never comes back,
also if carrying it out fails. That happens only to a target that renames and finds
several sources.
-/

namespace BuildPlan.Resolve

open Build Project

variable {p q r : Project} {phase : Phase} {s s' : Stage} {jobs jobs' : List Job}
  {id other : TargetId} {e : BuildError} {t : Target} {plan : InstallPlan} {depth : Nat} {u : Unit}

/-! ### Plans -/

theorem plan?_modifyTarget {f : Target → Target}
    (hf : ∀ t, (f t).pending = none ∨ (f t).pending = t.pending)
    (h : (p.modifyTarget id f).plan? other = some plan) : p.plan? other = some plan := by
  obtain ⟨t', ht', hplan⟩ := Option.bind_eq_some_iff.mp h
  obtain ⟨t, ht, rfl⟩ := exists_target_of_modifyTarget ht'
  refine Option.bind_eq_some_iff.mpr ⟨t, ht, ?_⟩
  split at hplan
  · rcases hf t with hnone | hsame
    · rw [hnone] at hplan
      cases hplan
    · rwa [hsame] at hplan
  · exact hplan

/-- Plans are taken and never made. -/
theorem Changes.plan? (hchanges : Changes phase s s')
    (h : s'.project.plan? id = some plan) : s.project.plan? id = some plan := by
  induction hchanges with
  | refl => exact h
  | tail _ hchange ih =>
      refine ih ?_
      cases hchange with
      | note hnotes => exact plan?_modifyTarget (fun t => .inr (hnotes t).pending) h
      | finish _ hpending => exact plan?_modifyTarget (fun t => .inr (hpending t)) h
      | take => exact plan?_modifyTarget (fun _ => .inl rfl) h
      | start | object | output | file | copy | group | command => exact h

theorem Changes.plan?_eq_none (hchanges : Changes phase s s') (h : s.project.plan? id = none) :
    s'.project.plan? id = none := by
  refine Option.eq_none_iff_forall_ne_some.mpr fun plan hplan => ?_
  rw [hchanges.plan? hplan] at h
  cases h

theorem plan?_taken (p : Project) (id : TargetId) :
    (p.modifyTarget id fun t => { t with pending := none }).plan? id = none := by
  rw [Project.plan?, target?_modifyTarget, if_pos rfl]
  cases p.target? id <;> rfl

/-! ### Installs that go well -/

/-- A target without a plan is left alone. -/
theorem run_installWithin_idle (h : p.plan? id = none) (depth : Nat) :
    (installWithin depth id).run.run p = (.ok (), p) := by
  cases depth with
  | zero => rfl
  | succ depth =>
      rw [installWithin, run_get_bind]
      cases ht : p.target? id with
      | none => rfl
      | some t =>
          have hpending : t.pending = none := by
            rw [Project.plan?, ht] at h
            exact h
          simp only [hpending]
          rfl

theorem installs_idle {ids : List TargetId} (h : ∀ id ∈ ids, p.plan? id = none) :
    Yields (ids.forM install) p ⟨⟩ p := by
  induction ids with
  | nil => exact yields_pure.mpr ⟨rfl, rfl⟩
  | cons id rest ih =>
      refine yields_bind.mpr ⟨⟨⟩, p, ?_, ih fun other hother => h other (.tail id hother)⟩
      rw [install, yields_get_bind]
      exact run_installWithin_idle (h id List.mem_cons_self) _

/-! ### Copies -/

/-- A copy can always be made. -/
theorem not_fails_copyNode {env : Option EnvironmentId} {source : NodeId} {path : Path}
    (hindexed : p.graph.Indexed) : ¬ Fails (copyNode env source path) p e q := by
  rw [copyNode, fails_get_bind]
  dsimp only
  rw [fails_set_bind]
  intro hfails
  rcases fails_bind.mp hfails with hstep | ⟨_, _, -, hpure⟩
  · exact not_fails_setProductStep hindexed (Node.kind_depends [source] []) hstep
  · exact not_fails_pure hpure

theorem not_fails_copyInto {dir : Path} (hdir : plan.destination = .directory dir)
    {env : Option EnvironmentId} {sources made : List NodeId}
    (hsound : Sound ⟨p, made, ⟨id, some plan⟩ :: jobs⟩)
    (hsources : ∀ source ∈ sources, source.index < p.graph.size) :
    ¬ Fails (sources.mapM fun source => do
      copyNode env source (dir.join (copiedName (← get).graph source))) p e q := by
  induction sources generalizing p made with
  | nil =>
      rw [List.mapM_nil]
      exact not_fails_pure
  | cons source rest ih =>
      rw [List.mapM_cons]
      intro hfails
      rcases fails_bind.mp hfails with hcopy | ⟨copy, r, hcopy, hrest⟩
      · rw [fails_get_bind] at hcopy
        exact not_fails_copyNode hsound.indexed hcopy
      have hplace :
          dir.join (copiedName p.graph source) = plan.destination.place p.graph source := by
        rw [hdir]
        rfl
      rw [yields_get_bind, hplace] at hcopy
      have hchanges : Changes .install _ ⟨r, made ++ [copy], ⟨id, some plan⟩ :: jobs⟩ :=
        copyNode_changes (hsources source List.mem_cons_self) hcopy
      rcases fails_bind.mp hrest with hrest | ⟨_, _, -, hpure⟩
      · refine ih (hchanges.sound hsound) (fun other hother => ?_) hrest
        exact Nat.lt_of_lt_of_le (hsources other (List.mem_cons_of_mem _ hother))
          (hchanges.size_le hsound)
      · exact not_fails_pure hpure

/-- Copying fails only where several sources would take one name, and changes nothing
then. -/
theorem fails_copyAll {name : String} {env : Option EnvironmentId} {sources : List NodeId}
    (hsound : Sound ⟨p, [], ⟨id, some plan⟩ :: jobs⟩)
    (hsources : ∀ source ∈ sources, source.index < p.graph.size)
    (h : Fails (copyAll name env sources plan.destination) p e q) :
    e = .target name (.tooManySources sources.length) ∧ q = p := by
  unfold copyAll at h
  split at h
  · next hdir => exact absurd h (not_fails_copyInto hdir hsound hsources)
  split at h
  · exact absurd h not_fails_pure
  · rcases fails_bind.mp h with hcopy | ⟨_, _, -, hpure⟩
    · exact absurd hcopy (not_fails_copyNode hsound.indexed)
    · exact absurd hpure not_fails_pure
  · exact fails_throw.mp h

/-! ### Installs that fail -/

/-- What a failure leaves of an install target: the plan that it had has been taken. -/
structure Spent (p : Project) (jobs : List Job) (id : TargetId) (q : Project) : Prop where
  planned : ∃ plan, p.plan? id = some plan
  taken : q.plan? id = none
  changes : ∃ made jobs', Changes .install ⟨p, [], jobs⟩ ⟨q, made, jobs'⟩

theorem Spent.earlier (h : Spent r jobs' id q)
    (hchanges : Changes .install ⟨p, [], jobs⟩ ⟨r, [], jobs'⟩) : Spent p jobs id q := by
  obtain ⟨⟨plan, hplan⟩, htaken, made, jobs'', hrest⟩ := h
  exact ⟨⟨plan, hchanges.plan? hplan⟩, htaken, made, jobs'', hchanges.trans hrest⟩

/-- A failure to install: a target, whose plan is spent, has too many sources. -/
def Refused (p : Project) (jobs : List Job) (e : BuildError) (q : Project) : Prop :=
  ∃ id count, e = .target (p.targetName id) (.tooManySources count) ∧ Spent p jobs id q

theorem Refused.earlier (h : Refused r jobs' e q)
    (hchanges : Changes .install ⟨p, [], jobs⟩ ⟨r, [], jobs'⟩) : Refused p jobs e q := by
  obtain ⟨id, count, he, hspent⟩ := h
  refine ⟨id, count, ?_, hspent.earlier hchanges⟩
  rw [he, hchanges.fixed.targetName]

/-- Whenever installing a target fails, one has too many sources. -/
def Refuses (install : TargetId → Build Unit) : Prop :=
  ∀ id jobs p e q, Sound ⟨p, [], jobs⟩ → Fails (install id) p e q → Refused p jobs e q

theorem fails_findSources {install : TargetId → Build Unit} {sources : List InstallSource}
    (hinstall : Installs install) (hrefuses : Refuses install) (hsound : Sound ⟨p, [], jobs⟩)
    (hsources : ∀ node, .node node ∈ sources → node.index < p.graph.size)
    (h : Fails (sources.foldlM (findSource install) []) p e q) : Refused p jobs e q := by
  obtain ⟨before, source, after, found, r, rfl, hbefore, hfails⟩ := fails_foldlM.mp h
  obtain ⟨hchanges, -⟩ := findSources_changes hinstall hsound
    (fun node hnode => hsources node (List.mem_append_left _ hnode)) (by simp) hbefore
  cases source with
  | target dep =>
      rcases fails_bind.mp hfails with hdep | ⟨_, _, -, hrest⟩
      · exact (hrefuses dep jobs r e q (Changes.sound hchanges hsound) hdep).earlier hchanges
      · rw [fails_get_bind] at hrest
        exact absurd hrest not_fails_pure
  | node node => exact absurd hfails not_fails_pure
  | path path =>
      rw [findSource, fails_modifyGet_bind] at hfails
      exact absurd hfails not_fails_pure

theorem refuses_installWithin (depth : Nat) : Refuses (installWithin depth) := by
  induction depth with
  | zero =>
      intro id jobs p e q hsound h
      exact absurd h not_fails_pure
  | succ depth ih =>
      intro id jobs p e q hsound h
      rw [installWithin, fails_get_bind] at h
      split at h
      · exact absurd h not_fails_pure
      next t ht =>
      split at h
      · exact absurd h not_fails_pure
      next plan hplan =>
      rw [fails_set_bind] at h
      have htake : Changes .install ⟨p, [], jobs⟩
          ⟨p.modifyTarget id fun t => { t with pending := none }, [], ⟨id, some plan⟩ :: jobs⟩ :=
        .single (.take ht hplan)
      have hsound' := htake.sound hsound
      have hsources := hsound.plan ht hplan
      rcases fails_bind.mp h with hfind | ⟨nodes, r, hfind, hrest⟩
      · -- a target among the sources is refused
        exact (fails_findSources (installWithin_changes depth) ih hsound' hsources hfind).earlier
          htake
      obtain ⟨hfound, hnodes⟩ :=
        findSources_changes (installWithin_changes depth) hsound' hsources (by simp) hfind
      rcases fails_bind.mp hrest with hcopy | ⟨_, _, -, hmodify⟩
      · -- the target itself is refused
        obtain ⟨rfl, rfl⟩ := fails_copyAll (Changes.sound hfound hsound') hnodes hcopy
        refine ⟨id, nodes.length, ?_, ⟨plan, ?_⟩, ?_, [], _, htake.trans hfound⟩
        · rw [targetName, ht, Option.map_some, Option.getD_some]
        · rw [Project.plan?, ht, Option.bind_some, hplan]
        · exact hfound.plan?_eq_none (plan?_taken p id)
      · exact absurd hmodify not_fails_modify

/-- Installing the targets one by one fails at the first one that is refused. -/
theorem fails_installs {ids : List TargetId} (hsound : Sound ⟨p, [], []⟩)
    (h : Fails (ids.forM install) p e q) : Refused p [] e q := by
  obtain ⟨before, id, after, r, rfl, hbefore, hfails⟩ := fails_forM.mp h
  have hchanges : Changes .install ⟨p, [], []⟩ ⟨r, [], []⟩ :=
    forM_changes (fun _ _ _ _ hs => install_changes hs) hsound hbefore
  rw [install, fails_get_bind] at hfails
  exact (refuses_installWithin _ id [] r e q (hchanges.sound hsound) hfails).earlier hchanges

end BuildPlan.Resolve
