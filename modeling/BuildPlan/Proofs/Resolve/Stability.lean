import BuildPlan.Proofs.Resolve.Repeat

/-!
# BuildPlan.Proofs.Resolve.Stability

Resolution that has succeeded, when it is repeated. The targets have had their
turns, the plans have been taken and the groups have been made, so all that is left
to do is to expand commands that the first run left out.
-/

namespace BuildPlan.Resolve

open Build NodeGraph Project

variable {p q r : Project} {order : List TargetId}
  {exist exist' : Path → Bool} {u : Unit}

/-- Everything has been done, unless commands are left. -/
structure Complete (order : List TargetId) (q : Project) : Prop where
  ordered : q.buildOrder = .ok order
  settled : ∀ id ∈ order, Settled q id
  plans : ∀ id ∈ order, q.plan? id = none
  groups : ∀ entry ∈ q.groups, GroupMade q entry.1 entry.2

/-- A run that succeeds does everything. -/
theorem Runs.complete {compiled expanded copied installed : Project}
    (hknown : p.graph.GroupsKnown)
    (h : Runs p order compiled expanded copied installed q) : Complete order q := by
  have hcompiled : Advances p compiled := (leads_forM advances_resolveTarget _).yields h.compile
  have hexpanded : Advances compiled expanded := (advances_expandCommands _ _).yields h.expand
  have hcopied : Advances expanded copied := (leads_forM advances_install _).yields h.install
  have hinstalled : Advances copied installed :=
    (leads_forM (fun _ => advances_makeGroup _ _) _).yields h.group
  have hfinish : Advances installed q := (advances_expandCommands _ _).yields h.finish
  have hafter : Advances copied q := IsTrans.trans _ _ _ hinstalled hfinish
  have hbefore : Advances p copied :=
    IsTrans.trans _ _ _ hcompiled (IsTrans.trans _ _ _ hexpanded hcopied)
  have hlater : Advances compiled q :=
    IsTrans.trans _ _ _ hexpanded (IsTrans.trans _ _ _ hcopied hafter)
  refine ⟨(hbefore.fixed.trans hafter.fixed).buildOrder.trans h.ordered, fun id hid => ?_,
    fun id hid => ?_, fun entry hentry => ?_⟩
  · exact hlater.settled id (resolveTargets_settled h.compile id hid)
  · exact hafter.plans id (installs_plan? h.install id hid)
  · rw [hafter.labels] at hentry
    exact (makeGroups_made (hbefore.graph.known hknown) h.group entry hentry).mono
      ((leads_expandCommands _ _).yields h.finish).same.keepsGroups

/-- Commands that are gained leave nothing else to do. -/
theorem Complete.gains (h : Complete order q) (hgains : GainsCommands q r) : Complete order r := by
  have hproject := hgains.project
  have hkeeps := hgains.same.keepsGroups
  have hfixed : Fixed q ⟨r, [], []⟩ := by
    rw [hproject]
    exact ⟨rfl, rfl, fun _ => rfl⟩
  refine ⟨hfixed.buildOrder.trans h.ordered, fun id hid => ?_, fun id hid => ?_,
    fun entry hentry => ?_⟩
  · rw [hproject]
    exact h.settled id hid
  · rw [hproject]
    exact h.plans id hid
  · rw [hproject] at hentry
    exact (h.groups entry hentry).mono hkeeps

theorem Complete.leads_resolveAll (h : Complete order q) : Leads GainsCommands resolveAll q := by
  refine leads_get_bind (leads_idle_bind (yields_liftExcept.mpr ⟨h.ordered, rfl⟩) ?_)
  refine leads_idle_bind (turns_idle h.settled) ?_
  refine (leads_expandCommands 0 q).bind fun _ r hexpand => leads_get_bind ?_
  have hr := h.gains ((leads_expandCommands 0 q).yields hexpand)
  refine leads_idle_bind (installs_idle hr.plans) (leads_get_bind ?_)
  exact leads_idle_bind (groups_idle hr.groups) (leads_expandCommands _ r)

/-- Without a command that cannot be expanded, the next run of both phases succeeds. -/
theorem Complete.again (h : Complete order q) (hnone : q.firstCommandError? = none) :
    ∃ r, Yields resolveAll q () r ∧ GainsCommands q r := by
  have hall : (q.graph.ids.drop 0).findSome? q.commandError? = none := hnone
  obtain ⟨mid, hexpand, herrors⟩ := exists_yields_expandCommands hall
  have hrest : (mid.graph.ids.drop mid.graph.size).findSome? mid.commandError? = none := by
    rw [List.findSome?_eq_none_iff]
    intro id hid
    rw [← herrors.first] at hnone
    exact List.findSome?_eq_none_iff.mp hnone id (List.mem_of_mem_drop hid)
  obtain ⟨r, hfinish, -⟩ := exists_yields_expandCommands hrest
  have hmid := h.gains ((leads_expandCommands 0 q).yields hexpand)
  have hruns : Runs q order q mid mid mid r :=
    ⟨h.ordered, turns_idle h.settled, hexpand, installs_idle hmid.plans, groups_idle hmid.groups,
      hfinish⟩
  have hyields : Yields resolveAll q () r :=
    yields_resolveAll_iff.mpr ⟨order, q, mid, mid, mid, hruns⟩
  exact ⟨r, hyields, h.leads_resolveAll.yields hyields⟩

/-- Resolution is stable. Once it has succeeded, the next run changes nothing but commands
that were absent, which may be gained, and this holds also if that run fails or finds other
files on disk. The index of groups leads to nodes in every project
(`NodeGraph.Arises.groupsKnown`, `groupsKnown_resolve`). -/
theorem resolve_stable (hknown : p.graph.GroupsKnown) (h : Yields (Project.resolve exist) p u q) :
    GainsCommands q ((Project.resolve exist').run.run q).2 := by
  obtain ⟨order, _, _, _, _, hruns⟩ := yields_resolveAll_iff.mp (resolve_inv h)
  have hleads : Leads GainsCommands (Project.resolve exist') q :=
    (hruns.complete hknown).leads_resolveAll.bind fun _ r _ => leads_enforce exist' r
  exact hleads

/-- The copy at `b`, whose node was there before, has no command after the first run and gains
it in the second one. -/
theorem resolve_stable_copying :
    (copying ["b"]).graph.GroupsKnown ∧
      Yields (Project.resolve fun _ => true) (copying ["b"]) () (copied ["b"]) ∧
      GainsCommands (copied ["b"]) ((Project.resolve fun _ => true).run.run (copied ["b"])).2 ∧
      ((copied ["b"]).graph.step? ⟨1⟩).map BuildStep.command = some none ∧
      ((((Project.resolve fun _ => true).run.run (copied ["b"])).2.graph.step? ⟨1⟩).map
        BuildStep.command) = some (some [⟨[.text "cp"]⟩]) := by
  have hknown : (copying ["b"]).graph.GroupsKnown :=
    ((Arises.empty.file ⟨"a"⟩).file ⟨"b"⟩).groupsKnown
  have hyields : Yields (Project.resolve fun _ => true) (copying ["b"]) () (copied ["b"]) :=
    yields_copied (by cbv)
  exact ⟨hknown, hyields, resolve_stable hknown hyields, by cbv, by cbv⟩

end BuildPlan.Resolve
