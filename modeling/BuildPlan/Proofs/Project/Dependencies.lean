import BuildPlan.Proofs.Build
import BuildPlan.Proofs.Graph.NamedCycle
import BuildPlan.Proofs.Graph.Order
import BuildPlan.Proofs.Graph.Traversal
import BuildPlan.Resolve

/-!
# BuildPlan.Proofs.Project.Dependencies

What the cycles that a project reports say about the dependencies of its
targets, and which order its targets are built in.
-/

namespace BuildPlan.Project

open BuildPlan.Graph

/-- One target depends on another, and both are among `ids`. -/
def DependsOn (p : Project) (ids : List TargetId) : TargetId → TargetId → Prop :=
  Edge p.dependenciesOf ids

/-! ### Target ids -/

@[simp] theorem length_targetIds (p : Project) : p.targetIds.length = p.targets.size := by
  simp [targetIds]

@[simp] theorem mem_targetIds {p : Project} {id : TargetId} :
    id ∈ p.targetIds ↔ id.index < p.targets.size := by
  obtain ⟨i⟩ := id
  simp [targetIds]

theorem nodup_targetIds (p : Project) : p.targetIds.Nodup :=
  List.nodup_range.map fun _ _ h => congrArg TargetId.index h

theorem targetIds_getElem? {p : Project} {i : Nat} (h : i < p.targets.size) :
    p.targetIds[i]? = some ⟨i⟩ := by
  simp [targetIds, h]

theorem idxOf_targetIds {p : Project} {id : TargetId} (h : id ∈ p.targetIds) :
    p.targetIds.idxOf id = id.index := by
  have hlt : id.index < p.targetIds.length := by simpa using mem_targetIds.mp h
  have hget : p.targetIds[id.index] = id := by simp [targetIds]
  have hidx := (nodup_targetIds p).idxOf_getElem id.index hlt
  rwa [hget] at hidx

/-! ### Reported cycles -/

section Cycles

variable {p : Project} {ids : List TargetId} {walk other : List TargetId} {names : List String}

/-- A cycle is reported by its names, closed. -/
def Reports (p : Project) (ids walk : List TargetId) : Prop :=
  SimpleCycle (p.DependsOn ids) walk ∧ StartsAtLeast (walk.map p.targetName) ∧
    close (walk.map p.targetName) ∈ p.cyclesAmong ids

theorem nodup_eraseDups {α : Type} [BEq α] [LawfulBEq α] (l : List α) : l.eraseDups.Nodup := by
  match l with
  | [] => exact List.nodup_nil
  | a :: l =>
      rw [List.eraseDups_cons, List.nodup_cons]
      exact ⟨by simp [List.mem_eraseDups], nodup_eraseDups _⟩
termination_by l.length
decreasing_by exact Nat.lt_succ_of_le (List.length_filter_le _ _)

/-- Every loop of the traversal is reported, up to rotation. -/
theorem exists_reports_of_loop (h : ids.Nodup) (hloop : walk ∈ allCycles p.dependenciesOf ids) :
    ∃ other, walk ~r other ∧ p.Reports ids other ∧
      namedCycle (walk.map p.targetName) = close (other.map p.targetName) := by
  obtain ⟨other, hr, hleast, hnames⟩ := exists_rotated_namedCycle p.targetName walk
  refine ⟨other, hr, ⟨?_, hleast, ?_⟩, hnames⟩
  · exact (simpleCycle_of_mem_allCycles h hloop).rotated hr
  · rw [← hnames, cyclesAmong, List.mem_eraseDups]
    exact List.mem_map_of_mem hloop

/-- What is reported is a cycle. -/
theorem exists_reports_of_mem (h : ids.Nodup) (hmem : names ∈ p.cyclesAmong ids) :
    ∃ walk, p.Reports ids walk ∧ names = close (walk.map p.targetName) := by
  rw [cyclesAmong, List.mem_eraseDups] at hmem
  obtain ⟨loop, hloop, rfl⟩ := List.mem_map.mp hmem
  obtain ⟨walk, -, hreports, hnames⟩ := exists_reports_of_loop h hloop
  exact ⟨walk, hreports, hnames⟩

/-- Every closed walk has a dependency in common with a cycle that is reported. -/
theorem exists_reports_sharing (h : ids.Nodup) (hwalk : ClosedWalk (p.DependsOn ids) walk) :
    ∃ other, p.Reports ids other ∧ ∃ step ∈ steps walk, step ∈ steps other := by
  obtain ⟨loop, hloop, step, hstep, hshared⟩ := exists_shared_step h hwalk
  obtain ⟨other, hr, hreports, -⟩ := exists_reports_of_loop h hloop
  exact ⟨other, hreports, step, hstep, (mem_steps_of_isRotated hr step).mp hshared⟩

theorem cyclesAmong_eq_nil_iff (h : ids.Nodup) :
    p.cyclesAmong ids = [] ↔ Acyclic (p.DependsOn ids) := by
  rw [DependsOn, ← allCycles_eq_nil_iff h, cyclesAmong, List.eq_nil_iff_forall_not_mem]
  simp only [List.mem_eraseDups]
  rw [← List.eq_nil_iff_forall_not_mem, List.map_eq_nil_iff]

theorem nodup_names (h : (ids.map p.targetName).Nodup)
    (hwalk : SimpleCycle (p.DependsOn ids) walk) : (walk.map p.targetName).Nodup := by
  refine hwalk.nodup.map_on fun v hv w hw heq => ?_
  have hmem : ∀ u ∈ walk, u ∈ ids := by
    intro u hu
    obtain ⟨_, hstep⟩ := exists_step_from hu
    exact (hwalk.along _ hstep).1
  exact List.inj_on_of_nodup_map h (hmem v hv) (hmem w hw) heq

/-- Cycles that are rotations of each other are reported by the same names. -/
theorem Reports.names_eq (h : (ids.map p.targetName).Nodup) (hwalk : p.Reports ids walk)
    (hother : p.Reports ids other)
    (hr : walk.map p.targetName ~r other.map p.targetName) :
    walk.map p.targetName = other.map p.targetName :=
  eq_of_startsAtLeast hwalk.2.1 hother.2.1 (nodup_names h hwalk.1) hr

theorem pairwise_cyclesAmong (h : (ids.map p.targetName).Nodup) :
    (p.cyclesAmong ids).Pairwise fun names others => ¬ names.dropLast ~r others.dropLast := by
  have hids : ids.Nodup := .of_map _ h
  have hdistinct : (p.cyclesAmong ids).Nodup := nodup_eraseDups _
  refine List.Pairwise.imp_of_mem (fun {names others} hnames hothers hne hr => hne ?_) hdistinct
  obtain ⟨walk, hwalk, rfl⟩ := exists_reports_of_mem hids hnames
  obtain ⟨other, hother, rfl⟩ := exists_reports_of_mem hids hothers
  rw [dropLast_close, dropLast_close] at hr
  rw [hwalk.names_eq h hother hr]

/-- A cycle that meets no other one is reported. -/
theorem mem_cyclesAmong_of_disjoint (h : (ids.map p.targetName).Nodup)
    (hwalk : SimpleCycle (p.DependsOn ids) walk)
    (halone : ∀ other, SimpleCycle (p.DependsOn ids) other → walk ~r other ∨ walk.Disjoint other) :
    namedCycle (walk.map p.targetName) ∈ p.cyclesAmong ids := by
  have hids : ids.Nodup := .of_map _ h
  obtain ⟨other, hreports, step, hstep, hshared⟩ := exists_reports_sharing hids hwalk.toClosedWalk
  have hr : walk ~r other := by
    refine (halone other hreports.1).resolve_right fun hdisjoint => ?_
    exact hdisjoint (mem_of_mem_steps hstep).1 (mem_of_mem_steps hshared).1
  obtain ⟨walk', hr', hleast, hnames⟩ := exists_rotated_namedCycle p.targetName walk
  have heq : walk'.map p.targetName = other.map p.targetName :=
    eq_of_startsAtLeast hleast hreports.2.1 (nodup_names h (hwalk.rotated hr'))
      ((hr'.symm.trans hr).map p.targetName)
  rw [hnames, heq]
  exact hreports.2.2

/-- The cycles among targets of different names: each list that is reported is a
cycle, closed, that starts at its least name; none is reported twice, whatever
vertex it starts at; and every closed walk has a dependency in common with a
reported cycle, so that cycles apart from all others are reported, and nothing
is reported only if there is no cycle. -/
theorem cyclesAmong_sound_and_complete (h : (ids.map p.targetName).Nodup) :
    (∀ names ∈ p.cyclesAmong ids, StartsAtLeast names ∧
      ∃ walk, SimpleCycle (p.DependsOn ids) walk ∧ (walk.map p.targetName).Nodup ∧
        names = close (walk.map p.targetName)) ∧
    ((p.cyclesAmong ids).Pairwise fun names others => ¬ names.dropLast ~r others.dropLast) ∧
    (∀ walk, ClosedWalk (p.DependsOn ids) walk → ∃ other, p.Reports ids other ∧
      ∃ step ∈ steps walk, step ∈ steps other) ∧
    (∀ walk, SimpleCycle (p.DependsOn ids) walk →
      (∀ other, SimpleCycle (p.DependsOn ids) other → walk ~r other ∨ walk.Disjoint other) →
      namedCycle (walk.map p.targetName) ∈ p.cyclesAmong ids) ∧
    (p.cyclesAmong ids = [] ↔ Acyclic (p.DependsOn ids)) := by
  have hids : ids.Nodup := .of_map _ h
  refine ⟨fun names hmem => ?_, pairwise_cyclesAmong h, fun walk => exists_reports_sharing hids,
    fun walk => mem_cyclesAmong_of_disjoint h, cyclesAmong_eq_nil_iff hids⟩
  obtain ⟨walk, ⟨hwalk, hleast, -⟩, rfl⟩ := exists_reports_of_mem hids hmem
  exact ⟨hleast.close, walk, hwalk, nodup_names h hwalk, rfl⟩

/-- Two targets that depend on each other. -/
def mutualPair : Project where
  name := "pair"
  targets := #[{ name := "b", type := .object, dependencies := [⟨1⟩] },
    { name := "a", type := .object, dependencies := [⟨0⟩] }]

theorem exists_reports_mutualPair :
    (mutualPair.targetIds.map mutualPair.targetName).Nodup ∧
      ∃ other, mutualPair.Reports mutualPair.targetIds other ∧
        ∃ step ∈ steps [⟨0⟩, ⟨1⟩], step ∈ steps other := by
  have hnames : (mutualPair.targetIds.map mutualPair.targetName).Nodup := by decide
  have hwalk : ClosedWalk (mutualPair.DependsOn mutualPair.targetIds) [⟨0⟩, ⟨1⟩] := by
    refine ⟨by decide, ?_⟩
    simp [steps, DependsOn, Edge, dependenciesOf, target?, mutualPair]
  exact ⟨hnames, (cyclesAmong_sound_and_complete hnames).2.2.1 _ hwalk⟩

example : mutualPair.cyclesAmong mutualPair.targetIds = [["a", "b", "a"]] := by cbv

end Cycles

/-! ### The build order -/

/-- A target that can come next: all targets it depends on have been placed. -/
def Placeable (p : Project) (placed : List TargetId) (id : TargetId) : Prop :=
  id ∈ p.targetIds ∧ id ∉ placed ∧ ∀ dep, p.DependsOn p.targetIds id dep → dep ∈ placed

section Order

variable {p : Project} {order : List Nat}

theorem mem_positionsBelow {i j : Nat} (hi : i < p.targets.size) (hj : j < p.targets.size) :
    j ∈ p.positionsBelow p.targetIds i ↔ (⟨j⟩ : TargetId) ∈ p.dependenciesOf ⟨i⟩ := by
  rw [positionsBelow, targetIds_getElem? hi, Option.map_some, Option.getD_some, List.mem_map]
  constructor
  · rintro ⟨dep, hdep, hidx⟩
    by_cases hmem : dep ∈ p.targetIds
    · rw [idxOf_targetIds hmem] at hidx
      exact hidx ▸ hdep
    · rw [List.idxOf_eq_length hmem, length_targetIds] at hidx
      exact absurd hidx hj.ne'
  · intro hdep
    exact ⟨⟨j⟩, hdep, idxOf_targetIds (mem_targetIds.mpr hj)⟩

/-- The graph of positions is the graph of dependencies. -/
theorem edge_positionsBelow_iff {i j : Nat} :
    Edge (p.positionsBelow p.targetIds) (List.range p.targets.size) i j ↔
      p.DependsOn p.targetIds ⟨i⟩ ⟨j⟩ := by
  simp only [DependsOn, Edge, List.mem_range, mem_targetIds]
  exact and_congr_right fun hi => and_congr_right fun hj => mem_positionsBelow hi hj

theorem acyclic_positionsBelow_iff :
    Acyclic (Edge (p.positionsBelow p.targetIds) (List.range p.targets.size)) ↔
      Acyclic (p.DependsOn p.targetIds) := by
  constructor
  · intro h
    exact h.of_map TargetId.index fun _ _ hdep => edge_positionsBelow_iff.mpr hdep
  · intro h
    exact h.of_map TargetId.mk fun _ _ hedge => edge_positionsBelow_iff.mp hedge

theorem placeable_iff_ready {placed : List Nat} {i : Nat} :
    p.Placeable (placed.map TargetId.mk) ⟨i⟩ ↔
      Ready p.targets.size (p.positionsBelow p.targetIds) placed i := by
  have hmem : ∀ j, (⟨j⟩ : TargetId) ∈ placed.map TargetId.mk ↔ j ∈ placed := by simp
  rw [Placeable, Ready, mem_targetIds, hmem]
  refine and_congr_right fun hi => and_congr_right fun _ =>
    ⟨fun h j hj hlt => ?_, fun h dep hdep => ?_⟩
  · refine (hmem j).mp (h ⟨j⟩ (edge_positionsBelow_iff.mp ⟨?_, ?_, hj⟩))
    · exact List.mem_range.mpr hi
    · exact List.mem_range.mpr hlt
  · obtain ⟨-, hlt, hnext⟩ := edge_positionsBelow_iff.mpr hdep
    exact (hmem dep.index).mpr (h dep.index hnext (List.mem_range.mp hlt))

/-- The targets are ordered by position, or there is an error with the first cycle. -/
theorem buildOrder_eq (p : Project) :
    p.buildOrder =
      if (Graph.order p.targets.size (p.positionsBelow p.targetIds)).length < p.targets.size then
        .error (.dependencyCycle ((p.cyclesAmong p.targetIds).head?.getD []))
      else
        .ok ((Graph.order p.targets.size (p.positionsBelow p.targetIds)).map TargetId.mk) := by
  have hget : ∀ i ∈ Graph.order p.targets.size (p.positionsBelow p.targetIds),
      p.targetIds[i]? = some ⟨i⟩ := fun i hi =>
    targetIds_getElem? ((leastFirst_order _ _).lt hi)
  rw [buildOrder, orderAmong, length_targetIds, List.filterMap_congr hget, List.filterMap_eq_map']

theorem buildOrder_isOk_iff :
    (∃ order, p.buildOrder = .ok order) ↔ Acyclic (p.DependsOn p.targetIds) := by
  rw [buildOrder_eq, ← acyclic_positionsBelow_iff]
  constructor
  · rintro ⟨order, h⟩
    split at h
    · cases h
    · next hlen => exact (leastFirst_order _ _).acyclic (not_lt.mp hlen)
  · intro h
    rw [if_neg (not_lt.mpr (length_order_of_acyclic h))]
    exact ⟨_, rfl⟩

/-- Targets come after the targets they depend on; ties go to the one declared first. -/
theorem buildOrder_ok {order : List TargetId} (h : p.buildOrder = .ok order) :
    order.Perm p.targetIds ∧
      ∀ before id after, order = before ++ id :: after →
        p.Placeable before id ∧ ∀ other, p.Placeable before other → id.index ≤ other.index := by
  rw [buildOrder_eq] at h
  split at h
  · cases h
  next hlen =>
  obtain rfl := Except.ok.inj h
  have hfirst := leastFirst_order p.targets.size (p.positionsBelow p.targetIds)
  refine ⟨(hfirst.perm_range (not_lt.mp hlen)).map TargetId.mk, fun before id after heq => ?_⟩
  obtain ⟨front, tail, horder, rfl, htail⟩ := List.map_eq_append_iff.mp heq
  obtain ⟨i, back, rfl, rfl, rfl⟩ := List.map_eq_cons_iff.mp htail
  obtain ⟨hready, hleast⟩ := hfirst front i back horder
  refine ⟨placeable_iff_ready.mpr hready, fun other hother => ?_⟩
  exact hleast (placeable_iff_ready.mp hother)

theorem idxOf_lt_of_buildOrder {order : List TargetId} (h : p.buildOrder = .ok order)
    {id dep : TargetId} (hdep : p.DependsOn p.targetIds id dep) :
    order.idxOf dep < order.idxOf id := by
  obtain ⟨hperm, hplaced⟩ := buildOrder_ok h
  obtain ⟨before, after, heq⟩ := List.append_of_mem (hperm.mem_iff.mpr hdep.1)
  obtain ⟨⟨-, hnew, hdeps⟩, -⟩ := hplaced before id after heq
  rw [heq]
  exact idxOf_lt_of_mem_before (hdeps dep hdep) hnew

theorem buildOrder_error {e : BuildError} (h : p.buildOrder = .error e) :
    ∃ walk, SimpleCycle (p.DependsOn p.targetIds) walk ∧
      e = .dependencyCycle (close (walk.map p.targetName)) := by
  have hcyclic : ¬ Acyclic (p.DependsOn p.targetIds) := by
    intro hacyclic
    obtain ⟨order, hok⟩ := buildOrder_isOk_iff.mpr hacyclic
    rw [hok] at h
    cases h
  rw [← cyclesAmong_eq_nil_iff (nodup_targetIds p)] at hcyclic
  obtain ⟨names, rest, hcycles⟩ := List.exists_cons_of_ne_nil hcyclic
  have hmem : names ∈ p.cyclesAmong p.targetIds := hcycles ▸ List.mem_cons_self
  obtain ⟨walk, hreports, rfl⟩ := exists_reports_of_mem (nodup_targetIds p) hmem
  refine ⟨walk, hreports.1, ?_⟩
  rw [buildOrder_eq, hcycles, List.head?_cons, Option.getD_some] at h
  split at h
  · exact (Except.error.inj h).symm
  · cases h

theorem resolve_of_buildOrder_error {e : BuildError} (h : p.buildOrder = .error e)
    (exist : Path → Bool) : (resolve exist).run.run p = (.error e, p) := by
  have hall : Resolve.resolveAll.run.run p = (.error e, p) := by
    refine (Build.run_bind _ _ p).trans (Build.run_bind_of_error ?_ _)
    rw [h]
    rfl
  exact Build.run_bind_of_error hall _

/-- The order in which targets are built. There is one exactly if no target
depends on itself, directly or not. It holds every target once, each after the
targets it depends on, and at each place the one declared first among those that
can come next. Otherwise the error shows a cycle of dependencies, and resolving
the project fails with it before anything has changed. -/
theorem buildOrder_correct (p : Project) :
    ((∃ order, p.buildOrder = .ok order) ↔ Acyclic (p.DependsOn p.targetIds)) ∧
    (∀ order, p.buildOrder = .ok order →
      order.Perm p.targetIds ∧
      (∀ id dep, p.DependsOn p.targetIds id dep → order.idxOf dep < order.idxOf id) ∧
      ∀ before id after, order = before ++ id :: after →
        p.Placeable before id ∧ ∀ other, p.Placeable before other → id.index ≤ other.index) ∧
    (∀ e, p.buildOrder = .error e →
      (∃ walk, SimpleCycle (p.DependsOn p.targetIds) walk ∧
        e = .dependencyCycle (close (walk.map p.targetName))) ∧
      ∀ exist, (resolve exist).run.run p = (.error e, p)) := by
  refine ⟨buildOrder_isOk_iff, fun order h => ?_, fun e h => ?_⟩
  · exact ⟨(buildOrder_ok h).1, fun _ _ => idxOf_lt_of_buildOrder h, (buildOrder_ok h).2⟩
  · exact ⟨buildOrder_error h, resolve_of_buildOrder_error h⟩

end Order

end BuildPlan.Project
