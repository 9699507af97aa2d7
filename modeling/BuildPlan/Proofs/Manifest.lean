import BuildPlan.Manifest
import BuildPlan.Proofs.Resolve.OrderingEdges

/-!
# BuildPlan.Proofs.Manifest

What the sources of copying targets stand for in the project that a manifest
describes. A source is looked up when its target is declared, so it can name every
target that does not copy, and those that copy and have been declared before.
-/

namespace BuildPlan

open Build

namespace Project

variable {p q : Project} {id : TargetId} {u : Unit}

/-- The targets by name, each with its plan. -/
def plans (p : Project) : List (String × Option InstallPlan) :=
  p.targets.toList.map fun t => (t.name, t.pending)

theorem findTarget_eq (p : Project) (name : String) :
    p.findTarget name = ((p.plans.map (·.1)).findIdx? (· = name)).map TargetId.mk := by
  rw [findTarget, plans, List.map_map, List.findIdx?_map, ← List.findIdx?_toArray,
    Array.toArray_toList]
  rfl

theorem plan?_eq (p : Project) (id : TargetId) : p.plan? id = p.plans[id.index]?.bind (·.2) := by
  rw [plan?, plans, List.getElem?_map, Array.getElem?_toList, target?]
  cases p.targets[id.index]? <;> rfl

/-! ### Single declarations -/

theorem plans_modifyTarget {f : Target → Target} (hname : ∀ t, (f t).name = t.name)
    (hpending : ∀ t, (f t).pending = t.pending) : (p.modifyTarget id f).plans = p.plans := by
  unfold plans modifyTarget
  refine List.ext_getElem? fun i => ?_
  simp only [List.getElem?_map, Array.getElem?_toList, Array.getElem?_modify]
  split <;> cases p.targets[i]? <;> simp [hname, hpending]

theorem plans_editTarget {f : Target → Target} (hname : ∀ t, (f t).name = t.name)
    (hpending : ∀ t, (f t).pending = t.pending) : (p.editTarget id f).plans = p.plans := by
  rw [editTarget, plans_modifyTarget hname hpending]
  simp [plans, forgetRequirements]

theorem plans_link {dep : TargetId} (h : Yields (link id dep) p u q) : q.plans = p.plans := by
  obtain ⟨-, t, -, rfl⟩ := link_inv h
  split
  · rfl
  · exact plans_editTarget (fun _ => rfl) fun _ => rfl

/-- A target that is declared joins the others by its name. -/
theorem addTarget_inv {t : Target} (h : Yields (addTarget t) p id q) :
    t.name ∉ p.plans.map (·.1) ∧ id = ⟨p.plans.length⟩ ∧
      q.plans = p.plans ++ [(t.name, t.pending)] := by
  obtain ⟨hnew, rfl, rfl⟩ := yields_addTarget.mp h
  refine ⟨?_, by simp [plans], by simp [plans]⟩
  rw [findTarget_eq, Option.map_eq_none_iff, List.findIdx?_eq_none_iff] at hnew
  intro hmem
  simpa using hnew t.name hmem

end Project

namespace Manifest

variable {m : Manifest} {p q : Project} {env : EnvironmentId} {decl : TargetDecl}
  {before after : List TargetDecl} {u : Unit}

/-! ### The plans of the declared targets -/

/-- What a source stands for once some targets have been declared: the one with that
name, else a path. -/
def sourceAmong (before : List TargetDecl) (source : String) : InstallSource :=
  match before.findIdx? (·.name = source) with
  | some position => .target ⟨position⟩
  | none => .path ⟨source⟩

/-- The plan that a target is declared with after some others. -/
def planAfter (before : List TargetDecl) (decl : TargetDecl) : Option InstallPlan :=
  match decl.kind, decl.dest with
  | .install, some dest => some ⟨decl.sources.map (sourceAmong before), .directory dest⟩
  | .installAs, some dest => some ⟨decl.sources.map (sourceAmong before), .file dest⟩
  | _, _ => none

/-- The targets by name, each with the plan that it is declared with. -/
def plansAfter (before : List TargetDecl) : List TargetDecl → List (String × Option InstallPlan)
  | [] => []
  | decl :: rest => (decl.name, planAfter before decl) :: plansAfter (before ++ [decl]) rest

theorem plansAfter_append (before decls rest : List TargetDecl) :
    plansAfter before (decls ++ rest) =
      plansAfter before decls ++ plansAfter (before ++ decls) rest := by
  induction decls generalizing before with
  | nil => rw [List.nil_append, List.append_nil, plansAfter, List.nil_append]
  | cons decl decls ih =>
      rw [List.cons_append, plansAfter, plansAfter, ih, List.append_assoc, List.singleton_append,
        List.cons_append]

theorem names_plansAfter (before decls : List TargetDecl) :
    (plansAfter before decls).map (·.1) = decls.map TargetDecl.name := by
  induction decls generalizing before with
  | nil => rfl
  | cons decl decls ih => rw [plansAfter, List.map_cons, ih, List.map_cons]

/-- A project in which exactly these targets have been declared. -/
structure Holds (before : List TargetDecl) (p : Project) : Prop where
  plans : p.plans = plansAfter [] before
  nodup : (before.map TargetDecl.name).Nodup

theorem Holds.findTarget (h : Holds before p) (name : String) :
    p.findTarget name = (before.findIdx? (·.name = name)).map TargetId.mk := by
  rw [Project.findTarget_eq, h.plans, names_plansAfter, List.findIdx?_map]
  rfl

theorem Holds.installSource (h : Holds before p) :
    installSource p = sourceAmong before := by
  funext source
  rw [Manifest.installSource, h.findTarget, sourceAmong]
  cases before.findIdx? (·.name = source) <;> rfl

/-! ### Declaring the targets -/

theorem Holds.edit {id : TargetId} {f : Target → Target} (hname : ∀ t, (f t).name = t.name)
    (hpending : ∀ t, (f t).pending = t.pending) (h : Holds before p) :
    Holds before (p.editTarget id f) :=
  ⟨(Project.plans_editTarget hname hpending).trans h.plans, h.nodup⟩

theorem Holds.add {t : Target} {id : TargetId} (h : Holds before p) (hname : t.name = decl.name)
    (hplan : t.pending = planAfter before decl) (hadd : Yields (Project.addTarget t) p id q) :
    Holds (before ++ [decl]) q := by
  obtain ⟨hnew, -, hplans⟩ := Project.addTarget_inv hadd
  refine ⟨?_, ?_⟩
  · rw [hplans, h.plans, plansAfter_append, List.nil_append, hname, hplan]
    rfl
  · rw [h.plans, names_plansAfter, hname] at hnew
    rw [List.map_append, List.nodup_append]
    refine ⟨h.nodup, List.nodup_singleton _, fun name hmem other hother => ?_⟩
    rintro rfl
    rw [List.map_singleton, List.mem_singleton] at hother
    exact hnew (hother ▸ hmem)

/-- What targets of a kind produce. -/
def TargetKind.type : TargetKind → TargetType
  | .staticLibrary => .staticLibrary
  | .sharedLibrary => .sharedLibrary
  | .program => .program
  | .object => .object
  | .interface => .interface
  | .install | .installAs => .install

/-- What is wrong with the destination of a declaration. -/
def TargetDecl.destinationProblem (decl : TargetDecl) : TargetProblem :=
  if decl.kind.copies then .missingDestination else .misplacedDestination

/-- The target that is added for a declaration, and the nodes that are made for it. -/
def draft (env : EnvironmentId) (decl : TargetDecl) (p : Project) : Target × Project :=
  match decl.kind, decl.dest with
  | .install, some dest =>
    ({ name := decl.name, type := .install, env := some env
       pending := some ⟨decl.sources.map (installSource p), .directory dest⟩ }, p)
  | .installAs, some dest =>
    ({ name := decl.name, type := .install, env := some env
       pending := some ⟨decl.sources.map (installSource p), .file dest⟩ }, p)
  | .interface, _ => ({ name := decl.name, type := .interface }, p)
  | kind, _ =>
    let (sources, p) := p.files (decl.sources.map Path.mk)
    ({ name := decl.name, type := kind.type, env := some env, sources }, p)

/-- A declaration with its destination in place adds its target, and any other is refused. -/
theorem declareTarget_eq (env : EnvironmentId) (decl : TargetDecl) :
    declareTarget env decl =
      if decl.kind.copies = decl.dest.isSome then
        modifyGet (draft env decl) >>= Project.addTarget
      else throw (.target decl.name decl.destinationProblem) := by
  unfold declareTarget draft TargetDecl.destinationProblem
  cases decl.kind <;> cases decl.dest <;> rfl

theorem targets_draft (env : EnvironmentId) (decl : TargetDecl) (p : Project) :
    (draft env decl p).2.targets = p.targets := by
  unfold draft
  split
  · rfl
  · rfl
  · rfl
  · obtain ⟨graph, hfiles⟩ := Project.exists_graph_files p (decl.sources.map Path.mk)
    rw [hfiles]

theorem name_draft (env : EnvironmentId) (decl : TargetDecl) (p : Project) :
    (draft env decl p).1.name = decl.name := by
  unfold draft
  split <;> rfl

theorem Holds.pending_draft (h : Holds before p) (env : EnvironmentId) (decl : TargetDecl) :
    (draft env decl p).1.pending = planAfter before decl := by
  unfold draft planAfter
  rw [h.installSource]
  cases decl.kind <;> cases decl.dest <;> rfl

/-- A target is declared with the plan that it has after the earlier ones. Targets that
copy have a destination, and no others have one. -/
theorem Holds.declareTarget {id : TargetId} (h : Holds before p)
    (hdeclare : Yields (declareTarget env decl) p id q) :
    Holds (before ++ [decl]) q ∧ decl.kind.copies = decl.dest.isSome := by
  rw [declareTarget_eq] at hdeclare
  split at hdeclare
  · next hdest =>
      rw [yields_modifyGet_bind] at hdeclare
      have hdrafted : Holds before (draft env decl p).2 := by
        refine ⟨?_, h.nodup⟩
        rw [Project.plans, targets_draft, ← Project.plans, h.plans]
      exact ⟨hdrafted.add (name_draft env decl p) (h.pending_draft env decl) hdeclare, hdest⟩
  · exact absurd hdeclare not_yields_throw

theorem Holds.declare {id : TargetId} (h : Holds before p)
    (hdeclare : Yields (Manifest.declare env decl) p id q) :
    Holds (before ++ [decl]) q ∧ decl.kind.copies = decl.dest.isSome := by
  obtain ⟨_, r, htarget, hrest⟩ := yields_bind.mp hdeclare
  rw [yields_modify_bind] at hrest
  obtain ⟨-, rfl⟩ := yields_pure.mp hrest
  obtain ⟨hholds, hdest⟩ := h.declareTarget htarget
  refine ⟨hholds.edit ?_ ?_, hdest⟩
  · exact fun _ => rfl
  · exact fun _ => rfl

theorem Holds.declareAll {decls : List TargetDecl} {declared : List (TargetId × List String)}
    (h : Holds before p)
    (hdeclare : Yields
      (decls.mapM fun decl => return (← Manifest.declare env decl, decl.link)) p declared q) :
    Holds (before ++ decls) q ∧ ∀ decl ∈ decls, decl.kind.copies = decl.dest.isSome := by
  induction decls generalizing before p declared with
  | nil =>
      rw [List.mapM_nil] at hdeclare
      obtain ⟨-, rfl⟩ := yields_pure.mp hdeclare
      rw [List.append_nil]
      exact ⟨h, by simp⟩
  | cons decl rest ih =>
      rw [List.mapM_cons, yields_bind] at hdeclare
      obtain ⟨_, r, hfirst, hrest⟩ := hdeclare
      obtain ⟨_, r', hdecl, hpure⟩ := yields_bind.mp hfirst
      obtain ⟨-, rfl⟩ := yields_pure.mp hpure
      obtain ⟨_, s, hlater, hpure⟩ := yields_bind.mp hrest
      obtain ⟨-, rfl⟩ := yields_pure.mp hpure
      obtain ⟨hholds, hdest⟩ := h.declare hdecl
      obtain ⟨hholds, hdests⟩ := ih hholds hlater
      rw [List.append_assoc, List.singleton_append] at hholds
      refine ⟨hholds, fun other hother => ?_⟩
      rcases List.mem_cons.mp hother with rfl | hother
      · exact hdest
      · exact hdests other hother

/-! ### Links, defaults and groups -/

theorem requireTarget_same {name : String} {id : TargetId}
    (h : Yields (requireTarget name) p id q) : q = p := by
  rw [requireTarget, yields_get_bind] at h
  exact (yields_liftExcept.mp h).2

theorem requireTargets_same {names : List String} {ids : List TargetId}
    (h : Yields (names.mapM requireTarget) p ids q) : q = p := by
  induction names generalizing p ids with
  | nil =>
      rw [List.mapM_nil] at h
      exact (yields_pure.mp h).2
  | cons name rest ih =>
      rw [List.mapM_cons, yields_bind] at h
      obtain ⟨_, r, hfirst, hrest⟩ := h
      obtain ⟨_, s, hlater, hpure⟩ := yields_bind.mp hrest
      obtain ⟨-, rfl⟩ := yields_pure.mp hpure
      rw [ih hlater, requireTarget_same hfirst]

/-- A loop of steps that leave something alone leaves it alone. -/
theorem kept_forM {α γ : Type} (g : Project → γ) {f : α → Build PUnit} {as : List α}
    (hstep : ∀ a p q, Yields (f a) p ⟨⟩ q → g q = g p)
    (h : Yields (as.forM f) p u q) : g q = g p :=
  Yields.forM (R := fun p q => g q = g p) (fun _ => rfl)
    (fun _ _ _ hpq hqr => hqr.trans hpq) (fun a _ => hstep a) h

theorem plans_linkAll {id : TargetId} {names : List String}
    (h : Yields (linkAll id names) p u q) : q.plans = p.plans := by
  refine kept_forM Project.plans (fun name p q hlink => ?_) h
  obtain ⟨dep, r, hrequire, hlink⟩ := yields_bind.mp hlink
  rw [requireTarget_same hrequire] at hlink
  exact Project.plans_link hlink

theorem targets_setDefaults {names : List String}
    (h : Yields (names.forM fun name => do
      let id ← requireTarget name
      modify (·.setDefault id)) p u q) : q.targets = p.targets := by
  refine kept_forM Project.targets (fun name p q hset => ?_) h
  obtain ⟨id, r, hrequire, hset⟩ := yields_bind.mp hset
  rw [yields_modify.mp hset, requireTarget_same hrequire]
  rfl

theorem targets_addGroups {groups : List (String × List String)}
    (h : Yields (groups.forM fun (group, names) => do
      let ids ← names.mapM requireTarget
      modify (·.addGroup group ids)) p u q) : q.targets = p.targets := by
  refine kept_forM Project.targets (fun entry p q hadd => ?_) h
  obtain ⟨ids, r, hrequire, hadd⟩ := yields_bind.mp hadd
  rw [yields_modify.mp hadd, requireTargets_same hrequire]
  rfl

theorem holds_of_populate (hempty : p.targets = #[]) (h : Yields (m.populate env) p u q) :
    Holds m.declarationOrder q ∧
      ∀ decl ∈ m.declarationOrder, decl.kind.copies = decl.dest.isSome := by
  obtain ⟨declared, r, hdeclare, h⟩ := yields_bind.mp h
  have hstart : Holds [] p := ⟨by simp [Project.plans, hempty, plansAfter], List.nodup_nil⟩
  obtain ⟨hholds, hdests⟩ := hstart.declareAll hdeclare
  obtain ⟨_, r', hlinks, h⟩ := yields_bind.mp h
  obtain ⟨_, r'', hdefaults, hgroups⟩ := yields_bind.mp h
  refine ⟨⟨?_, hholds.nodup⟩, hdests⟩
  have hlinked : r'.plans = r.plans :=
    kept_forM Project.plans (fun _ _ _ => plans_linkAll) hlinks
  have htargets : q.targets = r'.targets :=
    (targets_addGroups hgroups).trans (targets_setDefaults hdefaults)
  rw [Project.plans, htargets, ← Project.plans, hlinked, hholds.plans, List.nil_append]

/-- The targets of an accepted manifest have names of their own. Each is declared with the
plan that it has after the earlier ones. -/
theorem holds_of_toProject {root : Path} (h : m.toProject root = .ok p) :
    Holds m.declarationOrder p ∧
      ∀ decl ∈ m.declarationOrder, decl.kind.copies = decl.dest.isSome := by
  unfold toProject at h
  cases henv : m.environment with
  | error e =>
      rw [henv] at h
      cases h
  | ok env =>
      simp only [henv, bind, Except.bind] at h
      split at h
      · next hrun =>
          cases h
          exact holds_of_populate rfl hrun
      · cases h

/-! ### What sources stand for -/

/-- The names that are declared. -/
def names (m : Manifest) : List String := m.targets.map TargetDecl.name

/-- A source that names one of the targets declared before stands for it, and any other source
is a path. -/
inductive Stands (p : Project) (before : List TargetDecl) (source : String) : InstallSource → Prop
  | target {id : TargetId} (hbefore : source ∈ before.map TargetDecl.name)
      (hid : p.findTarget source = some id) : Stands p before source (.target id)
  | path (hnot : source ∉ before.map TargetDecl.name) : Stands p before source (.path ⟨source⟩)

/-- In the plan of every target that copies, the name of any other target stands for that
target, and only what names no target is a path. -/
def NamesTargets (m : Manifest) (p : Project) : Prop :=
  ∀ decl ∈ m.targets, decl.kind.copies = true → ∃ id plan,
    p.findTarget decl.name = some id ∧ p.plan? id = some plan ∧
      List.Forall₂ (fun source s =>
        (source ≠ decl.name → source ∈ m.names →
          ∃ dep, p.findTarget source = some dep ∧ s = .target dep) ∧
        ∀ path, s = .path path → path = ⟨source⟩ ∧ source ∉ m.names) decl.sources plan.sources

theorem mem_declarationOrder : decl ∈ m.declarationOrder ↔ decl ∈ m.targets := by
  rw [declarationOrder, List.mem_append, List.mem_filter, List.mem_filter, ← and_or_left]
  cases decl.kind.copies <;> simp

theorem mem_names {name : String} :
    name ∈ m.names ↔ name ∈ m.declarationOrder.map TargetDecl.name := by
  simp only [names, List.mem_map, mem_declarationOrder]

theorem findIdx?_eq_none_iff {name : String} :
    before.findIdx? (·.name = name) = none ↔ name ∉ before.map TargetDecl.name := by
  rw [List.findIdx?_eq_none_iff]
  simp [eq_comm]

section Split

variable (h : Holds (before ++ decl :: after) p)

include h

theorem Holds.stands (source : String) : Stands p before source (sourceAmong before source) := by
  unfold sourceAmong
  cases hfind : before.findIdx? (·.name = source) with
  | none => exact .path (findIdx?_eq_none_iff.mp hfind)
  | some position =>
      refine .target ?_ ?_
      · by_contra hnot
        rw [findIdx?_eq_none_iff.mpr hnot] at hfind
        cases hfind
      · rw [h.findTarget, List.findIdx?_append, hfind]
        rfl

theorem Holds.findTarget_self : p.findTarget decl.name = some ⟨before.length⟩ := by
  have hnodup := h.nodup
  rw [List.map_append, List.map_cons] at hnodup
  have hnot : decl.name ∉ before.map TargetDecl.name := fun hmem =>
    List.disjoint_of_nodup_append hnodup hmem List.mem_cons_self
  rw [h.findTarget, List.findIdx?_append, findIdx?_eq_none_iff.mpr hnot, List.findIdx?_cons]
  simp

theorem Holds.plan? : p.plan? ⟨before.length⟩ = planAfter before decl := by
  have hlength : (plansAfter [] before).length = before.length := by
    rw [← List.length_map (·.1), names_plansAfter, List.length_map]
  rw [Project.plan?_eq, h.plans, plansAfter_append, List.nil_append, plansAfter]
  simp [← hlength]

/-- The sources of a target that copies are looked up among those declared before. -/
theorem Holds.exists_plan (hcopies : decl.kind.copies = true) (hdest : decl.dest.isSome = true) :
    ∃ plan, p.plan? ⟨before.length⟩ = some plan ∧
      plan.sources = decl.sources.map (sourceAmong before) := by
  obtain ⟨dest, hdest⟩ := Option.isSome_iff_exists.mp hdest
  rw [h.plan?, planAfter, hdest]
  cases hkind : decl.kind with
  | install | installAs => exact ⟨_, rfl, rfl⟩
  | staticLibrary | sharedLibrary | program | object | interface =>
      rw [hkind] at hcopies
      cases hcopies

theorem Holds.not_mem_before {source : String}
    (hmem : source ∈ (decl :: after).map TargetDecl.name) :
    source ∉ before.map TargetDecl.name := by
  have hnodup := h.nodup
  rw [List.map_append] at hnodup
  exact fun hbefore => List.disjoint_of_nodup_append hnodup hbefore hmem

end Split

/-- Every target that copies has a plan, whose sources name targets declared before it. -/
theorem exists_plan_of_toProject {root : Path} (h : m.toProject root = .ok p)
    (hsplit : m.declarationOrder = before ++ decl :: after) (hcopies : decl.kind.copies = true) :
    ∃ id plan, p.findTarget decl.name = some id ∧ p.plan? id = some plan ∧
      plan.sources = decl.sources.map (sourceAmong before) ∧
        List.Forall₂ (Stands p before) decl.sources plan.sources := by
  obtain ⟨hholds, hdests⟩ := holds_of_toProject h
  have hdest := hdests decl (by rw [hsplit]; simp)
  rw [hcopies] at hdest
  rw [hsplit] at hholds
  obtain ⟨plan, hplan, hsources⟩ := hholds.exists_plan hcopies hdest.symm
  refine ⟨_, plan, hholds.findTarget_self, hplan, hsources, ?_⟩
  rw [hsources, List.forall₂_map_right_iff, List.forall₂_same]
  exact fun source _ => hholds.stands source

/-- All other targets can be named exactly if no target that copies names itself or one that
copies and is declared later. -/
theorem namesTargets_iff {root : Path} (h : m.toProject root = .ok p) :
    m.NamesTargets p ↔ ∀ before decl after, m.declarationOrder = before ++ decl :: after →
      decl.kind.copies = true → ∀ source ∈ decl.sources,
        source ∉ (decl :: after).map TargetDecl.name := by
  obtain ⟨hholds, -⟩ := holds_of_toProject h
  constructor
  · intro hall before decl after hsplit hcopies source hsource hlater
    have hdecl : decl ∈ m.targets := mem_declarationOrder.mp (by rw [hsplit]; simp)
    obtain ⟨id, plan, hid, hplan, hnames⟩ := hall decl hdecl hcopies
    obtain ⟨id', plan', hid', hplan', hsources, -⟩ := exists_plan_of_toProject h hsplit hcopies
    rw [hid] at hid'
    cases hid'
    rw [hplan] at hplan'
    cases hplan'
    rw [hsources, List.forall₂_map_right_iff, List.forall₂_same] at hnames
    -- the source has been looked up too early, so it is a path that names a target
    rw [hsplit] at hholds
    have hnone := findIdx?_eq_none_iff.mpr (hholds.not_mem_before hlater)
    have hpath : sourceAmong before source = .path ⟨source⟩ := by rw [sourceAmong, hnone]
    refine ((hnames source hsource).2 _ hpath).2 (mem_names.mpr ?_)
    rw [hsplit, List.map_append]
    exact List.mem_append_right _ hlater
  · intro hearlier decl hdecl hcopies
    obtain ⟨before, after, hsplit⟩ := List.append_of_mem (mem_declarationOrder.mpr hdecl)
    obtain ⟨id, plan, hid, hplan, hsources, hstands⟩ :=
      exists_plan_of_toProject h hsplit hcopies
    refine ⟨id, plan, hid, hplan, ?_⟩
    rw [hsources, List.forall₂_map_right_iff, List.forall₂_same] at hstands ⊢
    intro source hsource
    have hnot := hearlier before decl after hsplit hcopies source hsource
    have hnames : source ∈ m.names ↔ source ∈ before.map TargetDecl.name := by
      rw [mem_names, hsplit, List.map_append, List.mem_append, or_iff_left hnot]
    rw [hnames]
    have hstand := hstands source hsource
    revert hstand
    generalize sourceAmong before source = s
    rintro (⟨hbefore, hfind⟩ | hunnamed)
    · refine ⟨fun _ _ => ⟨_, hfind, rfl⟩, ?_⟩
      rintro path ⟨⟩
    · refine ⟨fun _ hbefore => absurd hbefore hunnamed, ?_⟩
      rintro path ⟨⟩
      exact ⟨rfl, hunnamed⟩

/-- A source of a target that copies stands for the target with its name if that one was
declared before, and is a path otherwise. Targets that copy are declared last. So all names of
other targets stand for them exactly if no target that copies names itself or one that copies
and stands further down. -/
theorem sources_name_targets_iff {root : Path} (h : m.toProject root = .ok p) :
    (∀ before decl after, m.declarationOrder = before ++ decl :: after →
      decl.kind.copies = true → ∃ id plan, p.findTarget decl.name = some id ∧
        p.plan? id = some plan ∧ List.Forall₂ (Stands p before) decl.sources plan.sources) ∧
    (m.NamesTargets p ↔ ∀ before decl after, m.declarationOrder = before ++ decl :: after →
      decl.kind.copies = true → ∀ source ∈ decl.sources,
        source ∉ (decl :: after).map TargetDecl.name) := by
  refine ⟨fun before decl after hsplit hcopies => ?_, namesTargets_iff h⟩
  obtain ⟨id, plan, hid, hplan, -, hstands⟩ := exists_plan_of_toProject h hsplit hcopies
  exact ⟨id, plan, hid, hplan, hstands⟩

/-! ### A target that is named too early -/

/-- A target that copies what another one does, which is written down below it. -/
def everything : Manifest where
  version := { major := 1, minor := 0, patch := 0 }
  project := "demo"
  platform := some .linux
  targets := [
    { name := "all", kind := .install, sources := ["docs"], dest := some ⟨"out"⟩ },
    { name := "docs", kind := .install, sources := ["README"], dest := some ⟨"share"⟩ }]

theorem exists_everything : ∃ p, everything.toProject ⟨"."⟩ = .ok p := by
  have hok : (everything.toProject ⟨"."⟩).isOk = true := by cbv
  cases h : everything.toProject ⟨"."⟩ with
  | error e =>
      rw [h] at hok
      cases hok
  | ok p => exact ⟨p, rfl⟩

/-- The target that is named is declared later, so its name is a path. -/
theorem names_later_everything : ¬ ∀ before decl after,
    everything.declarationOrder = before ++ decl :: after → decl.kind.copies = true →
      ∀ source ∈ decl.sources, source ∉ (decl :: after).map TargetDecl.name := by
  intro hall
  have horder : everything.declarationOrder = everything.targets := rfl
  exact hall [] _ _ horder rfl "docs" List.mem_cons_self (by simp)

theorem sources_name_targets_iff_everything : ∃ p, everything.toProject ⟨"."⟩ = .ok p ∧
    p.plan? ⟨0⟩ = some ⟨[.path ⟨"docs"⟩], .directory ⟨"out"⟩⟩ ∧ ¬ everything.NamesTargets p := by
  obtain ⟨p, hp⟩ := exists_everything
  have hnot := (sources_name_targets_iff hp).2.not.mpr names_later_everything
  exact ⟨p, hp, (holds_of_toProject hp).1.plan?, hnot⟩

/-- It is not so that every other target can be named. -/
theorem not_forall_namesTargets : ¬ ∀ (m : Manifest) (root : Path) (p : Project),
    m.toProject root = .ok p → m.NamesTargets p := by
  intro hall
  obtain ⟨p, hp⟩ := exists_everything
  exact (namesTargets_iff hp).not.mpr names_later_everything (hall everything _ p hp)

end Manifest

end BuildPlan
