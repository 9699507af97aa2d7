import BuildPlan.Proofs.Build.Outcome
import BuildPlan.Proofs.Manifest
import BuildPlan.Proofs.Project.Usage
import Mathlib.Data.List.Duplicate

/-!
# BuildPlan.Proofs.Manifest.Acceptance

Which manifests describe a project. Names must be declared once before they are used, and
destinations must stand where something is copied. Declaring the targets can fail for one of
these reasons, and so can each look-up of a name afterwards; nothing else can go wrong.
-/

namespace BuildPlan

open Build

/-- What a target's declaration decides, and the targets that it has been linked to. -/
structure Target.Face where
  name : String
  type : TargetType
  publicReqs : Requirements
  privateReqs : Requirements
  outputName : Option String
  dependencies : List TargetId

def Target.face (t : Target) : Target.Face where
  name := t.name
  type := t.type
  publicReqs := t.publicReqs
  privateReqs := t.privateReqs
  outputName := t.outputName
  dependencies := t.dependencies

/-- Link to more targets, each once. -/
def Target.Face.linkTo (face : Target.Face) (ids : List TargetId) : Target.Face :=
  { face with dependencies := Flag.appendNew (· == ·) face.dependencies ids }

namespace Project

variable {p q : Project} {id dep : TargetId} {u : Unit}

def faces (p : Project) : List Target.Face := p.targets.toList.map Target.face

@[simp] theorem length_faces (p : Project) : p.faces.length = p.targets.size := by simp [faces]

theorem faces_editTarget {f : Target → Target} {g : Target.Face → Target.Face}
    (h : ∀ t, p.target? id = some t → (f { t with collected := none }).face = g t.face) :
    (p.editTarget id f).faces = p.faces.modify id.index g := by
  refine List.ext_getElem? fun i => ?_
  simp only [faces, editTarget, modifyTarget, forgetRequirements, List.getElem?_map,
    Array.getElem?_toList, Array.getElem?_modify, List.getElem?_modify, Array.getElem?_map]
  cases ht : p.targets[i]? with
  | none => simp
  | some t =>
      split
      · next heq =>
          subst heq
          exact congrArg some (h t ht)
      · rfl

/-- A link adds the other target to the dependencies, unless it is there. -/
theorem faces_link (h : Yields (link id dep) p u q) :
    q.faces = p.faces.modify id.index (·.linkTo [dep]) := by
  obtain ⟨-, t, ht, rfl⟩ := link_inv h
  split
  · next hmem =>
      refine List.ext_getElem? fun i => ?_
      rw [List.getElem?_modify]
      split
      · next heq =>
          rw [← heq, faces, List.getElem?_map, Array.getElem?_toList, ← target?, ht]
          simp [Target.Face.linkTo, Target.face, Flag.appendNew, hmem]
      · simp
  · next hnew =>
      refine faces_editTarget fun other hother => ?_
      rw [ht] at hother
      cases hother
      simp [Target.Face.linkTo, Target.face, Flag.appendNew, hnew]

end Project

namespace Manifest

variable {m : Manifest} {p q : Project} {env : EnvironmentId} {decl : TargetDecl}
  {before decls : List TargetDecl} {id : TargetId} {e : BuildError} {u : Unit}

/-! ### Declaring the targets -/

/-- The target that a declaration describes, as its face shows it. -/
def TargetDecl.face (decl : TargetDecl) (dependencies : List TargetId) : Target.Face where
  name := decl.name
  type := decl.kind.type
  publicReqs := decl.publicReqs
  privateReqs := decl.privateReqs
  outputName := decl.outputName
  dependencies := dependencies

theorem face_draft (env : EnvironmentId) (decl : TargetDecl) (p : Project) :
    (draft env decl p).1.face =
      { decl.face [] with publicReqs := {}, privateReqs := {}, outputName := none } := by
  unfold draft TargetDecl.face
  split <;> simp_all [Target.face, TargetKind.type]

theorem modify_length_append {α : Type} (before after : List α) (x : α) (f : α → α) :
    (before ++ x :: after).modify before.length f = before ++ f x :: after := by
  simp [List.modify_eq_take_cons_drop]

/-- A declared target stands behind the others and shows what was declared. -/
theorem declare_inv (h : Yields (declare env decl) p id q) :
    id = ⟨p.targets.size⟩ ∧ q.faces = p.faces ++ [decl.face []] := by
  obtain ⟨_, r, htarget, h⟩ := yields_bind.mp h
  rw [yields_modify_bind] at h
  obtain ⟨rfl, rfl⟩ := yields_pure.mp h
  rw [declareTarget_eq] at htarget
  split at htarget
  · rw [yields_modifyGet_bind] at htarget
    obtain ⟨-, hid, rfl⟩ := Project.yields_addTarget.mp htarget
    rw [targets_draft] at hid
    refine ⟨hid, ?_⟩
    rw [Project.faces_editTarget (g := fun face => { face with
      publicReqs := decl.publicReqs
      privateReqs := decl.privateReqs
      outputName := decl.outputName }) fun _ _ => rfl, hid, Project.faces]
    rw [targets_draft, Array.toList_push, List.map_append, List.map_singleton, face_draft,
      ← Project.faces, ← Project.length_faces, modify_length_append]
    rfl
  · exact absurd htarget not_yields_throw

theorem declare_fails (h : Fails (declare env decl) p e q) :
    (decl.kind.copies ≠ decl.dest.isSome ∧ e = .target decl.name decl.destinationProblem) ∨
      (p.findTarget decl.name ≠ none ∧ e = .duplicateTarget decl.name) := by
  rcases fails_bind.mp h with h | ⟨_, r, -, h⟩
  · rw [declareTarget_eq] at h
    split at h
    · rw [fails_modifyGet_bind] at h
      obtain ⟨hknown, rfl, -⟩ := Project.fails_addTarget h
      rw [name_draft] at hknown ⊢
      rw [Project.findTarget, targets_draft] at hknown
      exact .inr ⟨hknown, rfl⟩
    · next hdest => exact .inl ⟨hdest, (fails_throw.mp h).1⟩
  · rw [fails_modify_bind] at h
    exact absurd h not_fails_pure

/-- All targets in order, each with the names that it is to be linked to. -/
def declaredFrom (start : Nat) (decls : List TargetDecl) : List (TargetId × List String) :=
  (decls.zipIdx start).map fun (decl, position) => (⟨position⟩, decl.link)

theorem names_declaredFrom (start : Nat) (decls : List TargetDecl) :
    (declaredFrom start decls).flatMap (·.2) = decls.flatMap (·.link) := by
  induction decls generalizing start with
  | nil => rfl
  | cons decl rest ih =>
      rw [declaredFrom, List.zipIdx_cons, List.map_cons, List.flatMap_cons, List.flatMap_cons,
        ← ih (start + 1)]
      rfl

theorem index_of_declaredFrom {entry : TargetId × List String} (h : entry ∈ declaredFrom 0 decls) :
    entry.1.index < decls.length := by
  obtain ⟨⟨decl, position⟩, hmem, rfl⟩ := List.mem_map.mp h
  simpa using List.snd_lt_of_mem_zipIdx hmem

theorem declareAll_inv {declared : List (TargetId × List String)}
    (h : Yields (decls.mapM fun decl => return (← declare env decl, decl.link)) p declared q) :
    declared = declaredFrom p.targets.size decls ∧
      q.faces = p.faces ++ decls.map (·.face []) := by
  induction decls generalizing p declared with
  | nil =>
      rw [List.mapM_nil] at h
      obtain ⟨rfl, rfl⟩ := yields_pure.mp h
      exact ⟨rfl, (List.append_nil _).symm⟩
  | cons decl rest ih =>
      rw [List.mapM_cons, yields_bind] at h
      obtain ⟨_, r, hfirst, hrest⟩ := h
      obtain ⟨_, r', hdeclare, hpure⟩ := yields_bind.mp hfirst
      obtain ⟨rfl, rfl⟩ := yields_pure.mp hpure
      obtain ⟨_, s, hlater, hpure⟩ := yields_bind.mp hrest
      obtain ⟨rfl, rfl⟩ := yields_pure.mp hpure
      obtain ⟨rfl, hfaces⟩ := declare_inv hdeclare
      obtain ⟨rfl, hall⟩ := ih hlater
      have hsize : r.targets.size = p.targets.size + 1 := by
        rw [← Project.length_faces, hfaces, List.length_append, Project.length_faces]
        rfl
      refine ⟨?_, ?_⟩
      · rw [hsize]
        rfl
      · rw [hall, hfaces, List.append_assoc]
        rfl

/-! ### Looking names up -/

theorem findTarget_congr (h : q.plans = p.plans) : q.findTarget = p.findTarget := by
  funext name
  rw [Project.findTarget_eq, Project.findTarget_eq, h]

theorem size_congr (h : q.plans = p.plans) : q.targets.size = p.targets.size := by
  simpa [Project.plans] using congrArg List.length h

/-- A part of the work that looks names up and leaves the plans alone. It succeeds only if all
names are known, and fails at one that is not. -/
structure LooksUp {α : Type} (part : Build α) (names : List String) (p : Project) : Prop where
  succeeds : ∀ a q, Yields part p a q →
    q.plans = p.plans ∧ ∀ name ∈ names, p.findTarget name ≠ none
  fails : ∀ e q, Fails part p e q →
    ∃ name ∈ names, p.findTarget name = none ∧ e = .unknownTarget name

theorem yields_requireTarget {name : String} :
    Yields (requireTarget name) p id q ↔ p.findTarget name = some id ∧ q = p := by
  rw [requireTarget, yields_get_bind, yields_liftExcept, Project.requireTarget]
  cases p.findTarget name <;> simp

section LooksUp

variable {α β : Type} {part : Build α} {names : List String}

theorem looksUp_requireTarget (name : String) (p : Project) :
    LooksUp (requireTarget name) [name] p where
  succeeds id q h := by
    obtain ⟨hfound, rfl⟩ := yields_requireTarget.mp h
    exact ⟨rfl, by simp [hfound]⟩
  fails e q h := by
    rw [requireTarget, fails_get_bind, fails_liftExcept, Project.requireTarget] at h
    split at h
    · cases h.1
    · next hnone =>
        cases h.1
        exact ⟨name, List.mem_singleton_self name, hnone, rfl⟩

theorem looksUp_pure (a : α) (p : Project) : LooksUp (pure a) [] p where
  succeeds b q h := ⟨congrArg _ (yields_pure.mp h).2, by simp⟩
  fails e q h := absurd h not_fails_pure

theorem looksUp_modify {change : Project → Project} (h : (change p).plans = p.plans) :
    LooksUp (modify change) [] p where
  succeeds u q hyields := by
    rw [yields_modify.mp hyields]
    exact ⟨h, by simp⟩
  fails e q hfails := absurd hfails not_fails_modify

theorem LooksUp.bind {f : α → Build β} {more : List String} (h : LooksUp part names p)
    (hf : ∀ a q, Yields part p a q → LooksUp (f a) more q) :
    LooksUp (part >>= f) (names ++ more) p where
  succeeds b r hyields := by
    obtain ⟨a, q, hpart, hrest⟩ := yields_bind.mp hyields
    obtain ⟨hplans, hnames⟩ := h.succeeds a q hpart
    obtain ⟨hlater, hmore⟩ := (hf a q hpart).succeeds b r hrest
    rw [findTarget_congr hplans] at hmore
    refine ⟨hlater.trans hplans, fun name hname => ?_⟩
    rcases List.mem_append.mp hname with hname | hname
    · exact hnames name hname
    · exact hmore name hname
  fails e r hfails := by
    rcases fails_bind.mp hfails with hpart | ⟨a, q, hpart, hrest⟩
    · obtain ⟨name, hname, hunknown⟩ := h.fails e r hpart
      exact ⟨name, List.mem_append_left _ hname, hunknown⟩
    · obtain ⟨name, hname, hunknown⟩ := (hf a q hpart).fails e r hrest
      rw [findTarget_congr (h.succeeds a q hpart).1] at hunknown
      exact ⟨name, List.mem_append_right _ hname, hunknown⟩

theorem LooksUp.forM {f : α → Build PUnit} {as : List α} {named : α → List String}
    (h : ∀ a ∈ as, ∀ q, q.plans = p.plans → LooksUp (f a) (named a) q) :
    LooksUp (as.forM f) (as.flatMap named) p := by
  induction as generalizing p with
  | nil => exact looksUp_pure _ p
  | cons a as ih =>
      have hfirst := h a List.mem_cons_self p rfl
      refine hfirst.bind fun u q hyields => ih fun b hb r hr => ?_
      exact h b (List.mem_cons_of_mem _ hb) r (hr.trans (hfirst.succeeds u q hyields).1)

theorem looksUp_requireTargets (names : List String) (p : Project) :
    LooksUp (names.mapM requireTarget) names p := by
  induction names generalizing p with
  | nil =>
      rw [List.mapM_nil]
      exact looksUp_pure _ p
  | cons name names ih =>
      rw [List.mapM_cons]
      refine (looksUp_requireTarget name p).bind fun id q _ => ?_
      have hrest := (ih q).bind fun ids r _ => looksUp_pure (id :: ids) r
      rwa [List.append_nil] at hrest

end LooksUp

theorem target?_of_findTarget {name : String} (h : p.findTarget name = some id) :
    p.target? id ≠ none := by
  rw [Project.findTarget, Option.map_eq_some_iff] at h
  obtain ⟨i, hi, rfl⟩ := h
  obtain ⟨hlt, -⟩ := Array.findIdx?_eq_some_iff_getElem.mp hi
  simp [Project.target?, hlt]

theorem looksUp_link {dep : TargetId} (hid : p.target? id ≠ none)
    (hdep : p.target? dep ≠ none) : LooksUp (Project.link id dep) [] p where
  succeeds u q h := ⟨Project.plans_link h, by simp⟩
  fails e q h := by
    rcases (Project.fails_link h).1 with hnone | hnone
    · exact absurd hnone hdep
    · exact absurd hnone hid

theorem looksUp_linkAll {names : List String} (hid : id.index < p.targets.size) :
    LooksUp (linkAll id names) names p := by
  have hall : LooksUp (linkAll id names) (names.flatMap fun name => [name]) p := by
    refine LooksUp.forM fun name _ q hq => ?_
    refine (looksUp_requireTarget name q).bind fun dep r hyields => ?_
    obtain ⟨hfound, rfl⟩ := yields_requireTarget.mp hyields
    rw [← size_congr hq] at hid
    exact looksUp_link (by simp [Project.target?, hid]) (target?_of_findTarget hfound)
  rwa [List.flatMap_singleton'] at hall

/-- The names that the links, the defaults and the groups of a manifest refer to. -/
def referredNames (m : Manifest) : List String :=
  m.declarationOrder.flatMap (·.link) ++ (m.defaults ++ m.aliases.flatMap (·.2))

/-- What is made once all targets have been declared. -/
def connect (m : Manifest) (declared : List (TargetId × List String)) : Build Unit := do
  declared.forM fun (id, names) => linkAll id names
  m.defaults.forM fun name => do
    let id ← requireTarget name
    modify (·.setDefault id)
  m.aliases.forM fun (group, names) => do
    let ids ← names.mapM requireTarget
    modify (·.addGroup group ids)

theorem populate_eq (m : Manifest) (env : EnvironmentId) :
    m.populate env =
      (m.declarationOrder.mapM fun decl => return (← declare env decl, decl.link)) >>= m.connect :=
  rfl

theorem looksUp_connect (h : p.targets.size = m.declarationOrder.length) :
    LooksUp (m.connect (declaredFrom 0 m.declarationOrder)) m.referredNames p := by
  have hlinks : LooksUp ((declaredFrom 0 m.declarationOrder).forM fun entry =>
      linkAll entry.1 entry.2) (m.declarationOrder.flatMap (·.link)) p := by
    rw [← names_declaredFrom 0]
    refine LooksUp.forM fun entry hentry q hq => looksUp_linkAll ?_
    rw [size_congr hq, h]
    exact index_of_declaredFrom hentry
  refine hlinks.bind fun _ q _ => ?_
  have hdefaults : LooksUp (m.defaults.forM fun name => do
      let id ← requireTarget name
      modify (·.setDefault id)) (m.defaults.flatMap fun name => [name]) q :=
    LooksUp.forM fun name _ r _ =>
      (looksUp_requireTarget name r).bind fun id s _ => looksUp_modify rfl
  rw [List.flatMap_singleton'] at hdefaults
  refine hdefaults.bind fun _ r _ => LooksUp.forM fun entry _ s _ => ?_
  have hgroup : LooksUp (do
      let ids ← entry.2.mapM requireTarget
      modify (·.addGroup entry.1 ids)) (entry.2 ++ []) s :=
    (looksUp_requireTargets entry.2 s).bind fun ids t _ => looksUp_modify rfl
  rwa [List.append_nil] at hgroup

/-! ### The links of each target -/

theorem linkTo_linkTo (face : Target.Face) (ids more : List TargetId) :
    (face.linkTo ids).linkTo more = face.linkTo (ids ++ more) := by
  rw [Target.Face.linkTo, Target.Face.linkTo, Target.Face.linkTo, Flag.appendNew_append]

theorem faces_linkAll {names : List String} (h : Yields (linkAll id names) p u q) :
    q.faces = p.faces.modify id.index (·.linkTo (names.filterMap p.findTarget)) := by
  induction names generalizing p with
  | nil =>
      rw [(yields_pure.mp h).2]
      exact (List.modify_id _ _).symm
  | cons name names ih =>
      obtain ⟨_, r, hfirst, hrest⟩ := yields_bind.mp h
      obtain ⟨dep, s, hrequire, hlink⟩ := yields_bind.mp hfirst
      obtain ⟨hfound, rfl⟩ := yields_requireTarget.mp hrequire
      rw [ih hrest, findTarget_congr (Project.plans_link hlink), Project.faces_link hlink,
        List.modify_modify_eq, List.filterMap_cons, hfound]
      exact congrArg (s.faces.modify id.index) (funext fun face => linkTo_linkTo face [dep] _)

/-- The targets that a declaration's links name, each once. -/
def linksOf (p : Project) (decl : TargetDecl) : List TargetId :=
  (decl.link.filterMap p.findTarget).eraseDups

/-- Each target is linked when those before it have been. -/
theorem faces_links (done : List Target.Face)
    (h : Yields ((declaredFrom done.length decls).forM fun entry => linkAll entry.1 entry.2) p u q)
    (hfaces : p.faces = done ++ decls.map (·.face [])) :
    q.plans = p.plans ∧ q.faces = done ++ decls.map fun decl => decl.face (linksOf p decl) := by
  induction decls generalizing p done with
  | nil =>
      rw [(yields_pure.mp h).2]
      exact ⟨rfl, hfaces⟩
  | cons decl rest ih =>
      obtain ⟨_, r, hfirst, hrest⟩ := yields_bind.mp h
      have hplans := plans_linkAll hfirst
      have hface : (decl.face []).linkTo (decl.link.filterMap p.findTarget) =
          decl.face (linksOf p decl) := by
        rw [Target.Face.linkTo, TargetDecl.face, Flag.appendNew_nil]
        rfl
      have hlinked : r.faces = done ++ [decl.face (linksOf p decl)] ++ rest.map (·.face []) := by
        rw [faces_linkAll hfirst, hfaces, List.map_cons, modify_length_append, hface,
          List.append_assoc, List.singleton_append]
      have hlength : (done ++ [decl.face (linksOf p decl)]).length = done.length + 1 :=
        List.length_append
      obtain ⟨hlater, hall⟩ := ih _ (by rw [hlength]; exact hrest) hlinked
      refine ⟨hlater.trans hplans, ?_⟩
      rw [hall, List.append_assoc, List.map_cons, List.singleton_append]
      simp only [linksOf, findTarget_congr hplans]

theorem faces_connect (h : Yields (m.connect (declaredFrom 0 m.declarationOrder)) p u q)
    (hfaces : p.faces = m.declarationOrder.map (·.face [])) :
    q.faces = m.declarationOrder.map fun decl => decl.face (linksOf p decl) := by
  obtain ⟨_, r, hlinks, h⟩ := yields_bind.mp h
  obtain ⟨_, s, hdefaults, hgroups⟩ := yields_bind.mp h
  obtain ⟨-, hlinked⟩ := faces_links [] hlinks hfaces
  rw [Project.faces, targets_addGroups hgroups, targets_setDefaults hdefaults]
  exact hlinked

/-! ### Accepted manifests -/

/-- Every toolchain that a manifest can name brings the tools that it requires. -/
theorem exists_environment (m : Manifest) : ∃ env, m.environment = .ok env := by
  have htoolchain : ∀ kind platform,
      ∃ env, Environment.withToolchain (ToolchainKind.toolchain kind platform) = .ok env := by
    rintro (_ | _ | _) (_ | _ | _) <;> exact ⟨_, rfl⟩
  obtain ⟨env, henv⟩ := htoolchain m.toolchain (m.platform.getD .host)
  rw [environment, henv]
  exact ⟨_, rfl⟩

/-- Every name is declared once, destinations stand where something is copied, and all names
that are referred to are declared. -/
structure Consistent (m : Manifest) : Prop where
  distinct : m.names.Nodup
  destinations : ∀ decl ∈ m.targets, decl.dest.isSome = true ↔ decl.kind.copies = true
  links : ∀ decl ∈ m.targets, ∀ name ∈ decl.link, name ∈ m.names
  defaults : ∀ name ∈ m.defaults, name ∈ m.names
  aliases : ∀ entry ∈ m.aliases, ∀ name ∈ entry.2, name ∈ m.names

/-- What is found wrong with a manifest. -/
inductive Refused (m : Manifest) : BuildError → Prop
  | destination {decl : TargetDecl} (hdecl : decl ∈ m.targets)
      (hdest : decl.kind.copies ≠ decl.dest.isSome) :
      Refused m (.target decl.name decl.destinationProblem)
  | duplicate {name : String} (htwice : m.names.Duplicate name) :
      Refused m (.duplicateTarget name)
  | unknown {name : String} (hnamed : name ∈ m.referredNames) (hnot : name ∉ m.names) :
      Refused m (.unknownTarget name)

/-- The project has the declared targets, and each is linked to the targets that it names. -/
structure Describes (m : Manifest) (p : Project) : Prop where
  targets : p.targets.toList.map Target.face =
    m.declarationOrder.map fun decl => decl.face (linksOf p decl)
  links : ∀ decl ∈ m.targets, ∀ name ∈ decl.link, ∃ id, p.findTarget name = some id

theorem perm_names (m : Manifest) : (m.declarationOrder.map TargetDecl.name).Perm m.names := by
  refine List.Perm.map _ ?_
  have hperm := List.filter_append_perm (fun decl : TargetDecl => !decl.kind.copies) m.targets
  simpa [declarationOrder] using hperm

theorem mem_referredNames {name : String} : name ∈ m.referredNames ↔
    (∃ decl ∈ m.targets, name ∈ decl.link) ∨ name ∈ m.defaults ∨
      ∃ entry ∈ m.aliases, name ∈ entry.2 := by
  simp only [referredNames, List.mem_append, List.mem_flatMap, mem_declarationOrder]

theorem consistent_iff : m.Consistent ↔ m.names.Nodup ∧
    (∀ decl ∈ m.targets, decl.kind.copies = decl.dest.isSome) ∧
      ∀ name ∈ m.referredNames, name ∈ m.names := by
  constructor
  · rintro ⟨hdistinct, hdests, hlinks, hdefaults, haliases⟩
    refine ⟨hdistinct, fun decl hdecl => Bool.eq_iff_iff.mpr (hdests decl hdecl).symm,
      fun name hname => ?_⟩
    rcases mem_referredNames.mp hname with ⟨decl, hdecl, hname⟩ | hname | ⟨entry, hentry, hname⟩
    · exact hlinks decl hdecl name hname
    · exact hdefaults name hname
    · exact haliases entry hentry name hname
  · rintro ⟨hdistinct, hdests, hnames⟩
    exact ⟨hdistinct, fun decl hdecl => (Bool.eq_iff_iff.mp (hdests decl hdecl)).symm,
      fun decl hdecl name hname => hnames name (mem_referredNames.mpr (.inl ⟨decl, hdecl, hname⟩)),
      fun name hname => hnames name (mem_referredNames.mpr (.inr (.inl hname))),
      fun entry hentry name hname =>
        hnames name (mem_referredNames.mpr (.inr (.inr ⟨entry, hentry, hname⟩)))⟩

theorem Refused.not_consistent (h : m.Refused e) : ¬ m.Consistent := by
  rw [consistent_iff]
  rintro ⟨hdistinct, hdests, hnames⟩
  cases h with
  | destination hdecl hdest => exact hdest (hdests _ hdecl)
  | duplicate htwice => exact htwice.not_nodup hdistinct
  | unknown hnamed hnot => exact hnot (hnames _ hnamed)

theorem Holds.knows (h : Holds before p) {name : String} :
    p.findTarget name ≠ none ↔ name ∈ before.map TargetDecl.name := by
  rw [h.findTarget, Ne, Option.map_eq_none_iff, findIdx?_eq_none_iff, not_not]

theorem holds_nil (hempty : p.targets = #[]) : Holds [] p :=
  ⟨by simp [Project.plans, hempty, plansAfter], List.nodup_nil⟩

theorem consistent_of_populate (hempty : p.targets = #[]) (h : Yields (m.populate env) p u q) :
    m.Consistent ∧ m.Describes q := by
  obtain ⟨hholds, hdests⟩ := holds_of_populate hempty h
  rw [populate_eq] at h
  obtain ⟨declared, r, hdeclare, hconnect⟩ := yields_bind.mp h
  obtain ⟨rfl, hfaces⟩ := declareAll_inv hdeclare
  have hnone : p.faces = [] := by simp [Project.faces, hempty]
  rw [hnone, List.nil_append] at hfaces
  rw [hempty] at hconnect
  -- nothing after the declarations changes what names stand for
  have hsize : r.targets.size = m.declarationOrder.length := by
    rw [← Project.length_faces, hfaces, List.length_map]
  obtain ⟨hplans, hknown⟩ := (looksUp_connect hsize).succeeds _ _ hconnect
  have hnames : ∀ name ∈ m.referredNames, name ∈ m.names := by
    intro name hname
    rw [mem_names, ← hholds.knows, findTarget_congr hplans]
    exact hknown name hname
  refine ⟨consistent_iff.mpr ⟨(perm_names m).nodup_iff.mp hholds.nodup,
    fun decl hdecl => hdests decl (mem_declarationOrder.mpr hdecl), hnames⟩, ?_, ?_⟩
  · have hlinked := faces_connect hconnect hfaces
    rw [Project.faces] at hlinked
    simpa only [linksOf, findTarget_congr hplans] using hlinked
  · intro decl hdecl name hname
    have hfound := hknown name (mem_referredNames.mpr (.inl ⟨decl, hdecl, hname⟩))
    rw [← findTarget_congr hplans] at hfound
    exact Option.ne_none_iff_exists'.mp hfound

theorem refused_of_populate (hempty : p.targets = #[]) (h : Fails (m.populate env) p e q) :
    m.Refused e := by
  rw [populate_eq] at h
  rcases fails_bind.mp h with hdeclare | ⟨declared, r, hdeclare, hconnect⟩
  · obtain ⟨before, decl, after, declared, r, hsplit, hbefore, hdecl⟩ := fails_mapM hdeclare
    have hmem : decl ∈ m.targets := mem_declarationOrder.mp (by rw [hsplit]; simp)
    have hholds := ((holds_nil hempty).declareAll hbefore).1
    rw [List.nil_append] at hholds
    rcases fails_bind.mp hdecl with hdecl | ⟨_, _, -, hpure⟩
    · rcases declare_fails hdecl with ⟨hdest, rfl⟩ | ⟨hknown, rfl⟩
      · exact .destination hmem hdest
      · -- the name stands among the earlier ones as well
        have hearlier := List.count_pos_iff.mpr (hholds.knows.mp hknown)
        refine .duplicate (List.duplicate_iff_two_le_count.mpr ?_)
        rw [← (perm_names m).count_eq, hsplit, List.map_append, List.map_cons, List.count_append,
          List.count_cons_self]
        omega
    · exact absurd hpure not_fails_pure
  · obtain ⟨rfl, hfaces⟩ := declareAll_inv hdeclare
    have hholds := ((holds_nil hempty).declareAll hdeclare).1
    rw [List.nil_append] at hholds
    have hsize : r.targets.size = m.declarationOrder.length := by
      rw [← Project.length_faces, hfaces, List.length_append, List.length_map]
      simp [hempty]
    rw [hempty] at hconnect
    obtain ⟨name, hname, hnone, rfl⟩ := (looksUp_connect hsize).fails _ _ hconnect
    refine .unknown hname fun hmem => hholds.knows.mpr (mem_names.mp hmem) hnone

/-- A manifest describes a project exactly if it is consistent. The project then has the
declared targets, those that copy last, each with the requirements and the output name that
were declared and linked to the targets that it names, each once. Any other manifest is refused
for a destination, for a name that is declared twice or for one that is not declared. -/
theorem toProject_exact (m : Manifest) (root : Path) :
    ((∃ p, m.toProject root = .ok p) ↔ m.Consistent) ∧
      match m.toProject root with
      | .ok p => m.Describes p
      | .error e => m.Refused e := by
  obtain ⟨env, henv⟩ := exists_environment m
  unfold toProject
  rw [henv]
  dsimp only [bind, Except.bind]
  generalize hstart : Project.addEnvironment _ env = start
  obtain ⟨id, p⟩ := start
  have hempty : p.targets = #[] := by
    cases hstart
    rfl
  rcases yields_or_fails (m.populate id) p with ⟨⟨⟩, q, hyields⟩ | ⟨e, q, hfails⟩
  · obtain ⟨hconsistent, hdescribes⟩ := consistent_of_populate hempty hyields
    rw [Yields] at hyields
    dsimp only
    rw [hyields]
    exact ⟨iff_of_true ⟨q, rfl⟩ hconsistent, hdescribes⟩
  · have hrefused := refused_of_populate hempty hfails
    rw [Fails] at hfails
    dsimp only
    rw [hfails]
    refine ⟨iff_of_false ?_ hrefused.not_consistent, hrefused⟩
    rintro ⟨p, hp⟩
    cases hp

end Manifest

end BuildPlan
