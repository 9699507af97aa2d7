import BuildPlan.Proofs.Resolve.Placement
import BuildPlan.Proofs.Resolve.Uniform

/-!
# BuildPlan.Proofs.Resolve.Scopes

How far the requirements of a target reach. Two projects that differ in the
requirements of one target are resolved to the same nodes, but for those that the
targets in the scope of the requirements build: the target itself for private ones,
and its dependents for public ones.
-/

namespace BuildPlan

open Build

/-- The node is an object or an output of the target. -/
def Project.HasNode (p : Project) (id : TargetId) (node : NodeId) : Prop :=
  ∃ t, p.target? id = some t ∧ (node ∈ t.objects ∨ node ∈ t.outputs)

/-- The node is among the sources of the target. -/
def Project.HasSource (p : Project) (id : TargetId) (node : NodeId) : Prop :=
  ∃ t, p.target? id = some t ∧ node ∈ t.sources

@[simp] theorem Project.hasNode_outline (p : Project) : p.outline.HasNode = p.HasNode := by
  funext id node
  simp [HasNode, Target.outline]

namespace Resolve

open Project

variable {affected : TargetId → Prop} {p p' q q' c : Project} {phase : Phase} {s s' : Stage}
  {node : NodeId}

/-! ### What stays once the targets are compiled -/

theorem keepsMade_of_keeps {graph graph' : NodeGraph} (h : graph.Keeps graph') :
    KeepsMade graph graph' :=
  ⟨fun node _ hnode => (h.made node).trans hnode, h.names, h.size⟩

theorem Change.keepsMade (hchange : Change phase s s') (h : Sound s) :
    KeepsMade s.project.graph s'.project.graph := by
  cases hchange with
  | note | start | finish | take => exact .refl _
  | object hmade _ hcommand =>
      exact (madeSince_of_product (hmade.product h.indexed).1 hcommand).1
  | output _ _ hmade _ hcommand =>
      exact (madeSince_of_product (hmade.product h.indexed).1 hcommand).1
  | copy _ hmade => exact (madeSince_of_product (hmade.product h.indexed).1 rfl).1
  | file path => exact keepsMade_of_keeps (NodeGraph.keeps_file _ path)
  | group name hchange =>
      exact keepsMade_of_keeps
        ((NodeGraph.keeps_group _ name).trans (NodeGraph.keeps_modify _ _ hchange))
  | command hid => exact keepsMade_of_keeps (NodeGraph.keeps_setCommand hid)

/-- What stays as it was in `c`, where the targets had been compiled. A target that
has no plan is left alone. -/
structure After (c : Project) (s : Stage) : Prop where
  sound : Sound s
  fixed : Fixed c s
  objects : ∀ id, (s.project.target? id).map Target.objects = (c.target? id).map Target.objects
  idle : ∀ id t, c.target? id = some t → t.pending = none →
    s.project.target? id = some t ∧ ∀ job ∈ s.jobs, job.target ≠ id
  made : KeepsMade c.graph s.project.graph

theorem Change.after (hphase : phase ≠ .compile) (hchange : Change phase s s') (h : After c s) :
    After c s' := by
  refine ⟨hchange.sound h.sound, hchange.fixed h.fixed, fun id => ?_, fun id t ht hidle => ?_,
    h.made.trans (hchange.keepsMade h.sound)⟩
  · cases hchange with
    | note | object | start | output => exact absurd rfl hphase
    | finish _ _ hobjects => exact (map_target?_modifyTarget hobjects _ _ _).trans (h.objects id)
    | take =>
        refine (map_target?_modifyTarget ?_ _ _ _).trans (h.objects id)
        exact fun _ => rfl
    | file | copy | group | command => exact h.objects id
  · obtain ⟨hsame, hjobs⟩ := h.idle id t ht hidle
    cases hchange with
    | note | object | start | output => exact absurd rfl hphase
    | finish =>
        refine ⟨?_, fun job hjob => hjobs job (List.mem_cons_of_mem _ hjob)⟩
        rwa [target?_modifyTarget, if_neg (hjobs _ List.mem_cons_self).symm]
    | @take _ _ other _ _ htarget hplan =>
        have hne : other ≠ id := by
          rintro rfl
          rw [hsame] at htarget
          cases htarget
          rw [hidle] at hplan
          cases hplan
        refine ⟨?_, List.forall_mem_cons.mpr ⟨hne, hjobs⟩⟩
        rwa [target?_modifyTarget, if_neg hne.symm]
    | file | copy | group | command => exact ⟨hsame, hjobs⟩

theorem Changes.after (hphase : phase ≠ .compile) (hchanges : Changes phase s s')
    (h : After c s) : After c s' := by
  induction hchanges with
  | refl => exact h
  | tail _ hchange ih => exact hchange.after hphase ih

theorem Parts.after {compiled expanded installed : Project}
    (h : Parts p compiled expanded installed q) : After compiled ⟨q, [], []⟩ := by
  have hsound := Changes.sound h.compile h.sound
  have hstart : After compiled ⟨compiled, [], []⟩ :=
    ⟨hsound, ⟨rfl, rfl, fun _ => rfl⟩, fun _ => rfl, fun _ _ ht _ => ⟨ht, by simp⟩, .refl _⟩
  have hexpanded := Changes.after (by decide) (expandCommands_changes hsound h.expand) hstart
  have hinstalled := Changes.after (by decide) h.install hexpanded
  exact Changes.after (by decide) (expandCommands_changes hinstalled.sound h.finish) hinstalled

/-! ### Two runs of resolution -/

section Marked

variable {marked : NodeId → Prop} {compiled compiled' : Project} {id other : TargetId} {t : Target}

theorem Turns.pending_eq_none (h : Turns p s) (ht : s.project.target? id = some t)
    (hresolved : t.resolved = true) : t.pending = none := by
  refine Option.eq_none_iff_forall_ne_some.mpr fun plan hplan => ?_
  rw [(h.pending id t plan ht hplan).1] at hresolved
  cases hresolved

/-- Only install targets have plans, whose outputs are copies. -/
theorem Ledger.pending_eq_none (hfresh : p.Fresh) (h : Ledger p s)
    (ht : s.project.target? id = some t) (htype : t.type.makesOutput = false) :
    t.pending = none := by
  refine Option.eq_none_iff_forall_ne_some.mpr fun plan hplan => ?_
  obtain ⟨t₀, ht₀, -, hinstall⟩ := hfresh.type_of_plan? (h.turns.pending id t plan ht hplan).2
  obtain ⟨_, hsome, hdeclared⟩ := h.fixed.declared ht
  rw [ht₀] at hsome
  cases hsome
  rw [Target.type_of_declared hdeclared, hinstall] at htype
  cases htype

/-- What one target makes no other target builds. -/
theorem Ledger.not_builds_of_makes (h : Ledger p ⟨q, [], []⟩) (hmakes : Makes q id node)
    (hne : id ≠ other) : ¬ q.Builds other node := by
  rintro ⟨t, ht, ⟨-, path, step, _, _, hmade, hkind, -⟩ | ⟨htype, houtput, -⟩⟩
  · obtain ⟨-, place, _, _, hputs, -⟩ := h.placed.outputs id node hmakes
    exact hputs.kind hmade hkind
  · exact hne (h.placed.unique id other node hmakes ⟨t, ht, htype, houtput⟩)

/-- A target that has been compiled still builds what it built then. -/
theorem Lockstep.builds_after (h : Lockstep affected marked compiled compiled')
    (hturns : Turns p ⟨compiled, [], []⟩) (hafter : After compiled ⟨q, [], []⟩)
    (hnode : marked node) : ∃ id, affected id ∧ q.Builds id node := by
  obtain ⟨id, t, hid, ht, hresolved, hbuilds⟩ := h.built node hnode
  obtain ⟨hsame, -⟩ := hafter.idle id t ht (hturns.pending_eq_none ht hresolved)
  exact ⟨id, hid, builds_mono hafter.fixed.buildDir (hsame.trans ht.symm) hafter.made hbuilds⟩

/-- The objects that another target has made itself are not marked. -/
theorem Lockstep.mem_sources_after (h : Lockstep affected marked compiled compiled')
    (hafter : After compiled ⟨q, [], []⟩) (hid : ¬ affected id) (ht : q.target? id = some t)
    (hobject : node ∈ t.objects) (hnode : marked node) : node ∈ t.sources := by
  obtain ⟨t₀, ht₀, hdeclared⟩ := hafter.fixed.declared ht
  have hobjects : t.objects = t₀.objects := by
    have hmap := hafter.objects id
    rw [ht, ht₀] at hmap
    exact Option.some.inj hmap
  rw [Target.sources_of_declared hdeclared]
  exact (h.apart id t₀ hid ht₀ node (hobjects ▸ hobject)).resolve_right fun hapart => hapart.1 hnode

/-- A target that makes no output hands out objects at most. -/
theorem Lockstep.mem_objects_after (hfresh : p.Fresh)
    (h : Lockstep affected marked compiled compiled') (hledger : Ledger p ⟨compiled, [], []⟩)
    (hafter : After compiled ⟨q, [], []⟩) (ht : q.target? id = some t)
    (htype : t.type.makesOutput = false) (houtput : node ∈ t.outputs) : node ∈ t.objects := by
  obtain ⟨t₀, ht₀, hdeclared⟩ := hafter.fixed.declared ht
  have htype₀ : t₀.type.makesOutput = false := by rwa [← Target.type_of_declared hdeclared]
  obtain ⟨hsame, -⟩ := hafter.idle id t₀ ht₀ (hledger.pending_eq_none hfresh ht₀ htype₀)
  rw [ht] at hsame
  cases hsame
  exact h.outputs id t ht₀ htype node houtput

end Marked

/-- Two projects that are alike before they are resolved have the same nodes
afterwards, but for those that affected targets build. Of the nodes of another
target only its sources can be among these. -/
theorem resolve_alike {exist exist' : Path → Bool} {u u' : Unit} (hfresh : p.Fresh)
    (h : Alike affected (fun _ => False) p p') (hrun : Yields (Project.resolve exist) p u q)
    (hrun' : Yields (Project.resolve exist') p' u' q') :
    (∀ id, q'.HasNode id = q.HasNode id) ∧
    (∀ node, (∀ id, affected id → ¬ q.Builds id node) →
      q'.graph.node? node = q.graph.node? node) ∧
    ∀ id node, ¬ affected id → q.HasNode id node →
      (q.HasSource id node → ∀ other, affected other → ¬ q.Builds other node) →
        q'.graph.node? node = q.graph.node? node := by
  obtain ⟨_, compiled, _, _, _, hruns⟩ := yields_resolveAll_iff.mp (resolve_inv hrun)
  obtain ⟨_, _, _, _, _, hruns'⟩ := yields_resolveAll_iff.mp (resolve_inv hrun')
  obtain ⟨marked, hlock, halike⟩ := Runs.lockstep (.of_fresh hfresh h) hruns hruns'
  have hparts := hruns.parts hfresh.sound
  have hafter := hparts.after
  have hcompiled := Changes.ledger hfresh hparts.compile (.of_fresh hfresh)
  refine ⟨fun id => congrFun (halike.congr (·.HasNode) (by simp)) id,
    fun node hnode => halike.graph.unmarked node fun hmarked => ?_,
    fun id node hid hnode hsources => halike.graph.unmarked node fun hmarked => ?_⟩
  · obtain ⟨id, hid, hbuilds⟩ := hlock.builds_after hcompiled.turns hafter hmarked
    exact hnode id hid hbuilds
  obtain ⟨other, hother, hbuilds⟩ := hlock.builds_after hcompiled.turns hafter hmarked
  obtain ⟨t, ht, hnode⟩ := hnode
  have hobjects : node ∉ t.objects := fun hobject =>
    hsources ⟨t, ht, hlock.mem_sources_after hafter hid ht hobject hmarked⟩ other hother hbuilds
  have houtput := hnode.resolve_left hobjects
  cases htype : t.type.makesOutput with
  | false => exact hobjects (hlock.mem_objects_after hfresh hcompiled hafter ht htype houtput)
  | true =>
      have hne : id ≠ other := fun heq => hid (heq ▸ hother)
      exact (hparts.ledger hfresh).not_builds_of_makes ⟨t, ht, htype, houtput⟩ hne hbuilds

/-! ### The scope of requirements -/

section Requirements

variable {change : Target → Target} {d id : TargetId}

theorem gatherRequirements_of_outline (houtline : p'.outline = p.outline)
    (hprivate : p'.privateReqs id = p.privateReqs id)
    (hpublic : ∀ dep ∈ p.reachedTargets id, p'.publicReqs dep = p.publicReqs dep) :
    p'.gatherRequirements id = p.gatherRequirements id := by
  have hreached : p'.reachedTargets id = p.reachedTargets id := by
    rw [← reachedTargets_outline, houtline, reachedTargets_outline]
  have hflags : p'.separatedFlags id = p.separatedFlags id := by
    rw [← separatedFlags_outline, houtline, separatedFlags_outline]
  rw [gatherRequirements, gatherRequirements, hreached, hflags, hprivate]
  exact List.foldl_ext _ _ _ fun reqs dep hdep => by rw [hpublic dep hdep]

/-- Before anything has been collected, a target can be given other requirements. -/
theorem alike_modifyTarget (hcollected : ∀ id t, p.target? id = some t → t.collected = none)
    (houtline : ∀ t, (change t).outline = t.outline)
    (hkeeps : ∀ t, (change t).collected = t.collected)
    (hgather : ∀ id, ¬ affected id →
      (p.modifyTarget d change).gatherRequirements id = p.gatherRequirements id) :
    Alike affected (fun _ => False) p (p.modifyTarget d change) := by
  refine ⟨outline_modifyTarget_of_eq houtline p d, .refl _ _, fun id hid => ?_⟩
  have hnone : (p.target? id).bind Target.collected = none := by
    rw [Option.bind_eq_none_iff]
    exact hcollected id
  have hnone' : ((p.modifyTarget d change).target? id).bind Target.collected = none := by
    rw [Option.bind_eq_none_iff]
    intro t' ht'
    obtain ⟨t, ht, rfl⟩ := exists_target_of_modifyTarget ht'
    split
    · rw [hkeeps, hcollected id t ht]
    · exact hcollected id t ht
  rw [requirementsOf, requirementsOf, hnone, hnone', hgather id hid]

/-- Private requirements are for the target itself. -/
theorem alike_of_privateReqs (hcollected : ∀ id t, p.target? id = some t → t.collected = none)
    (d : TargetId) (reqs : Requirements) :
    Alike (· = d) (fun _ => False) p
      (p.modifyTarget d fun t => { t with privateReqs := reqs }) := by
  refine alike_modifyTarget hcollected ?_ ?_ fun id hid => gatherRequirements_of_outline ?_ ?_ ?_
  · exact fun _ => rfl
  · exact fun _ => rfl
  · refine outline_modifyTarget_of_eq ?_ p d
    exact fun _ => rfl
  · rw [privateReqs, privateReqs, target?_modifyTarget, if_neg hid]
  · intro dep _
    have hsame : ∀ t : Target, { t with privateReqs := reqs }.publicReqs = t.publicReqs :=
      fun _ => rfl
    rw [publicReqs, publicReqs, map_target?_modifyTarget hsame]

/-- Public requirements are for the targets that reach the target. -/
theorem alike_of_publicReqs (hcollected : ∀ id t, p.target? id = some t → t.collected = none)
    (d : TargetId) (reqs : Requirements) :
    Alike (fun id => d ∈ p.reachedTargets id) (fun _ => False) p
      (p.modifyTarget d fun t => { t with publicReqs := reqs }) := by
  refine alike_modifyTarget hcollected ?_ ?_ fun id hid => gatherRequirements_of_outline ?_ ?_ ?_
  · exact fun _ => rfl
  · exact fun _ => rfl
  · refine outline_modifyTarget_of_eq ?_ p d
    exact fun _ => rfl
  · have hsame : ∀ t : Target, { t with publicReqs := reqs }.privateReqs = t.privateReqs :=
      fun _ => rfl
    rw [privateReqs, privateReqs, map_target?_modifyTarget hsame]
  · intro dep hdep
    have hne : dep ≠ d := fun heq => hid (heq ▸ hdep)
    rw [publicReqs, publicReqs, target?_modifyTarget, if_neg hne]

end Requirements

/-! ### An object that another target takes in -/

/-- A target that compiles may be given beforehand what it would collect. -/
theorem yields_resolveTarget_collected {id : TargetId} {t : Target} {env : EnvironmentId}
    {reqs : Requirements} {u : Unit} (ht : p.target? id = some t) (hopen : t.resolved = false)
    (htype : t.type.compiles = true) (henv : t.env = some env) (hcollected : t.collected = none)
    (hreqs : p.gatherRequirements id = reqs) :
    Yields (resolveTarget id) p u q ↔ Yields (resolveTarget id)
      (p.modifyTarget id fun t => { t with collected := some reqs }) u q := by
  have ht' := target?_modifyTarget p id id fun t => { t with collected := some reqs }
  rw [if_pos rfl, ht, Option.map_some] at ht'
  generalize hp : (p.modifyTarget id fun t => { t with collected := some reqs }) = p' at ht' ⊢
  -- collecting leads from the one project to the other, and leaves that as it is
  have hcollect : (effectiveRequirements id .compile).run p =
      (effectiveRequirements id .compile).run p' := by
    have hrun : (collectRequirements id).run p = (reqs, p') := by
      rw [← hp, ← hreqs]
      simp [collectRequirements, ht, hcollected]
      rfl
    have hrun' : (collectRequirements id).run p' = (reqs, p') := by
      simp [collectRequirements, ht']
      rfl
    rw [effectiveRequirements, StateT.run_bind, StateT.run_bind, hrun, hrun']
  have hcompile : Yields (compileTarget id env t.sources) p u q ↔
      Yields (compileTarget id env t.sources) p' u q := by
    rw [compileTarget, yields_liftState_bind, yields_liftState_bind, hcollect]
  rw [resolveTarget, yields_get_bind, yields_get_bind, ht, ht']
  cases hkind : t.type with
  | interface | install =>
      rw [hkind] at htype
      cases htype
  | staticLibrary | sharedLibrary | program | object =>
      simp only [hopen, hkind, henv, Bool.false_eq_true, if_false]
      exact hcompile

/-- An environment that compiles, without a command. -/
def compileTools : Environment where
  tools := [("cc", [])]
  toolchains := [{
    name := "cc"
    handlers := [(".c", { tool := "cc", language := "c", objectSuffix := ".o" })] }]

def definitionIf (wanted : Bool) : Requirements := if wanted then { defines := ["D"] } else {}

/-- `e` is linked to `d` and compiles `x.c`. The object is a linker input of `d`, which
may offer a definition, or keep it to itself. -/
def relinking (offered own : Bool) : Project where
  name := "relinking"
  environments := #[compileTools]
  targets := #[
    { name := "d", type := .object, env := some ⟨0⟩, sources := [⟨1⟩]
      publicReqs := definitionIf offered, privateReqs := definitionIf own },
    { name := "e", type := .object, env := some ⟨0⟩, sources := [⟨0⟩], dependencies := [⟨0⟩] }]
  graph := ((NodeGraph.file {} ⟨"x.c"⟩).2.file ⟨"build/obj.e/x.o"⟩).2

/-- The project once `d` has had its turn. -/
def relinkingOnce (offered own : Bool) : Project :=
  (relinking offered own).modifyTarget ⟨0⟩ fun t =>
    { t with
      objects := [⟨1⟩], outputs := [⟨1⟩], collected := some (definitionIf own), resolved := true }

/-- The project once `e` has had its turn as well, after which nothing is left to do. -/
def relinked (offered own : Bool) : Project :=
  ((resolveTarget ⟨1⟩).run.run ((relinkingOnce offered own).modifyTarget ⟨1⟩ fun t =>
    { t with collected := some (definitionIf offered) })).2

theorem fresh_relinking (offered own : Bool) : (relinking offered own).Fresh := by
  have hnew : Fresh { name := "relinking", environments := #[compileTools] } :=
    (fresh_new "relinking" ⟨"."⟩ ⟨"build"⟩ false).withEnvironments _
  refine Fresh.withTargets ((hnew.file ⟨"x.c"⟩).file ⟨"build/obj.e/x.o"⟩) fun t ht => ?_
  have hsize : ∀ node : NodeId, node.index < 2 →
      node.index < (relinking offered own).graph.size := fun _ hlt => hlt
  simp only [List.mem_toArray, List.mem_cons, List.not_mem_nil, or_false] at ht
  rcases ht with rfl | rfl
  all_goals
    refine ⟨rfl, rfl, rfl, by simp, fun node hnode => hsize node ?_⟩
    simp only [Target.nodes, Option.toList_none, List.flatMap_nil, List.append_nil,
      List.mem_singleton] at hnode
    rw [hnode]
    decide

theorem outline_relinking (offered own : Bool) :
    (relinking offered own).outline = { relinking false false with graph := {} } := by
  simp [outline, relinking, Target.outline, definitionIf]

theorem buildOrder_relinking (offered own : Bool) :
    (relinking offered own).buildOrder = .ok [⟨0⟩, ⟨1⟩] := by
  rw [← buildOrder_outline, outline_relinking]
  dsimp only [relinking]
  cbv

theorem gatherRequirements_relinking (offered own : Bool) :
    (relinking offered own).gatherRequirements ⟨0⟩ = definitionIf own ∧
      (relinking offered own).gatherRequirements ⟨1⟩ = definitionIf offered := by
  have hd : (relinking offered own).reachedTargets ⟨0⟩ = [] := by
    rw [← reachedTargets_outline, outline_relinking]
    dsimp only [relinking]
    cbv
  have he : (relinking offered own).reachedTargets ⟨1⟩ = [⟨0⟩] := by
    rw [← reachedTargets_outline, outline_relinking]
    dsimp only [relinking]
    cbv
  rw [gatherRequirements, gatherRequirements, hd, he]
  cases offered <;> cases own <;> exact ⟨rfl, by decide⟩

theorem yields_relinked (offered own : Bool) :
    Yields (Project.resolve fun _ => true) (relinking offered own) () (relinked offered own) := by
  obtain ⟨hown, hoffered⟩ := gatherRequirements_relinking offered own
  have honce : (relinkingOnce offered own).gatherRequirements ⟨1⟩ = definitionIf offered := by
    rw [← hoffered]
    refine congrFun (gatherRequirements_modifyTarget ?_ _ _) ⟨1⟩
    exact fun _ => rfl
  have hfirst :
      Yields (resolveTarget ⟨0⟩) (relinking offered own) () (relinkingOnce offered own) := by
    rw [yields_resolveTarget_collected rfl rfl rfl rfl rfl hown]
    cases offered <;> cases own <;> rfl
  have hsecond :
      Yields (resolveTarget ⟨1⟩) (relinkingOnce offered own) () (relinked offered own) := by
    rw [yields_resolveTarget_collected rfl rfl rfl rfl rfl honce]
    refine Prod.ext ?_ rfl
    cases offered <;> cases own <;> rfl
  have hruns : Runs (relinking offered own) [⟨0⟩, ⟨1⟩] (relinked offered own)
      (relinked offered own) (relinked offered own) (relinked offered own)
      (relinked offered own) := by
    refine ⟨buildOrder_relinking offered own, yields_bind.mpr ⟨⟨⟩, _, hfirst,
      yields_bind.mpr ⟨⟨⟩, _, hsecond, yields_pure.mpr ⟨rfl, rfl⟩⟩⟩, ?_, ?_, ?_, ?_⟩
    all_goals cases offered <;> cases own <;> rfl
  refine yields_resolve_of_lenient (yields_resolveAll_iff.mpr ⟨_, _, _, _, _, hruns⟩) ?_
  cases offered <;> cases own <;> rfl

theorem collected_relinking (offered own : Bool) (id : TargetId) (t : Target)
    (ht : (relinking offered own).target? id = some t) : t.collected = none := by
  obtain ⟨i⟩ := id
  rcases i with _ | _ | i
  · cases ht
    rfl
  · cases ht
    rfl
  · simp [relinking, target?] at ht

/-! ### Requirements stay in their scope -/

/-- If only the private requirements of `d` differ before resolution, every node that
is no object and no output of `d` is the same afterwards. If only its public
requirements differ, every node is the same that no target depending on `d` builds.
So are the nodes of `d` itself and of every target that does not depend on it, except
for linker inputs among its sources that a target depending on `d` builds. -/
theorem requirements_stay_in_scope {exist exist' : Path → Bool} {u u' : Unit} (d : TargetId)
    (reqs : Requirements) (hfresh : p.Fresh)
    (hcollected : ∀ id t, p.target? id = some t → t.collected = none)
    (hrun : Yields (Project.resolve exist) p u q) :
    (Yields (Project.resolve exist')
        (p.modifyTarget d fun t => { t with privateReqs := reqs }) u' q' →
      (∀ id, q'.HasNode id = q.HasNode id) ∧
      ∀ node, ¬ q.HasNode d node → q'.graph.node? node = q.graph.node? node) ∧
    (Yields (Project.resolve exist')
        (p.modifyTarget d fun t => { t with publicReqs := reqs }) u' q' →
      (∀ id, q'.HasNode id = q.HasNode id) ∧
      (∀ node, (∀ other, other ≠ d → Relation.TransGen (p.DependsOn p.targetIds) other d →
          ¬ q.Builds other node) → q'.graph.node? node = q.graph.node? node) ∧
      ∀ id node, id = d ∨ ¬ Relation.TransGen (p.DependsOn p.targetIds) id d →
        q.HasNode id node →
        (q.HasSource id node → ∀ other, other ≠ d →
          Relation.TransGen (p.DependsOn p.targetIds) other d → ¬ q.Builds other node) →
        q'.graph.node? node = q.graph.node? node) := by
  refine ⟨fun hrun' => ?_, fun hrun' => ?_⟩
  · obtain ⟨hnodes, hsame, -⟩ :=
      resolve_alike hfresh (alike_of_privateReqs hcollected d reqs) hrun hrun'
    refine ⟨hnodes, fun node hnode => hsame node ?_⟩
    rintro _ rfl ⟨t, ht, ⟨hobject, -⟩ | ⟨-, houtput, -⟩⟩
    · exact hnode ⟨t, ht, .inl hobject⟩
    · exact hnode ⟨t, ht, .inr houtput⟩
  · obtain ⟨hnodes, hsame, hothers⟩ :=
      resolve_alike hfresh (alike_of_publicReqs hcollected d reqs) hrun hrun'
    simp only [mem_reachedTargets] at hsame hothers
    refine ⟨hnodes, fun node hnode => hsame node fun other hother => ?_,
      fun id node hid hnode hsources => hothers id node ?_ hnode fun hsource other hother => ?_⟩
    · exact hnode other hother.1.symm hother.2
    · rintro ⟨hne, hpath⟩
      exact hid.elim (fun heq => hne heq.symm) fun hnot => hnot hpath
    · exact hsources hsource other hother.1.symm hother.2

/-- The two scopes, for a definition that `d` keeps to itself or offers. -/
theorem requirements_stay_in_scope_relinking :
    (relinking false false).Fresh ∧
      (∀ id t, (relinking false false).target? id = some t → t.collected = none) ∧
      Yields (Project.resolve fun _ => true) (relinking false false) () (relinked false false) ∧
      (∀ node, ¬ (relinked false false).HasNode ⟨0⟩ node →
        (relinked false true).graph.node? node = (relinked false false).graph.node? node) ∧
      ∀ node, (∀ other, other ≠ ⟨0⟩ → Relation.TransGen
          ((relinking false false).DependsOn (relinking false false).targetIds) other ⟨0⟩ →
          ¬ (relinked false false).Builds other node) →
        (relinked true false).graph.node? node = (relinked false false).graph.node? node := by
  have hfresh := fresh_relinking false false
  have hcollected := collected_relinking false false
  have hrun := yields_relinked false false
  obtain ⟨hprivate, -⟩ :=
    requirements_stay_in_scope ⟨0⟩ (definitionIf true) hfresh hcollected hrun
  obtain ⟨-, hpublic⟩ :=
    requirements_stay_in_scope ⟨0⟩ (definitionIf true) hfresh hcollected hrun
  exact ⟨hfresh, hcollected, hrun, (hprivate (yields_relinked false true)).2,
    (hpublic (yields_relinked true false)).2.1⟩

/-- A linker input of `d` itself differs if `d` offers a definition. -/
theorem not_forall_nodes_of_offering_same : ¬ ∀ (p q q' : Project) (exist exist' : Path → Bool)
    (d : TargetId) (reqs : Requirements), p.Fresh →
    (∀ id t, p.target? id = some t → t.collected = none) →
    Yields (Project.resolve exist) p () q →
    Yields (Project.resolve exist')
      (p.modifyTarget d fun t => { t with publicReqs := reqs }) () q' →
    ∀ id node, id = d ∨ ¬ Relation.TransGen (p.DependsOn p.targetIds) id d →
      q.HasNode id node → q'.graph.node? node = q.graph.node? node := by
  intro hall
  have hdefines : ∀ offered, (((relinked offered false).graph.node? ⟨1⟩).bind fun node =>
      node.step?.bind fun step => step.context.map (·.requirements.defines)) =
        some (definitionIf offered).defines := by
    intro offered
    cases offered <;> rfl
  have hnode : (relinked false false).HasNode ⟨0⟩ ⟨1⟩ :=
    ⟨_, rfl, .inl (List.mem_singleton_self _)⟩
  have hsame := hall _ _ _ _ _ ⟨0⟩ (definitionIf true) (fresh_relinking false false)
    (collected_relinking false false) (yields_relinked false false) (yields_relinked true false)
    ⟨0⟩ ⟨1⟩ (.inl rfl) hnode
  have hdefined := hdefines true
  rw [hsame, hdefines false] at hdefined
  cases hdefined

end Resolve

end BuildPlan
