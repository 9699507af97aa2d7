import BuildPlan.Proofs.Project.Outline
import BuildPlan.Proofs.Project.Usage

/-!
# BuildPlan.Proofs.Project.Alike

Pairs of projects that are alike but for the requirements of some targets and the
steps of some nodes. What is read of them apart from requirements is the same, and
collecting requirements keeps them alike.
-/

namespace BuildPlan

/-! ### Collected requirements -/

/-- What of a target the requirements of any target are gathered from. -/
def Target.wishes (t : Target) :
    Requirements × Requirements × List TargetId × Option EnvironmentId :=
  (t.publicReqs, t.privateReqs, t.dependencies, t.env)

namespace Project

variable {p p' q q' : Project} {id : TargetId} {change : Target → Target}

/-- What is read of a target when requirements are gathered. -/
theorem reads_of_wishes
    (h : (q.target? id).map Target.wishes = (p.target? id).map Target.wishes) :
    q.publicReqs id = p.publicReqs id ∧ q.privateReqs id = p.privateReqs id ∧
      q.dependenciesOf id = p.dependenciesOf id ∧
      (q.target? id).bind Target.env = (p.target? id).bind Target.env := by
  have hread : ∀ {β : Type} (f : _ → β),
      (q.target? id).map (f ∘ Target.wishes) = (p.target? id).map (f ∘ Target.wishes) := by
    intro β f
    rw [← Option.map_map, h, Option.map_map]
  exact ⟨congrArg (·.getD {}) (hread (·.1)), congrArg (·.getD {}) (hread (·.2.1)),
    congrArg (·.getD []) (hread (·.2.2.1)), bind_congr_map (hread (·.2.2.2))⟩

theorem gatherRequirements_congr (henv : q.environments = p.environments)
    (hsize : q.targets.size = p.targets.size)
    (h : ∀ id, (q.target? id).map Target.wishes = (p.target? id).map Target.wishes) :
    q.gatherRequirements = p.gatherRequirements := by
  have hpublic : q.publicReqs = p.publicReqs := funext fun id => (reads_of_wishes (h id)).1
  have hprivate : q.privateReqs = p.privateReqs := funext fun id => (reads_of_wishes (h id)).2.1
  have hdeps : q.dependenciesOf = p.dependenciesOf :=
    funext fun id => (reads_of_wishes (h id)).2.2.1
  have hids : q.targetIds = p.targetIds := by rw [targetIds, hsize, targetIds]
  have hflags : q.separatedFlags = p.separatedFlags := by
    funext id
    rw [separatedFlags, separatedFlags, targetEnvironment?, targetEnvironment?,
      (reads_of_wishes (h id)).2.2.2, environment?_congr henv]
  funext id
  rw [gatherRequirements, gatherRequirements, reachedTargets, reachedTargets, hpublic, hprivate,
    hdeps, hids, hflags]

theorem map_target?_modifyTarget {β : Type} {f : Target → β} (h : ∀ t, f (change t) = f t)
    (p : Project) (id other : TargetId) :
    ((p.modifyTarget id change).target? other).map f = (p.target? other).map f := by
  rw [target?_modifyTarget]
  split
  · next heq =>
      rw [heq]
      cases p.target? id <;> simp [h]
  · rfl

theorem gatherRequirements_modifyTarget (h : ∀ t, (change t).wishes = t.wishes) (p : Project)
    (id : TargetId) : (p.modifyTarget id change).gatherRequirements = p.gatherRequirements :=
  gatherRequirements_congr rfl (by simp [modifyTarget]) (map_target?_modifyTarget h p id)

theorem memo?_modifyTarget (h : ∀ t, (change t).collected = t.collected) (p : Project)
    (id other : TargetId) : (p.modifyTarget id change).memo? other = p.memo? other :=
  bind_congr_map (map_target?_modifyTarget h p id other)

theorem requirementsOf_modifyTarget (h : ∀ t, (change t).wishes = t.wishes)
    (hcollected : ∀ t, (change t).collected = t.collected) (p : Project) (id : TargetId) :
    (p.modifyTarget id change).requirementsOf = p.requirementsOf := by
  funext other
  rw [requirementsOf, requirementsOf, gatherRequirements_modifyTarget h, ← memo?, ← memo?,
    memo?_modifyTarget hcollected]

/-- Keeping what has been collected changes none of it. -/
theorem requirementsOf_collected (p : Project) (id : TargetId) :
    (p.modifyTarget id fun t => { t with collected := some (p.requirementsOf id) }).requirementsOf =
      p.requirementsOf := by
  have hgather : (p.modifyTarget id fun t =>
      { t with collected := some (p.requirementsOf id) }).gatherRequirements =
      p.gatherRequirements := by
    refine gatherRequirements_modifyTarget ?_ p id
    exact fun _ => rfl
  funext other
  rw [requirementsOf, hgather, target?_modifyTarget]
  split
  · next heq =>
      subst heq
      cases ht : p.target? other with
      | none => simp [requirementsOf, ht]
      | some t => simp
  · rfl

/-! ### Outlines of changed projects -/

theorem outline_modifyTarget (h : ∀ t, (change t).outline = change t.outline) (p : Project)
    (id : TargetId) : (p.modifyTarget id change).outline = p.outline.modifyTarget id change := by
  simp only [outline, modifyTarget, Project.mk.injEq, true_and, and_true]
  refine Array.ext_getElem? fun i => ?_
  simp only [Array.getElem?_map, Array.getElem?_modify]
  split
  · cases p.targets[i]? <;> simp [h]
  · rfl

theorem outline_modifyTarget_of_eq (h : ∀ t, (change t).outline = t.outline) (p : Project)
    (id : TargetId) : (p.modifyTarget id change).outline = p.outline := by
  simp only [outline, modifyTarget, Project.mk.injEq, true_and, and_true]
  refine Array.ext_getElem? fun i => ?_
  simp only [Array.getElem?_map, Array.getElem?_modify]
  split
  · cases p.targets[i]? <;> simp [h]
  · rfl

/-! ### Projects that are alike -/

/-- The projects have one outline. The steps of the marked nodes may be carried out
under different requirements, and those of the affected targets may differ. -/
structure Alike (affected : TargetId → Prop) (marked : NodeId → Prop) (p p' : Project) : Prop where
  outline : p'.outline = p.outline
  graph : p.graph.Alike marked p'.graph
  requirements : ∀ id, ¬ affected id → p'.requirementsOf id = p.requirementsOf id

namespace Alike

variable {affected : TargetId → Prop} {marked marked' : NodeId → Prop}

/-- What can be read off the outline is the same. -/
theorem congr {α : Type} (h : Alike affected marked p p') (f : Project → α)
    (hf : ∀ p, f p.outline = f p) : f p' = f p := by
  rw [← hf p', h.outline, hf]

theorem mono (h : Alike affected marked p p') (himp : ∀ id, marked id → marked' id) :
    Alike affected marked' p p' :=
  ⟨h.outline, h.graph.mono himp, h.requirements⟩

theorem withGraph (h : Alike affected marked p p') {graph graph' : NodeGraph}
    (hgraph : graph.Alike marked' graph') :
    Alike affected marked' { p with graph } { p' with graph := graph' } :=
  ⟨h.outline, hgraph, h.requirements⟩

/-- A target is changed in the same way, and not in its requirements. -/
theorem modifyTarget (h : Alike affected marked p p') (id : TargetId)
    (houtline : ∀ t, (change t).outline = change t.outline)
    (hwishes : ∀ t, (change t).wishes = t.wishes)
    (hcollected : ∀ t, (change t).collected = t.collected) :
    Alike affected marked (p.modifyTarget id change) (p'.modifyTarget id change) := by
  refine ⟨?_, h.graph, fun other hother => ?_⟩
  · rw [outline_modifyTarget houtline, outline_modifyTarget houtline, h.outline]
  · rw [requirementsOf_modifyTarget hwishes hcollected,
      requirementsOf_modifyTarget hwishes hcollected]
    exact h.requirements other hother

theorem target?_cases (h : Alike affected marked p p') (id : TargetId) :
    (p.target? id = none ∧ p'.target? id = none) ∨
      ∃ t publicReqs privateReqs collected, p.target? id = some t ∧
        p'.target? id = some { t with publicReqs, privateReqs, collected } := by
  have houtline : (p'.target? id).map Target.outline = (p.target? id).map Target.outline := by
    rw [← Project.target?_outline, h.outline, Project.target?_outline]
  cases ht : p.target? id with
  | none =>
      rw [ht, Option.map_none, Option.map_eq_none_iff] at houtline
      exact .inl ⟨rfl, houtline⟩
  | some t =>
      rw [ht, Option.map_some, Option.map_eq_some_iff] at houtline
      obtain ⟨t', ht', heq⟩ := houtline
      obtain ⟨publicReqs, privateReqs, collected, rfl⟩ := Target.eq_of_outline heq
      exact .inr ⟨t, publicReqs, privateReqs, collected, rfl, ht'⟩

theorem collectRequirements (h : Alike affected marked p p') (id : TargetId) :
    (¬ affected id →
      ((collectRequirements id).run p').1 = ((collectRequirements id).run p).1) ∧
    Alike affected marked ((collectRequirements id).run p).2
      ((collectRequirements id).run p').2 := by
  -- one run leaves an outline, the nodes and what is collected as they are
  have hrun : ∀ p : Project, let q := ((Project.collectRequirements id).run p).2
      q.outline = p.outline ∧ q.graph = p.graph ∧ q.requirementsOf = p.requirementsOf := by
    intro p
    dsimp only
    rcases (collectRequirements_run id p).2 with heq | heq <;> rw [heq]
    · exact ⟨rfl, rfl, rfl⟩
    · refine ⟨outline_modifyTarget_of_eq ?_ p id, rfl, requirementsOf_collected p id⟩
      exact fun _ => rfl
  refine ⟨fun hid => ?_, ⟨?_, ?_, fun other hother => ?_⟩⟩
  · rw [(collectRequirements_run id p').1, (collectRequirements_run id p).1, h.requirements id hid]
  · rw [(hrun p').1, (hrun p).1, h.outline]
  · rw [(hrun p').2.1, (hrun p).2.1]
    exact h.graph
  · rw [(hrun p').2.2, (hrun p).2.2, h.requirements other hother]

theorem effectiveRequirements (h : Alike affected marked p p') (id : TargetId)
    (scope : RequirementScope) :
    (¬ affected id → ((effectiveRequirements id scope).run p').1 =
      ((effectiveRequirements id scope).run p).1) ∧
    Alike affected marked ((effectiveRequirements id scope).run p).2
      ((effectiveRequirements id scope).run p').2 := by
  obtain ⟨hreqs, hafter⟩ := h.collectRequirements id
  cases scope with
  | link =>
      refine ⟨fun hid => ?_, hafter⟩
      exact congrArg (EffectiveRequirements.ofRequirements · .link) (hreqs hid)
  | compile =>
      refine ⟨fun hid => ?_, hafter⟩
      have hflags := hafter.congr (·.separatedFlags id) (by simp)
      have himplied := hafter.congr (·.impliedFlags id) (by simp)
      have hrun : ∀ p : Project, ((Project.effectiveRequirements id .compile).run p).1 =
          let effective :=
            EffectiveRequirements.ofRequirements ((Project.collectRequirements id).run p).1 .compile
          let q := ((Project.collectRequirements id).run p).2
          { effective with
            compileFlags :=
              Flag.merge (q.separatedFlags id) effective.compileFlags (q.impliedFlags id) } :=
        fun _ => rfl
      rw [hrun, hrun, hreqs hid]
      dsimp only
      rw [hflags, himplied]

end Alike

end Project

end BuildPlan
