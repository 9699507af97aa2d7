import BuildPlan.Proofs.Project.Declared
import BuildPlan.Proofs.Resolve.Run
import Mathlib.Data.List.Nodup

/-!
# BuildPlan.Proofs.Resolve.Commands

Which nodes have a command after resolution. The commands of the first phase are
expanded for all nodes. In the second phase they are expanded for the nodes made
since, which leaves out a copy whose path had a node before: it keeps no command.
-/

namespace BuildPlan.Resolve

open Build Project

variable {p q : Project} {id : NodeId} {step : BuildStep} {command : Option (List Token)}

/-! ### What a template expands to -/

/-- The command is what the step's template expands to under the step's bindings.
There is none if the template refers to an undefined variable, and no other
failure. Nothing is asked if the environment or the template is missing. -/
def Expands (p : Project) (step : BuildStep) (command : Option (List Token)) : Prop :=
  ∀ env template, step.env.bind p.environment? = some env →
    env.field? step.tool step.commandVar = some template →
    ∃ ns, env.namespaceWith (stepBindings env step) = .ok ns ∧
      match Template.substTokens template ns with
      | .ok tokens => command = some tokens
      | .error (.missingVariable _) => command = none
      | .error _ => False

theorem expands_of_expandStep (h : expandStep p step = .ok command) : Expands p step command := by
  intro env template henv htemplate
  simp only [expandStep, henv, htemplate, bind, Except.bind] at h
  cases hns : env.namespaceWith (stepBindings env step) with
  | error e => simp [hns] at h
  | ok ns =>
      refine ⟨ns, rfl, ?_⟩
      simp only [hns] at h
      split at h <;> simp_all

/-- A step's command has no part in what its template expands to. -/
theorem expandStep_withCommand (p : Project) (step : BuildStep) (command : Option (List Token)) :
    expandStep p { step with command } = expandStep p step := rfl

theorem expandStep_congr (h : q.environments = p.environments) (step : BuildStep) :
    expandStep q step = expandStep p step := by
  rw [expandStep, expandStep, Project.environment?_congr h]

/-! ### Expanding the commands of some nodes -/

/-- The nodes in `ids` that had no command have been expanded; the other nodes
are as they were. -/
structure Expanded (ids : List NodeId) (p q : Project) : Prop where
  environments : q.environments = p.environments
  size : q.graph.size = p.graph.size
  expanded : ∀ id ∈ ids, ∀ path step, p.graph.kind? id = some (.file path (some step)) →
    step.command = none → ∃ command, expandStep p step = .ok command ∧
      q.graph.kind? id = some (.file path (some { step with command }))
  unbuilt : ∀ id, p.graph.step? id = none → q.graph.kind? id = p.graph.kind? id
  others : ∀ id, id ∉ ids → q.graph.kind? id = p.graph.kind? id

theorem yields_expandNode_of_command {tokens : List Token} (hstep : p.graph.step? id = some step)
    (hnone : step.command = none) (hexpand : expandStep p step = .ok (some tokens)) :
    Yields (expandNode id) p () { p with graph := p.graph.setCommand id tokens } := by
  rw [expandNode, yields_get_bind, hstep]
  simp only [hnone, Option.isSome_none, hexpand]
  rfl

theorem expanded_expandNode {u : Unit} (h : Yields (expandNode id) p u q) : Expanded [id] p q := by
  rcases expandNode_inv h with ⟨rfl, hnothing⟩ | ⟨step, tokens, hstep, hcommand, hexpand, rfl⟩
  · refine ⟨rfl, rfl, fun other hother path step hkind hcommand => ?_, fun _ _ => rfl,
      fun _ _ => rfl⟩
    obtain rfl := List.mem_singleton.mp hother
    refine ⟨none, hnothing step (NodeGraph.step?_eq_some_iff.mpr ⟨path, hkind⟩) hcommand, ?_⟩
    rw [hkind, ← hcommand]
  · obtain ⟨path, hkind⟩ := NodeGraph.step?_eq_some_iff.mp hstep
    have hkinds := NodeGraph.kind?_setCommand hkind tokens
    refine ⟨rfl, NodeGraph.size_modify _ _ _, fun other hother path' step' hkind' _ => ?_,
      fun other hnone => ?_, fun other hother => ?_⟩
    · obtain rfl := List.mem_singleton.mp hother
      rw [hkind] at hkind'
      cases hkind'
      exact ⟨some tokens, hexpand, by rw [hkinds, if_pos rfl]⟩
    · rw [hkinds, if_neg]
      rintro rfl
      rw [hstep] at hnone
      cases hnone
    · rw [hkinds, if_neg (fun heq => hother (List.mem_singleton.mpr heq))]

theorem expanded_forM {ids : List NodeId} {u : PUnit} (hnodup : ids.Nodup)
    (h : Yields (ids.forM expandNode) p u q) : Expanded ids p q := by
  induction ids generalizing p with
  | nil =>
      obtain ⟨-, rfl⟩ := yields_pure.mp h
      exact ⟨rfl, rfl, by simp, fun _ _ => rfl, fun _ _ => rfl⟩
  | cons id rest ih =>
      obtain ⟨hnew, hrest⟩ := List.nodup_cons.mp hnodup
      obtain ⟨_, r, hfirst, hlast⟩ := yields_bind.mp h
      have h₁ := expanded_expandNode hfirst
      have h₂ := ih hrest hlast
      refine ⟨h₂.environments.trans h₁.environments, h₂.size.trans h₁.size,
        fun other hother path step hkind hcommand => ?_, fun other hnone => ?_,
        fun other hother => ?_⟩
      · rcases List.mem_cons.mp hother with rfl | hother
        · obtain ⟨command, hexpand, hafter⟩ :=
            h₁.expanded other List.mem_cons_self path step hkind hcommand
          exact ⟨command, hexpand, (h₂.others other hnew).trans hafter⟩
        · have hne : other ∉ [id] := by
            rintro hmem
            exact hnew (List.mem_singleton.mp hmem ▸ hother)
          rw [← h₁.others other hne] at hkind
          rw [← expandStep_congr h₁.environments]
          exact h₂.expanded other hother path step hkind hcommand
      · have hsame := h₁.unbuilt other hnone
        refine (h₂.unbuilt other ?_).trans hsame
        rw [NodeGraph.step?_congr hsame, hnone]
      · obtain ⟨hne, hother⟩ := not_or.mp (mt List.mem_cons.mpr hother)
        exact (h₂.others other hother).trans (h₁.others other (by simpa using hne))

/-- The ids of the nodes from `start` on. -/
theorem ids_drop (graph : NodeGraph) (start : Nat) :
    graph.ids.drop start = (List.range' start (graph.size - start)).map NodeId.mk := by
  rw [NodeGraph.ids, ← List.map_drop, List.range_eq_range', List.drop_range']
  simp

theorem mem_ids_drop {graph : NodeGraph} {start : Nat} :
    id ∈ graph.ids.drop start ↔ start ≤ id.index ∧ id.index < graph.size := by
  obtain ⟨i⟩ := id
  simp only [ids_drop, List.mem_map, List.mem_range'_1, NodeId.mk.injEq, exists_eq_right]
  omega

theorem nodup_ids_drop (graph : NodeGraph) (start : Nat) : (graph.ids.drop start).Nodup := by
  rw [ids_drop]
  refine List.Nodup.map (fun i j h => ?_) List.nodup_range'
  cases h
  rfl

/-- The commands of the nodes from `start` on are expanded. -/
theorem expanded_expandCommands {start : Nat} {u : Unit}
    (h : Yields (expandCommands start) p u q) : Expanded (p.graph.ids.drop start) p q := by
  rw [expandCommands, yields_get_bind] at h
  exact expanded_forM (nodup_ids_drop _ _) h

/-! ### The first phase -/

/-- Environments are for declarations to change. -/
theorem Changes.environments {phase : Phase} {s s' : Stage} (h : Changes phase s s') :
    s'.project.environments = s.project.environments := by
  induction h with
  | refl => rfl
  | tail _ hchange ih => cases hchange <;> exact ih

/-- While targets are compiled, no built node has a command, none is a copy, and
every node that has been made is built. -/
structure Compiled (p : Project) (s : Stage) : Prop where
  sound : Sound s
  commands : ∀ id path step, s.project.graph.kind? id = some (.file path (some step)) →
    step.command = none ∧ step.kind ≠ .copy
  built : ∀ id : NodeId, p.graph.size ≤ id.index → id.index < s.project.graph.size →
    s.project.graph.isBuilt id = true

theorem Compiled.product {s : Stage} {path : Path} {node : NodeId} {graph : NodeGraph}
    {made : List NodeId} {jobs : List Job} (h : Compiled p s)
    (hmade : s.project.graph.Produces path step node graph) (hcommand : step.command = none)
    (hkind : step.kind ≠ .copy) (hsound : Sound ⟨{ s.project with graph }, made, jobs⟩) :
    Compiled p ⟨{ s.project with graph }, made, jobs⟩ := by
  obtain ⟨hproduct, -⟩ := hmade.product h.sound.indexed
  obtain ⟨known, -, hnode⟩ := hproduct.made
  refine ⟨hsound, fun id path' step' hid => ?_, fun id hge hlt => ?_⟩
  · by_cases heq : id = node
    · rw [heq, hnode] at hid
      cases hid
      exact ⟨hcommand, hkind⟩
    · rw [hproduct.others id heq] at hid
      exact h.commands id path' step' hid
  · by_cases heq : id = node
    · rw [NodeGraph.isBuilt_iff]
      exact ⟨known, step, heq ▸ hnode⟩
    · rw [NodeGraph.isBuilt, NodeGraph.step?_congr (hproduct.others id heq)]
      refine h.built id hge ?_
      refine Nat.lt_of_not_le fun hle => ?_
      have hnone := hproduct.others id heq
      rw [NodeGraph.kind?_eq_none_iff.mpr hle, NodeGraph.kind?_eq_none_iff] at hnone
      exact Nat.not_le.mpr hlt hnone

theorem Change.compiled {s s' : Stage} (hchange : Change .compile s s') (h : Compiled p s) :
    Compiled p s' := by
  have hsound := hchange.sound h.sound
  cases hchange with
  | note | start | finish => exact ⟨hsound, h.commands, h.built⟩
  | object hmade hkind hcommand =>
      exact h.product hmade hcommand (by rw [hkind]; decide) hsound
  | output _ _ hmade hkind hcommand =>
      exact h.product hmade hcommand (kind_of_output hkind).2 hsound

theorem Changes.compiled {s : Stage} (h : Changes .compile ⟨p, [], []⟩ s) (hfresh : p.Fresh) :
    Compiled p s := by
  induction h with
  | refl =>
      refine ⟨hfresh.sound, fun id path step hid => ?_, fun id hge hlt => ?_⟩
      · exact absurd hid hfresh.not_made
      · exact absurd hlt (Nat.not_lt.mpr hge)
  | tail _ hchange ih => exact hchange.compiled ih

/-! ### The second phase -/

/-- While install targets are copied, what the first phase built stays, and what
else is built is a copy without a command. -/
structure Copied (p : Project) (s : Stage) : Prop where
  sound : Sound s
  kept : ∀ id path step, p.graph.kind? id = some (.file path (some step)) →
    s.project.graph.kind? id = some (.file path (some step))
  copies : ∀ id path step, s.project.graph.kind? id = some (.file path (some step)) →
    p.graph.kind? id = some (.file path (some step)) ∨
      p.graph.step? id = none ∧ step.command = none ∧ step.kind = .copy

theorem Change.copied {s s' : Stage} (hchange : Change .install s s') (h : Copied p s) :
    Copied p s' := by
  have hsound := hchange.sound h.sound
  cases hchange with
  | finish | take => exact ⟨hsound, h.kept, h.copies⟩
  | file path =>
      refine ⟨hsound, fun id path' step hid => ?_, fun id path' step hid => ?_⟩
      · exact NodeGraph.kind?_file_of_some (h.kept id path' step hid) path
      · exact h.copies id path' step (NodeGraph.built_of_file hid)
  | @copy p' made jobs _ plan env source node graph hsource hmade =>
      obtain ⟨hproduct, -⟩ := hmade.product h.sound.indexed
      obtain ⟨known, -, hnode⟩ := hproduct.made
      have hne : ∀ id path step, p.graph.kind? id = some (.file path (some step)) → id ≠ node := by
        rintro id path step hid rfl
        have hstep := NodeGraph.step?_eq_some_iff.mpr ⟨path, h.kept id path step hid⟩
        rw [hproduct.fresh] at hstep
        cases hstep
      -- a copy takes a node that no step makes, so it leaves what was built alone
      refine ⟨hsound, fun id path step hid => ?_, fun id path step hid => ?_⟩
      · rw [hproduct.others id (hne id path step hid)]
        exact h.kept id path step hid
      · by_cases heq : id = node
        · rw [heq, hnode] at hid
          cases hid
          refine .inr ⟨Option.eq_none_iff_forall_ne_some.mpr fun step hstep => ?_, rfl, rfl⟩
          obtain ⟨path, hid⟩ := NodeGraph.step?_eq_some_iff.mp hstep
          exact hne id path step hid heq
        · rw [hproduct.others id heq] at hid
          exact h.copies id path step hid
  | @group p' name change hchange =>
      have hkinds : ∀ id path step,
          ((p'.graph.group name).2.modify (p'.graph.group name).1 change).kind? id =
            some (.file path (some step)) ↔ p'.graph.kind? id = some (.file path (some step)) := by
        intro id path step
        rw [NodeGraph.kind?_modify _ _ _ hchange, NodeGraph.kind?_group_eq_file_iff]
      refine ⟨hsound, fun id path step hid => ?_, fun id path step hid => ?_⟩
      · exact (hkinds id path step).mpr (h.kept id path step hid)
      · exact h.copies id path step ((hkinds id path step).mp hid)

theorem Changes.copied {s : Stage} (h : Changes .install ⟨p, [], []⟩ s)
    (hsound : Sound ⟨p, [], []⟩) : Copied p s := by
  induction h with
  | refl => exact ⟨hsound, fun _ _ _ => id, fun _ _ _ => .inl⟩
  | tail _ hchange ih => exact hchange.copied ih

/-! ### Both phases -/

section Parts

variable {compiled expanded installed : Project}

/-- No part of resolution changes an environment. -/
theorem Parts.environments (h : Parts p compiled expanded installed q) :
    expanded.environments = compiled.environments ∧ installed.environments = expanded.environments ∧
      q.environments = installed.environments :=
  ⟨(expanded_expandCommands h.expand).environments, Changes.environments h.install,
    (expanded_expandCommands h.finish).environments⟩

/-- A step of the first phase has the command that its template expands to. -/
theorem Parts.expanded_step (h : Parts p compiled expanded installed q) (hfresh : p.Fresh)
    {path : Path} (hid : expanded.graph.kind? id = some (.file path (some step))) :
    step.kind ≠ .copy ∧ expandStep compiled step = .ok step.command := by
  have hcompiled := Changes.compiled h.compile hfresh
  have hexpanded := expanded_expandCommands h.expand
  cases hstep : compiled.graph.step? id with
  | none =>
      have hsame := NodeGraph.step?_congr (hexpanded.unbuilt id hstep)
      rw [hstep, NodeGraph.step?_eq_some_iff.mpr ⟨path, hid⟩] at hsame
      cases hsame
  | some earlier =>
      obtain ⟨known, hearlier⟩ := NodeGraph.step?_eq_some_iff.mp hstep
      obtain ⟨hcommand, hkind⟩ := hcompiled.commands id known earlier hearlier
      have hmem : id ∈ compiled.graph.ids.drop 0 :=
        mem_ids_drop.mpr ⟨Nat.zero_le _, NodeGraph.lt_size_of_kind? hearlier⟩
      obtain ⟨command, hexpand, hafter⟩ :=
        hexpanded.expanded id hmem known earlier hearlier hcommand
      rw [hid] at hafter
      cases hafter
      exact ⟨hkind, hexpand⟩

/-- A node that was there before the first phase ended, and that no step of it
makes, was declared. -/
theorem Parts.declared (h : Parts p compiled expanded installed q) (hfresh : p.Fresh)
    (hlt : id.index < expanded.graph.size) (hnone : expanded.graph.step? id = none) :
    id.index < p.graph.size := by
  have hexpanded := expanded_expandCommands h.expand
  refine Nat.lt_of_not_le fun hge => ?_
  rw [hexpanded.size] at hlt
  have hbuilt := (Changes.compiled h.compile hfresh).built id hge hlt
  obtain ⟨path, earlier, hid⟩ := NodeGraph.isBuilt_iff.mp hbuilt
  obtain ⟨hcommand, -⟩ := (Changes.compiled h.compile hfresh).commands id path earlier hid
  obtain ⟨command, -, hafter⟩ := hexpanded.expanded id (mem_ids_drop.mpr ⟨Nat.zero_le _, hlt⟩)
    path earlier hid hcommand
  rw [NodeGraph.step?_eq_some_iff.mpr ⟨path, hafter⟩] at hnone
  cases hnone

/-- A step has the command that its template expands to, unless it copies to a
node that was declared. -/
theorem Parts.command_of_step (h : Parts p compiled expanded installed q) (hfresh : p.Fresh)
    (hstep : q.graph.step? id = some step) :
    if step.kind = .copy ∧ id.index < p.graph.size then step.command = none
    else expandStep q step = .ok step.command := by
  obtain ⟨henv, henv', henv''⟩ := h.environments
  have hsound := Changes.sound h.compile h.sound
  have hcopied := Changes.copied h.install (expandCommands_changes hsound h.expand |>.sound hsound)
  have hlast := expanded_expandCommands h.finish
  cases hbefore : installed.graph.step? id with
  | none =>
      rw [NodeGraph.step?_congr (hlast.unbuilt id hbefore), hbefore] at hstep
      cases hstep
  | some earlier =>
      obtain ⟨path, hearlier⟩ := NodeGraph.step?_eq_some_iff.mp hbefore
      have hlt := NodeGraph.lt_size_of_kind? hearlier
      have hold : id.index < expanded.graph.size → step = earlier := by
        intro hlt
        have hsame := hlast.others id fun hmem => Nat.not_lt.mpr (mem_ids_drop.mp hmem).1 hlt
        rw [NodeGraph.step?_congr hsame, hbefore] at hstep
        cases hstep
        rfl
      rcases hcopied.copies id path earlier hearlier with hid | ⟨hnone, hcommand, hkind⟩
      · -- a step of the first phase is left alone by the second
        obtain rfl := hold (NodeGraph.lt_size_of_kind? hid)
        obtain ⟨hkind, hexpand⟩ := h.expanded_step hfresh hid
        rw [if_neg (fun hcopy => hkind hcopy.1)]
        rwa [expandStep_congr ((henv''.trans henv').trans henv)]
      · by_cases hreused : id.index < expanded.graph.size
        · -- the second expansion starts behind the node
          obtain rfl := hold hreused
          rwa [if_pos ⟨hkind, h.declared hfresh hreused hnone⟩]
        · have hsize : p.graph.size ≤ expanded.graph.size := by
            rw [(expanded_expandCommands h.expand).size]
            exact Changes.size_le h.compile h.sound
          obtain ⟨command, hexpand, hafter⟩ := hlast.expanded id
            (mem_ids_drop.mpr ⟨Nat.not_lt.mp hreused, hlt⟩) path earlier hearlier hcommand
          rw [NodeGraph.step?_eq_some_iff.mpr ⟨path, hafter⟩] at hstep
          cases hstep
          rw [if_neg (fun hcopy => hreused (Nat.lt_of_lt_of_le hcopy.2 hsize)),
            expandStep_withCommand, expandStep_congr henv'']
          exact hexpand

end Parts

/-- Every step has the command that its template expands to, but for copies to
nodes that were declared: these have none. So no command is forgotten exactly if
there is none to expand for such a copy. -/
theorem commands_expanded_iff {exist : Path → Bool} {u : Unit} (hfresh : p.Fresh)
    (h : Yields (Project.resolve exist) p u q) :
    (∀ id step, q.graph.step? id = some step →
      if step.kind = .copy ∧ id.index < p.graph.size then step.command = none
      else Expands q step step.command) ∧
    ((∀ id step, q.graph.step? id = some step → Expands q step step.command) ↔
      ∀ id step, q.graph.step? id = some step → step.kind = .copy → id.index < p.graph.size →
        Expands q step none) := by
  obtain ⟨compiled, expanded, installed, hparts⟩ := resolveAll_inv hfresh.sound (resolve_inv h)
  have hcommands : ∀ id step, q.graph.step? id = some step →
      if step.kind = .copy ∧ id.index < p.graph.size then step.command = none
      else Expands q step step.command := by
    intro id step hstep
    have hcommand := hparts.command_of_step hfresh hstep
    split at hcommand
    · next hcopy => rwa [if_pos hcopy]
    · next hcopy =>
        rw [if_neg hcopy]
        exact expands_of_expandStep hcommand
  refine ⟨hcommands, fun hall id step hstep hkind hlt => ?_, fun hcopies id step hstep => ?_⟩
  · have hnone := hcommands id step hstep
    rw [if_pos ⟨hkind, hlt⟩] at hnone
    rw [← hnone]
    exact hall id step hstep
  · have hcommand := hcommands id step hstep
    split at hcommand
    · next hcopy =>
        rw [hcommand]
        exact hcopies id step hstep hcopy.1 hcopy.2
    · exact hcommand

/-- A copy to a place that has no node yet is given its command. -/
theorem commands_expanded_copying :
    (copying ["c"]).Fresh ∧
      Yields (Project.resolve fun _ => true) (copying ["c"]) () (copied ["c"]) ∧
      ∀ id step, (copied ["c"]).graph.step? id = some step →
        Expands (copied ["c"]) step step.command := by
  have hyields : Yields _ _ () (copied ["c"]) := yields_copied (by cbv)
  refine ⟨fresh_copying _, hyields,
    (commands_expanded_iff (fresh_copying _) hyields).2.mpr fun id step hstep _ hlt => ?_⟩
  have hsize : (copying ["c"]).graph.size = 2 := by cbv
  have hzero : (copied ["c"]).graph.step? ⟨0⟩ = none := by cbv
  have hone : (copied ["c"]).graph.step? ⟨1⟩ = none := by cbv
  obtain ⟨i⟩ := id
  replace hlt : i < 2 := hsize ▸ hlt
  obtain rfl | rfl : i = 0 ∨ i = 1 := by omega
  · rw [hzero] at hstep
    cases hstep
  · rw [hone] at hstep
    cases hstep

/-- A copy to a place that was declared before has no command. -/
theorem not_forall_expands : ¬ ∀ (p q : Project) (exist : Path → Bool), p.Fresh →
    Yields (Project.resolve exist) p () q → ∀ id step, q.graph.step? id = some step →
      Expands q step step.command := by
  intro hall
  have hyields : Yields _ _ () (copied ["b"]) := yields_copied (by cbv)
  have hstep : (copied ["b"]).graph.step? ⟨1⟩ = some (copyStep (some ⟨0⟩) ⟨0⟩) := by cbv
  obtain ⟨ns, hns, hcommand⟩ := hall _ _ _ (fresh_copying _) hyields _ _ hstep
    copyTools (.text "cp") (by cbv) (by cbv)
  have htokens : Template.substTokens (.text "cp") ns = .ok [⟨[.text "cp"]⟩] := by
    cases hns
    cbv
  rw [htokens] at hcommand
  cases hcommand

end BuildPlan.Resolve
