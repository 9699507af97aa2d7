import BuildPlan.Proofs.Build.Outcome
import BuildPlan.Proofs.Resolve.Commands
import BuildPlan.Proofs.Template.Errors

/-!
# BuildPlan.Proofs.Resolve.CommandErrors

The commands that cannot be expanded. Expansion stops at the first node whose
template the template engine refuses. Expanding the nodes before it neither adds
such a node nor takes one away, so the same node stops the next expansion.
-/

namespace BuildPlan

open Resolve

namespace Project

variable {p : Project} {id : NodeId} {e : BuildError}

/-- What stands in the way of expanding a node's command. -/
def commandError? (p : Project) (id : NodeId) : Option BuildError :=
  match p.graph.step? id with
  | none => none
  | some step =>
    if step.command.isSome then none
    else
      match expandStep p step with
      | .ok _ => none
      | .error e => some e

/-- What stands in the way of expanding the commands of all nodes. -/
def firstCommandError? (p : Project) : Option BuildError :=
  p.graph.ids.findSome? p.commandError?

theorem commandError?_eq_some_iff : p.commandError? id = some e ↔
    ∃ step, p.graph.step? id = some step ∧ step.command = none ∧ expandStep p step = .error e := by
  unfold commandError?
  cases hstep : p.graph.step? id with
  | none => simp
  | some step =>
      cases hcommand : step.command with
      | some tokens => simp [hcommand]
      | none => cases hexpand : expandStep p step <;> simp [hcommand, hexpand]

theorem commandError?_congr {q : Project} (hstep : q.graph.step? id = p.graph.step? id)
    (henv : q.environments = p.environments) : q.commandError? id = p.commandError? id := by
  unfold commandError?
  rw [hstep]
  simp only [expandStep_congr henv]

end Project

namespace Resolve

open Build Project Template

variable {p q : Project} {id : NodeId} {ids : List NodeId} {start : Nat} {e : BuildError} {u : Unit}

theorem templated_expandStep (p : Project) (step : BuildStep) : Templated (expandStep p step) := by
  unfold expandStep
  split
  · exact templated_ok none
  split
  · exact templated_ok none
  refine (templated_namespaceWith _ _).bind fun ns => ?_
  have hsubst := templated_substTokens ‹_› ns
  split
  · exact templated_ok _
  · exact templated_ok none
  · next he =>
      intro e' h
      cases h
      exact hsubst _ he

theorem ofTemplate_of_commandError? (h : p.commandError? id = some e) : e.OfTemplate := by
  obtain ⟨step, -, -, hexpand⟩ := commandError?_eq_some_iff.mp h
  exact templated_expandStep p step e hexpand

theorem ofTemplate_of_firstCommandError? (h : p.firstCommandError? = some e) : e.OfTemplate := by
  obtain ⟨_, _, _, _, hid, -⟩ := List.findSome?_eq_some_iff.mp h
  exact ofTemplate_of_commandError? hid

theorem exists_firstCommandError? (hid : id ∈ p.graph.ids) (h : p.commandError? id = some e) :
    ∃ first, p.firstCommandError? = some first := by
  refine Option.isSome_iff_exists.mp (List.findSome?_isSome_iff.mpr ⟨id, hid, ?_⟩)
  rw [h]
  rfl

/-- A command cannot be expanded exactly if something stands in its way. -/
theorem fails_expandNode_iff :
    Fails (expandNode id) p e q ↔ p.commandError? id = some e ∧ q = p := by
  rw [expandNode, fails_get_bind, commandError?_eq_some_iff]
  cases hstep : p.graph.step? id with
  | none => simp
  | some step =>
      cases hcommand : step.command with
      | some tokens => simp [hcommand]
      | none =>
          simp only [Option.isSome_none, Bool.false_eq_true, if_false, Option.some.injEq,
            exists_eq_left', hcommand, true_and]
          rw [fails_bind, fails_liftExcept, or_iff_left]
          rintro ⟨command, r, -, hset⟩
          cases command with
          | none => exact not_fails_pure hset
          | some tokens => exact not_fails_set hset

/-- The same things stand in the way of the same nodes. -/
structure SameCommandErrors (p q : Project) : Prop where
  errors : q.commandError? = p.commandError?
  ids : q.graph.ids = p.graph.ids

theorem SameCommandErrors.refl (p : Project) : SameCommandErrors p p := ⟨rfl, rfl⟩

theorem SameCommandErrors.trans {r : Project} (h : SameCommandErrors p q)
    (h' : SameCommandErrors q r) : SameCommandErrors p r :=
  ⟨h'.errors.trans h.errors, h'.ids.trans h.ids⟩

theorem SameCommandErrors.first (h : SameCommandErrors p q) :
    q.firstCommandError? = p.firstCommandError? := by
  rw [firstCommandError?, firstCommandError?, h.errors, h.ids]

/-- Nothing stands in the way of a command that has been expanded, before or after. -/
theorem expandNode_commandErrors (h : Yields (expandNode id) p u q) :
    p.commandError? id = none ∧ SameCommandErrors p q := by
  refine ⟨?_, ?_⟩
  · refine Option.eq_none_iff_forall_ne_some.mpr fun e he => ?_
    exact h.not_fails (fails_expandNode_iff.mpr ⟨he, rfl⟩)
  · rcases expandNode_inv h with ⟨rfl, -⟩ | ⟨step, tokens, hstep, hcommand, hexpand, rfl⟩
    · exact .refl q
    obtain ⟨path, hkind⟩ := NodeGraph.step?_eq_some_iff.mp hstep
    have hkinds := NodeGraph.kind?_setCommand hkind tokens
    refine ⟨funext fun other => ?_, by simp [NodeGraph.ids, NodeGraph.setCommand]⟩
    by_cases heq : other = id
    · subst heq
      have hafter := NodeGraph.step?_eq_some_iff.mpr ⟨path, (hkinds other).trans (if_pos rfl)⟩
      simp [commandError?, hstep, hcommand, hexpand, hafter]
    · exact commandError?_congr (NodeGraph.step?_congr ((hkinds other).trans (if_neg heq))) rfl

theorem expandNodes_commandErrors (h : Yields (ids.forM expandNode) p u q) :
    ids.findSome? p.commandError? = none ∧ SameCommandErrors p q := by
  induction ids generalizing p with
  | nil =>
      obtain ⟨-, rfl⟩ := yields_pure.mp h
      exact ⟨rfl, .refl q⟩
  | cons id rest ih =>
      obtain ⟨_, r, hfirst, hrest⟩ := yields_bind.mp h
      obtain ⟨hnone, hsame⟩ := expandNode_commandErrors hfirst
      obtain ⟨hrest, hsame'⟩ := ih hrest
      refine ⟨?_, hsame.trans hsame'⟩
      rw [List.findSome?_cons, hnone, ← hsame.errors]
      exact hrest

theorem fails_expandNodes (h : Fails (ids.forM expandNode) p e q) :
    ids.findSome? p.commandError? = some e ∧
      ∃ before : List NodeId, Yields (before.forM expandNode) p ⟨⟩ q := by
  obtain ⟨before, id, after, r, rfl, hbefore, hfails⟩ := fails_forM.mp h
  obtain ⟨herror, rfl⟩ := fails_expandNode_iff.mp hfails
  obtain ⟨hnone, hsame⟩ := expandNodes_commandErrors hbefore
  rw [hsame.errors] at herror
  refine ⟨?_, before, hbefore⟩
  rw [List.findSome?_append, hnone, List.findSome?_cons, herror]
  rfl

/-- Expansion fails at the first node whose command cannot be expanded. -/
theorem fails_expandCommands (h : Fails (expandCommands start) p e q) :
    (p.graph.ids.drop start).findSome? p.commandError? = some e ∧ SameCommandErrors p q ∧
      (Sound ⟨p, [], []⟩ → Changes .expand ⟨p, [], []⟩ ⟨q, [], []⟩) := by
  rw [expandCommands, fails_get_bind] at h
  obtain ⟨herror, before, hbefore⟩ := fails_expandNodes h
  refine ⟨herror, (expandNodes_commandErrors hbefore).2, fun hsound => ?_⟩
  exact forM_changes (fun _ _ _ _ _ => expandNode_changes) hsound hbefore

/-- The node that stops the expansion is left as it is. -/
theorem exists_commandError_of_fails (h : Fails (expandCommands start) p e q) :
    ∃ id ∈ q.graph.ids, q.commandError? id = some e := by
  obtain ⟨herror, hsame, -⟩ := fails_expandCommands h
  obtain ⟨before, id, after, hids, hid, -⟩ := List.findSome?_eq_some_iff.mp herror
  refine ⟨id, ?_, by rw [hsame.errors, hid]⟩
  rw [hsame.ids]
  exact List.mem_of_mem_drop (by rw [hids]; simp)

theorem ofTemplate_of_fails (h : Fails (expandCommands start) p e q) : e.OfTemplate := by
  obtain ⟨_, -, herror⟩ := exists_commandError_of_fails h
  exact ofTemplate_of_commandError? herror

theorem exists_fails_expandCommands
    (h : (p.graph.ids.drop start).findSome? p.commandError? = some e) :
    ∃ q, Fails (expandCommands start) p e q := by
  rcases yields_or_fails (expandCommands start) p with ⟨u, q, hyields⟩ | ⟨e', q, hfails⟩
  · rw [expandCommands, yields_get_bind] at hyields
    rw [(expandNodes_commandErrors hyields).1] at h
    cases h
  · rw [(fails_expandCommands hfails).1] at h
    cases h
    exact ⟨q, hfails⟩

theorem exists_yields_expandCommands
    (h : (p.graph.ids.drop start).findSome? p.commandError? = none) :
    ∃ q, Yields (expandCommands start) p () q ∧ SameCommandErrors p q := by
  rcases yields_or_fails (expandCommands start) p with ⟨u, q, hyields⟩ | ⟨e', q, hfails⟩
  · refine ⟨q, hyields, ?_⟩
    rw [expandCommands, yields_get_bind] at hyields
    exact (expandNodes_commandErrors hyields).2
  · rw [(fails_expandCommands hfails).1] at h
    cases h

/-- Where every step comes to something, nothing stands in the way. -/
theorem exists_yields_expandCommands_of_steps (start : Nat)
    (h : ∀ id step, p.graph.step? id = some step → ∃ command, expandStep p step = .ok command) :
    ∃ q, Yields (expandCommands start) p () q := by
  rcases yields_or_fails (expandCommands start) p with ⟨u, q, hyields⟩ | ⟨e, q, hfails⟩
  · exact ⟨q, hyields⟩
  · obtain ⟨_, id, _, -, herror, -⟩ :=
      List.findSome?_eq_some_iff.mp (fails_expandCommands hfails).1
    obtain ⟨step, hstep, -, hexpand⟩ := commandError?_eq_some_iff.mp herror
    obtain ⟨command, hcommand⟩ := h id step hstep
    rw [hexpand] at hcommand
    cases hcommand

end Resolve

end BuildPlan
