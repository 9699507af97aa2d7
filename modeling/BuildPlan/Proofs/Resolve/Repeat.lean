import BuildPlan.Proofs.Flag
import BuildPlan.Proofs.Resolve.Advance
import BuildPlan.Proofs.Resolve.CommandErrors

/-!
# BuildPlan.Proofs.Resolve.Repeat

What resolution leaves alone when it is repeated: targets that have had their
turns, install targets whose plans have been taken, and groups that have been
made. Commands are all that a repetition may add, and validation does not look at
commands.
-/

namespace BuildPlan

namespace Node

theorem addNew_eq_self {ids extra : List NodeId} (h : ∀ node ∈ extra, node ∈ ids) :
    addNew ids extra = ids :=
  Flag.appendNew_eq_self fun node hnode => by simpa using h node hnode

/-- The node as it was before its command was expanded. -/
def withoutCommand (node : Node) : Node :=
  { node with
    kind :=
      match node.kind with
      | .file path step => .file path (step.map fun step => { step with command := none })
      | .group name => .group name }

theorem name_withoutCommand (node : Node) : node.withoutCommand.name = node.name := by
  cases hkind : node.kind <;> simp [withoutCommand, name, hkind]

theorem path?_withoutCommand (node : Node) : node.withoutCommand.path? = node.path? := by
  cases hkind : node.kind <;> simp [withoutCommand, path?, hkind]

theorem isBuilt_withoutCommand (node : Node) : node.withoutCommand.isBuilt = node.isBuilt := by
  cases hkind : node.kind <;> simp [withoutCommand, isBuilt, step?, hkind]

end Node

namespace NodeGraph

variable {graph : NodeGraph} {id other input : NodeId} {extra : List NodeId}

theorem modify_eq_self {change : Node → Node}
    (h : ∀ node, graph.node? id = some node → change node = node) :
    graph.modify id change = graph := by
  have hnodes : graph.nodes.modify id.index change = graph.nodes := by
    refine Array.ext_getElem? fun i => ?_
    rw [Array.getElem?_modify]
    split
    · next heq =>
        subst heq
        cases hnode : graph.nodes[id.index]? with
        | none => rfl
        | some node => rw [Option.map_some, h node hnode]
    · rfl
  rw [modify, hnodes]

/-- A node that takes on dependencies keeps those it has. -/
theorem mem_inputs_depends (h : input ∈ graph.inputs other) :
    input ∈ (graph.modify id (·.depends extra)).inputs other := by
  unfold inputs at h ⊢
  rw [node?_modify]
  split
  · next heq =>
      rw [heq] at h
      cases hnode : graph.node? id with
      | none => simp [hnode] at h
      | some node =>
          have hmem : input ∈ node.explicitDeps := by simpa [hnode] using h
          simpa [Node.depends] using Node.mem_addNew.mpr (.inl hmem)
  · exact h

theorem mem_inputs_depends_self (hid : id.index < graph.size) (h : input ∈ extra) :
    input ∈ (graph.modify id (·.depends extra)).inputs id := by
  have hnode : graph.node? id = some graph.nodes[id.index] := Array.getElem?_eq_getElem hid
  unfold inputs
  rw [node?_modify, if_pos rfl, hnode]
  simpa [Node.depends] using Node.mem_addNew.mpr (.inr h)

end NodeGraph

namespace Resolve

open Build NodeGraph Project

variable {p q r : Project} {phase : Phase} {s s' : Stage} {id other : TargetId} {u : Unit}

/-! ### Targets that have had their turns -/

/-- A target has no second turn. -/
theorem Change.settled (hchange : Change phase s s') (h : Settled s.project id) :
    Settled s'.project id := by
  cases hchange with
  | note hnotes =>
      refine h.modifyTarget (fun t => (hnotes t).declared) fun t ht => ?_
      rw [(hnotes t).resolved, ht]
  | finish hdeclared _ _ hresolved => exact h.modifyTarget hdeclared fun t _ => hresolved t
  | take => exact h.modifyTarget (fun _ => rfl) fun _ hresolved => hresolved
  | start | object | output | file | copy | group | command => exact h

theorem Changes.settled (hchanges : Changes phase s s') (h : Settled s.project id) :
    Settled s'.project id := by
  induction hchanges with
  | refl => exact h
  | tail _ hchange ih => exact hchange.settled ih

theorem settled_of_resolved (p : Project) (id : TargetId) :
    Settled (p.modifyTarget id fun t => { t with resolved := true }) id := by
  intro t' ht'
  obtain ⟨t, -, rfl⟩ := exists_target_of_modifyTarget ht'
  exact .inl (by rw [if_pos rfl])

theorem resolveTarget_settled (h : Yields (resolveTarget id) p u q) : Settled q id := by
  rcases settled_or_open p id with hsettled | ⟨t, ht, hopen, htype | ⟨env, htype, henv⟩⟩
  · rw [Yields, hsettled.yields] at h
    cases h
    exact hsettled
  · rw [Yields, run_resolveTarget_interface ht hopen htype] at h
    rw [yields_modify.mp h]
    exact settled_of_resolved p id
  · rw [Yields, run_resolveTarget_compile ht hopen htype henv] at h
    obtain ⟨c, graph, made, -, -, rfl⟩ := compileTarget_inv h
    exact settled_of_resolved made id

theorem resolveTargets_settled {order : List TargetId}
    (h : Yields (order.forM resolveTarget) p ⟨⟩ q) : ∀ id ∈ order, Settled q id :=
  h.forM_brings (R := Advances) (fun id p _ => (advances_resolveTarget id p).yields)
    (fun _ _ _ _ => resolveTarget_settled) fun id _ _ hle => hle.settled id

/-- Targets that have had their turns are left alone. -/
theorem turns_idle {order : List TargetId} (h : ∀ id ∈ order, Settled p id) :
    Yields (order.forM resolveTarget) p ⟨⟩ p := by
  induction order with
  | nil => exact yields_pure.mpr ⟨rfl, rfl⟩
  | cons id rest ih =>
      refine yields_bind.mpr ⟨⟨⟩, p, (h id List.mem_cons_self).yields, ih fun other hother => ?_⟩
      exact h other (List.mem_cons_of_mem _ hother)

/-! ### Plans that have been taken -/

/-- A target that has been installed has no plan left. -/
theorem install_plan? (h : Yields (install id) p u q) : q.plan? id = none := by
  rw [install, yields_get_bind, installWithin, yields_get_bind] at h
  split at h
  · next hnone =>
      obtain ⟨-, rfl⟩ := yields_pure.mp h
      rw [Project.plan?, hnone, Option.bind_none]
  next t ht =>
  split at h
  · next hnone =>
      obtain ⟨-, rfl⟩ := yields_pure.mp h
      rw [Project.plan?, ht, Option.bind_some, hnone]
  next plan hplan =>
  rw [yields_set_bind] at h
  have hcarry := (advances_carryOut (advances_installWithin _) id t plan _).yields h
  exact hcarry.plans id (plan?_taken p id)

theorem installs_plan? {ids : List TargetId} (h : Yields (ids.forM install) p ⟨⟩ q) :
    ∀ id ∈ ids, q.plan? id = none :=
  h.forM_brings (R := Advances) (fun id p _ => (advances_install id p).yields)
    (fun _ _ _ _ => install_plan?) fun id _ _ hle => hle.plans id

/-! ### Groups that have been made -/

/-- The group has a node, which depends on the outputs of its targets. -/
def GroupMade (p : Project) (name : String) (targets : List TargetId) : Prop :=
  ∃ id, p.graph.byGroup.lookup name = some id ∧
    ∀ output ∈ targets.flatMap p.outputsOf, output ∈ p.graph.inputs id

/-- Nothing is taken away from groups. -/
structure KeepsGroups (p q : Project) : Prop where
  graph : p.graph.Grows q.graph
  outputs : q.outputsOf = p.outputsOf
  inputs : ∀ id, ∀ input ∈ p.graph.inputs id, input ∈ q.graph.inputs id

instance : IsPreorder Project KeepsGroups where
  refl p := ⟨.refl p.graph, rfl, fun _ _ hinput => hinput⟩
  trans _ _ _ h h' := ⟨h.graph.trans h'.graph, h'.outputs.trans h.outputs,
    fun id input hinput => h'.inputs id input (h.inputs id input hinput)⟩

theorem GroupMade.mono {name : String} {targets : List TargetId} (h : GroupMade p name targets)
    (hkeeps : KeepsGroups p q) : GroupMade q name targets := by
  obtain ⟨id, hlookup, hinputs⟩ := h
  refine ⟨id, hkeeps.graph.kept name id hlookup, fun output houtput => ?_⟩
  rw [hkeeps.outputs] at houtput
  exact hkeeps.inputs id output (hinputs output houtput)

section Groups

variable {name : String} {targets : List TargetId}

theorem makeGroup_keepsGroups (h : Yields (makeGroup name targets) p u q) : KeepsGroups p q := by
  rw [makeGroup_inv h]
  refine ⟨grows_makeGroup _ _ _, rfl, fun id input hinput => ?_⟩
  exact mem_inputs_depends ((inputs_group p.graph name id).symm ▸ hinput)

theorem makeGroup_made (hknown : p.graph.GroupsKnown) (h : Yields (makeGroup name targets) p u q) :
    GroupMade q name targets := by
  rw [makeGroup_inv h]
  refine ⟨(p.graph.group name).1, (lookup_group p.graph name name).trans (if_pos rfl), ?_⟩
  exact fun output houtput => mem_inputs_depends_self (lt_size_group hknown name) houtput

/-- A group that has been made is left alone. -/
theorem makeGroup_idle (h : GroupMade p name targets) : Yields (makeGroup name targets) p () p := by
  obtain ⟨id, hlookup, hinputs⟩ := h
  have hgroup : p.graph.group name = (id, p.graph) := by rw [NodeGraph.group, hlookup]
  have hsame : p.graph.modify id (·.depends (targets.flatMap p.outputsOf)) = p.graph := by
    refine modify_eq_self fun node hnode => ?_
    rw [Node.depends, Node.addNew_eq_self]
    intro output houtput
    simpa [inputs, hnode] using hinputs output houtput
  rw [makeGroup, yields_get_bind, hgroup]
  refine yields_set.mpr ?_
  rw [hsame]

end Groups

section Loops

variable {groups : List (String × List TargetId)}

theorem makeGroups_made (hknown : p.graph.GroupsKnown)
    (h : Yields (groups.forM fun (label, targets) => makeGroup label targets) p ⟨⟩ q) :
    ∀ entry ∈ groups, GroupMade q entry.1 entry.2 :=
  h.forM_brings (R := KeepsGroups) (fun _ _ _ => makeGroup_keepsGroups)
    (fun _ _ _ hkeeps => makeGroup_made (hkeeps.graph.known hknown))
    fun _ _ _ hkeeps hmade => hmade.mono hkeeps

theorem groups_idle (h : ∀ entry ∈ groups, GroupMade p entry.1 entry.2) :
    Yields (groups.forM fun (label, targets) => makeGroup label targets) p ⟨⟩ p := by
  induction groups with
  | nil => exact yields_pure.mpr ⟨rfl, rfl⟩
  | cons entry rest ih =>
      refine yields_bind.mpr ⟨⟨⟩, p, makeGroup_idle (h entry List.mem_cons_self), ih ?_⟩
      exact fun other hother => h other (List.mem_cons_of_mem _ hother)

end Loops

/-! ### Commands -/

/-- What expansion makes of a node: a step without a command may gain the one that its
template expands to, and nothing else changes. -/
inductive GainsCommand (p : Project) (node : Node) : Node → Prop
  | same : GainsCommand p node node
  | gain {path : Path} {step : BuildStep} {tokens : List Token}
      (hkind : node.kind = .file path (some step)) (hnone : step.command = none)
      (hexpand : expandStep p step = .ok (some tokens)) :
      GainsCommand p node
        { node with kind := .file path (some { step with command := some tokens }) }

/-- The projects differ in nothing but commands that were absent from `p`. -/
structure GainsCommands (p q : Project) : Prop where
  project : q = { p with graph := q.graph }
  paths : q.graph.byPath = p.graph.byPath
  groups : q.graph.byGroup = p.graph.byGroup
  size : q.graph.size = p.graph.size
  nodes : ∀ id node, p.graph.node? id = some node →
    ∃ node', q.graph.node? id = some node' ∧ GainsCommand p node node'

theorem GainsCommands.target? (h : GainsCommands p q) (id : TargetId) :
    q.target? id = p.target? id :=
  congrArg (fun p => p.target? id) h.project

/-- A command that has been gained is not replaced. -/
theorem GainsCommand.trans {node node' node'' : Node} (h : GainsCommand p node node')
    (h' : GainsCommand q node' node'') (henv : q.environments = p.environments) :
    GainsCommand p node node'' := by
  cases h with
  | same =>
      cases h' with
      | same => exact .same
      | gain hkind hnone hexpand =>
          rw [expandStep_congr henv] at hexpand
          exact .gain hkind hnone hexpand
  | gain hkind hnone hexpand =>
      cases h' with
      | same => exact .gain hkind hnone hexpand
      | gain hkind' hnone' =>
          cases hkind'
          cases hnone'

instance : IsPreorder Project GainsCommands where
  refl _ := ⟨rfl, rfl, rfl, rfl, fun _ node hnode => ⟨node, hnode, .same⟩⟩
  trans p q r h h' := by
    refine ⟨?_, h'.paths.trans h.paths, h'.groups.trans h.groups, h'.size.trans h.size,
      fun id node hnode => ?_⟩
    · have hr := h'.project
      rw [h.project] at hr
      exact hr
    · obtain ⟨node', hnode', hgains⟩ := h.nodes id node hnode
      obtain ⟨node'', hnode'', hgains'⟩ := h'.nodes id node' hnode'
      exact ⟨node'', hnode'', hgains.trans hgains' (by rw [h.project])⟩

theorem gainsCommands_setCommand {node : NodeId} {step : BuildStep} {tokens : List Token}
    (hstep : p.graph.step? node = some step) (hnone : step.command = none)
    (hexpand : expandStep p step = .ok (some tokens)) :
    GainsCommands p { p with graph := p.graph.setCommand node tokens } := by
  refine ⟨rfl, rfl, rfl, size_modify _ _ _, fun other n hn => ?_⟩
  obtain ⟨path, hkind⟩ := step?_eq_some_iff.mp hstep
  by_cases heq : other = node
  · subst heq
    have hkind : n.kind = .file path (some step) := by
      rw [kind?, hn] at hkind
      exact Option.some.inj hkind
    refine ⟨_, ?_, .gain hkind hnone hexpand⟩
    simp [setCommand, node?_modify, hn, Node.setCommand, hkind]
  · refine ⟨n, ?_, .same⟩
    simp [setCommand, node?_modify, hn, heq]

theorem leads_expandNode (node : NodeId) (p : Project) :
    Leads GainsCommands (expandNode node) p := by
  rcases yields_or_fails (expandNode node) p with ⟨u, q, hyields⟩ | ⟨e, q, hfails⟩
  · rcases expandNode_inv hyields with ⟨rfl, -⟩ | ⟨step, tokens, hstep, hnone, hexpand, rfl⟩
    · exact leads_of_yields hyields
    · rw [Leads, hyields]
      exact gainsCommands_setCommand hstep hnone hexpand
  · rw [Leads, hfails, (fails_expandNode_iff.mp hfails).2]
    exact refl p

/-- Expansion adds commands and nothing else, also if it fails. -/
theorem leads_expandCommands (start : Nat) (p : Project) :
    Leads GainsCommands (expandCommands start) p :=
  leads_get_bind (leads_forM leads_expandNode _)

/-- The projects differ in nothing but the commands of their nodes. -/
structure SameApartFromCommands (p q : Project) : Prop where
  project : q = { p with graph := q.graph }
  nodes : ∀ id, (q.graph.node? id).map Node.withoutCommand =
    (p.graph.node? id).map Node.withoutCommand
  groups : q.graph.byGroup = p.graph.byGroup
  size : q.graph.size = p.graph.size

theorem GainsCommands.same (h : GainsCommands p q) : SameApartFromCommands p q := by
  refine ⟨h.project, fun id => ?_, h.groups, h.size⟩
  cases hnode : p.graph.node? id with
  | none =>
      have hq : q.graph.node? id = none := by
        rw [NodeGraph.node?, Array.getElem?_eq_none_iff] at hnode ⊢
        exact Nat.le_trans (Nat.le_of_eq h.size) hnode
      rw [hq]
  | some node =>
      obtain ⟨node', hnode', hgains⟩ := h.nodes id node hnode
      rw [hnode', Option.map_some, Option.map_some, Option.some.injEq]
      cases hgains with
      | same => rfl
      | gain hkind => simp [Node.withoutCommand, hkind]

section Same

variable (h : SameApartFromCommands p q)

include h

/-- What does not look at commands is the same. -/
theorem SameApartFromCommands.read {β : Type} {f : Node → β}
    (hf : ∀ node, f node.withoutCommand = f node) (id : NodeId) :
    (q.graph.node? id).map f = (p.graph.node? id).map f := by
  have hread : ∀ o : Option Node, o.map f = (o.map Node.withoutCommand).map f := by
    intro o
    cases o <;> simp [hf]
  rw [hread, h.nodes, ← hread]

theorem SameApartFromCommands.inputs (id : NodeId) : q.graph.inputs id = p.graph.inputs id :=
  congrArg (·.getD []) (h.read (f := Node.explicitDeps) (fun _ => rfl) id)

theorem SameApartFromCommands.name : q.graph.name = p.graph.name := by
  funext id
  exact congrArg (·.getD "<unknown>") (h.read Node.name_withoutCommand id)

theorem SameApartFromCommands.unbuiltPath? : q.unbuiltPath? = p.unbuiltPath? := by
  funext id
  have hbuilt := h.read Node.isBuilt_withoutCommand id
  have hpath := h.read Node.path?_withoutCommand id
  unfold Project.unbuiltPath? NodeGraph.isBuilt NodeGraph.step?
  cases hq : q.graph.node? id with
  | none =>
      rw [hq, Option.map_none, eq_comm, Option.map_eq_none_iff] at hpath
      rw [hpath]
  | some node =>
      rw [hq, Option.map_some, eq_comm, Option.map_eq_some_iff] at hbuilt hpath
      obtain ⟨node', hnode', hbuilt⟩ := hbuilt
      obtain ⟨_, hnode'', hpath⟩ := hpath
      rw [hnode'] at hnode''
      cases hnode''
      unfold Node.isBuilt at hbuilt
      simp only [hnode', Option.bind_some, hbuilt, hpath]

theorem SameApartFromCommands.cycle? : q.graph.cycle? = p.graph.cycle? := by
  have hdeps : ∀ id, ((q.graph.node? id).map Node.deps).getD [] =
      ((p.graph.node? id).map Node.deps).getD [] :=
    fun id => congrArg (·.getD []) (h.read (f := Node.deps) (fun _ => rfl) id)
  simp only [NodeGraph.cycle?, NodeGraph.ids, h.size, h.name, hdeps]

/-- Validation does not look at commands. -/
theorem SameApartFromCommands.validate (exist : Path → Bool) :
    q.validate exist = p.validate exist := by
  have hunbuilt := h.unbuiltPath?
  have hcycle := h.cycle?
  have hproject := h.project
  revert hunbuilt hcycle
  generalize q.graph = graph at hproject
  subst hproject
  intro hunbuilt hcycle
  have hmissing : Project.missingSources { p with graph } exist = p.missingSources exist := by
    unfold missingSources unbuiltSources
    rw [hunbuilt]
    rfl
  unfold Project.validate
  rw [hmissing, hcycle]
  rfl

theorem SameApartFromCommands.keepsGroups : KeepsGroups p q := by
  refine ⟨grows_of_byGroup (Nat.le_of_eq h.size.symm) h.groups, ?_, fun id input hinput => ?_⟩
  · rw [h.project]
    rfl
  · rwa [h.inputs]

end Same

end Resolve

end BuildPlan
