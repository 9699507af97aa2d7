import BuildPlan.Proofs.Resolve.Repeat

/-!
# BuildPlan.Proofs.Resolve.Expansion

The expansion of commands, node by node. What a node's command becomes depends on its own
step, the environment and the template of that step, and on no other node. Nothing but the
commands of nodes that wait for one changes. An expansion that fails has come as far as the
first node whose template is rejected, and it leaves that node and all later ones alone.
-/

namespace BuildPlan.Resolve

open Build NodeGraph Project

variable {p q r : Project} {id : NodeId} {ids : List NodeId} {among : NodeId → Prop} {node : Node}
  {path : Path} {step : BuildStep} {env : Environment} {template : Value}
  {command : Option (List Token)} {start : Nat} {e : BuildError} {u : Unit}

/-! ### The template of one step -/

/-- The template comes to the command over the environment under the bindings of the step. It
comes to none if it refers to an undefined variable. -/
inductive ExpandsTo (env : Environment) (step : BuildStep) (template : Value) :
    Option (List Token) → Prop
  | tokens {ns : Namespace} {tokens : List Token}
      (hns : env.namespaceWith (stepBindings env step) = .ok ns)
      (htokens : Template.substTokens template ns = .ok tokens) :
      ExpandsTo env step template (some tokens)
  | missing {ns : Namespace} {name : String}
      (hns : env.namespaceWith (stepBindings env step) = .ok ns)
      (hmissing : Template.substTokens template ns = .error (.missingVariable name)) :
      ExpandsTo env step template none

/-- The bindings of the step cannot be layered over the environment, or the template cannot be
expanded for another reason than an undefined variable. -/
inductive Rejects (env : Environment) (step : BuildStep) (template : Value) : BuildError → Prop
  | layering {e : BuildError} (hlayer : env.namespaceWith (stepBindings env step) = .error e) :
      Rejects env step template e
  | expansion {ns : Namespace} {e : BuildError}
      (hns : env.namespaceWith (stepBindings env step) = .ok ns)
      (herror : Template.substTokens template ns = .error e)
      (hother : ∀ name, e ≠ .missingVariable name) : Rejects env step template e

/-- What is rejected comes to nothing. -/
theorem ExpandsTo.not_rejects (h : ExpandsTo env step template command) :
    ¬ Rejects env step template e := by
  intro hrejects
  cases hrejects with
  | layering hlayer => cases h <;> simp_all
  | expansion hns herror hother => cases h <;> simp_all

section Template

variable (henv : step.env.bind p.environment? = some env)
  (htemplate : env.field? step.tool step.commandVar = some template)

include henv htemplate

theorem expandStep_eq_ok_iff :
    expandStep p step = .ok command ↔ ExpandsTo env step template command := by
  constructor
  · intro h
    simp only [expandStep, henv, htemplate, bind, Except.bind] at h
    split at h
    · cases h
    next ns hns =>
    split at h
    · next tokens htokens =>
        cases h
        exact .tokens hns htokens
    · next name hmissing =>
        cases h
        exact .missing hns hmissing
    · cases h
  · rintro (⟨hns, htokens⟩ | ⟨hns, hmissing⟩)
    · simp only [expandStep, henv, htemplate, bind, Except.bind, hns, htokens]
    · simp only [expandStep, henv, htemplate, bind, Except.bind, hns, hmissing]

theorem rejects_of_expandStep (h : expandStep p step = .error e) : Rejects env step template e := by
  simp only [expandStep, henv, htemplate, bind, Except.bind] at h
  split at h
  · next hlayer =>
      cases h
      exact .layering hlayer
  next ns hns =>
  split at h
  · cases h
  · cases h
  · next hother herror =>
      cases h
      exact .expansion hns herror fun name heq => hother name heq

end Template

/-! ### Nodes that wait for a command -/

/-- The step of the node has no command, and the environment and the template that it names
exist. -/
structure Waits (p : Project) (id : NodeId) (node : Node) (path : Path) (step : BuildStep)
    (env : Environment) (template : Value) : Prop where
  found : p.graph.node? id = some node
  kind : node.kind = .file path (some step)
  command : step.command = none
  environment : step.env.bind p.environment? = some env
  template : env.field? step.tool step.commandVar = some template

theorem Waits.kind? (h : Waits p id node path step env template) :
    p.graph.kind? id = some (.file path (some step)) := by
  rw [NodeGraph.kind?, h.found, Option.map_some, h.kind]

/-- A step comes to something, or to an error, where its node waits. -/
theorem exists_waits (hnode : p.graph.node? id = some node)
    (hkind : node.kind = .file path (some step)) (hcommand : step.command = none)
    (hexpand : expandStep p step ≠ .ok none) :
    ∃ env template, Waits p id node path step env template := by
  cases henv : step.env.bind p.environment? with
  | none => exact absurd (by simp only [expandStep, henv]) hexpand
  | some env =>
      cases htemplate : env.field? step.tool step.commandVar with
      | none => exact absurd (by simp only [expandStep, henv, htemplate]) hexpand
      | some template => exact ⟨env, template, hnode, hkind, hcommand, henv, htemplate⟩

/-- The nodes among those given that wait for a command have what their templates come to, and
nothing else has changed. -/
structure Pointwise (p : Project) (among : NodeId → Prop) (q : Project) : Prop where
  project : q = { p with graph := q.graph }
  paths : q.graph.byPath = p.graph.byPath
  groups : q.graph.byGroup = p.graph.byGroup
  size : q.graph.size = p.graph.size
  waiting : ∀ id node path step env template, among id → Waits p id node path step env template →
    ∃ command, ExpandsTo env step template command ∧
      q.graph.node? id = some { node with kind := .file path (some { step with command }) }
  others : ∀ id, (among id → ∀ node path step env template,
      ¬ Waits p id node path step env template) →
    q.graph.node? id = p.graph.node? id

theorem GainsCommand.eq {node' : Node} (h : GainsCommand p node node') :
    node' = { node with kind := node'.kind } := by
  cases h <;> rfl

/-- Expanding some nodes one after the other expands each of them for itself. -/
theorem pointwise_forM (hnodup : ids.Nodup) (h : Yields (ids.forM expandNode) p ⟨⟩ q) :
    Pointwise p (· ∈ ids) q := by
  have hgains : GainsCommands p q := (leads_forM leads_expandNode ids).yields h
  have hexpanded := expanded_forM hnodup h
  -- a node is what its kind says, since all else of it stays
  have hnodes : ∀ id node, p.graph.node? id = some node → ∀ kind, q.graph.kind? id = some kind →
      q.graph.node? id = some { node with kind } := by
    intro id node hnode kind hkind
    obtain ⟨node', hnode', hgain⟩ := hgains.nodes id node hnode
    rw [NodeGraph.kind?, hnode', Option.map_some] at hkind
    rw [hnode', hgain.eq, Option.some.inj hkind]
  refine ⟨hgains.project, hgains.paths, hgains.groups, hgains.size,
    fun id node path step env template hid hwaits => ?_, fun id hidle => ?_⟩
  · obtain ⟨command, hexpand, hkind⟩ :=
      hexpanded.expanded id hid path step hwaits.kind? hwaits.command
    exact ⟨command, (expandStep_eq_ok_iff hwaits.environment hwaits.template).mp hexpand,
      hnodes id node hwaits.found _ hkind⟩
  · cases hnode : p.graph.node? id with
    | none =>
        rw [node?, Array.getElem?_eq_none_iff] at hnode ⊢
        exact Nat.le_trans (Nat.le_of_eq hgains.size) hnode
    | some node =>
        obtain ⟨node', hnode', hgain⟩ := hgains.nodes id node hnode
        rw [hnode', Option.some.injEq]
        cases hgain with
        | same => rfl
        | @gain path step tokens hkind hcommand hexpand =>
            -- a node that has gained a command is one of those that waited
            obtain ⟨env, template, hwaits⟩ :=
              exists_waits hnode hkind hcommand (by rw [hexpand]; simp)
            have hid : id ∉ ids := fun hid => hidle hid node path step env template hwaits
            have hsame := hexpanded.others id hid
            rw [hwaits.kind?, NodeGraph.kind?, hnode', Option.map_some] at hsame
            have hstep := (NodeKind.file.inj (Option.some.inj hsame)).2
            rw [← Option.some.inj hstep] at hcommand
            cases hcommand

/-- What is said of a node counts only where there is one. -/
theorem Pointwise.congr {among' : NodeId → Prop} (h : Pointwise p among q)
    (hamong : ∀ id node, p.graph.node? id = some node → (among id ↔ among' id)) :
    Pointwise p among' q where
  project := h.project
  paths := h.paths
  groups := h.groups
  size := h.size
  waiting id node path step env template hid hwaits :=
    h.waiting id node path step env template ((hamong id node hwaits.found).mpr hid) hwaits
  others id hidle := h.others id fun hid node path step env template hwaits =>
    hidle ((hamong id node hwaits.found).mp hid) node path step env template hwaits

theorem pairwise_ids_drop (graph : NodeGraph) (start : Nat) :
    (graph.ids.drop start).Pairwise (·.index < ·.index) := by
  rw [ids_drop, List.pairwise_map]
  exact List.pairwise_lt_range'

/-- The nodes in front of one of those from `start` on. -/
theorem mem_before_iff {graph : NodeGraph} {before after : List NodeId} {other : NodeId}
    (h : graph.ids.drop start = before ++ id :: after) :
    other ∈ before ↔ start ≤ other.index ∧ other.index < id.index := by
  have hmem : ∀ v, v ∈ before ++ id :: after ↔ start ≤ v.index ∧ v.index < graph.size :=
    fun v => h ▸ mem_ids_drop
  have hsorted := pairwise_ids_drop graph start
  rw [h, List.pairwise_append, List.pairwise_cons] at hsorted
  obtain ⟨-, ⟨hafter, -⟩, hbefore⟩ := hsorted
  constructor
  · intro hother
    exact ⟨((hmem other).mp (List.mem_append_left _ hother)).1,
      hbefore other hother id List.mem_cons_self⟩
  · rintro ⟨hstart, hlt⟩
    have hid := ((hmem id).mp (List.mem_append_right _ List.mem_cons_self)).2
    rcases List.mem_append.mp ((hmem other).mpr ⟨hstart, hlt.trans hid⟩) with hother | hother
    · exact hother
    rcases List.mem_cons.mp hother with rfl | hother
    · exact absurd hlt (lt_irrefl _)
    · exact absurd (hafter other hother) (not_lt.mpr hlt.le)

theorem exists_waits_of_commandError? (h : p.commandError? id = some e) :
    ∃ node path step env template,
      Waits p id node path step env template ∧ Rejects env step template e := by
  obtain ⟨step, hstep, hcommand, hexpand⟩ := commandError?_eq_some_iff.mp h
  obtain ⟨path, hkind⟩ := NodeGraph.step?_eq_some_iff.mp hstep
  obtain ⟨node, hnode, hkind⟩ := Option.map_eq_some_iff.mp hkind
  obtain ⟨env, template, hwaits⟩ :=
    exists_waits hnode hkind hcommand (by rw [hexpand]; simp)
  exact ⟨node, path, step, env, template, hwaits,
    rejects_of_expandStep hwaits.environment hwaits.template hexpand⟩

/-- Each node from `start` on that waits for a command has in the end what its own template
comes to over its own environment under its own bindings, and all else is as it was. An
expansion that fails does so for the first such node whose template is rejected; the nodes in
front of that one are expanded as they are otherwise, and it and all later ones are as they
were. -/
theorem expandCommands_pointwise (p : Project) (start : Nat) :
    (∀ u q, Yields (expandCommands start) p u q → Pointwise p (start ≤ ·.index) q) ∧
      ∀ e q, Fails (expandCommands start) p e q →
        ∃ id node path step env template, start ≤ id.index ∧
          Waits p id node path step env template ∧ Rejects env step template e ∧
          (∀ id' node' path' step' env' template' e', start ≤ id'.index → id'.index < id.index →
            Waits p id' node' path' step' env' template' → ¬ Rejects env' step' template' e') ∧
          Pointwise p (fun other => start ≤ other.index ∧ other.index < id.index) q := by
  refine ⟨fun u q h => ?_, fun e q h => ?_⟩
  · rw [expandCommands, yields_get_bind] at h
    refine (pointwise_forM (nodup_ids_drop _ _) h).congr fun id node hnode => ?_
    rw [mem_ids_drop, and_iff_left]
    exact (Array.getElem?_eq_some_iff.mp hnode).1
  · rw [expandCommands, fails_get_bind] at h
    obtain ⟨before, id, after, r, hids, hbefore, hfails⟩ := fails_forM.mp h
    obtain ⟨herror, rfl⟩ := fails_expandNode_iff.mp hfails
    -- what has been expanded so far does not matter to what stands in the way of this node
    rw [(expandNodes_commandErrors hbefore).2.errors] at herror
    obtain ⟨node, path, step, env, template, hwaits, hrejects⟩ :=
      exists_waits_of_commandError? herror
    have hnodup : before.Nodup :=
      (List.nodup_append.mp (hids ▸ nodup_ids_drop p.graph start)).1
    have hpointwise := (pointwise_forM hnodup hbefore).congr fun _ _ _ => mem_before_iff hids
    have hstart : start ≤ id.index :=
      (mem_ids_drop.mp (hids ▸ List.mem_append_right _ List.mem_cons_self)).1
    refine ⟨id, node, path, step, env, template, hstart, hwaits, hrejects, ?_, hpointwise⟩
    intro id' node' path' step' env' template' e' hge hlt hwaits'
    obtain ⟨command, hexpands, -⟩ := hpointwise.waiting _ _ _ _ _ _ ⟨hge, hlt⟩ hwaits'
    exact hexpands.not_rejects

/-- Two tools, one of which has the name of a path marker. -/
def clashingTools : Environment where
  tools := [("t", [("run", .ofTexts ["run"])]), ("TARGET", [("run", .ofTexts ["run"])])]

/-- A source is compiled with a flag of its own. -/
def clashingStep (tool : String) : BuildStep where
  tool
  commandVar := "run"
  kind := .compile
  context := some { requirements := { compileFlags := ["-c"] }, style := .unix }
  env := some ⟨0⟩

/-- Three nodes that wait for their commands. The flag of the one in the middle would be bound
as a field of the marker. -/
def clashing : Project where
  name := "clashing"
  environments := #[clashingTools]
  graph := { nodes := #[
    { kind := .file ⟨"a.o"⟩ (some (clashingStep "t")) },
    { kind := .file ⟨"b.o"⟩ (some (clashingStep "TARGET")) },
    { kind := .file ⟨"c.o"⟩ (some (clashingStep "t")) }] }

/-- The project once the command of one of the nodes has been expanded. -/
def clashingExpanded (id : NodeId) : Project :=
  { clashing with graph := clashing.graph.setCommand id [.ofText "run"] }

def clash : BuildError := .substitution (.boundThroughValue "TARGET.flags" "TARGET")

theorem expandStep_clashing : expandStep clashing (clashingStep "t") = .ok (some [.ofText "run"]) ∧
    expandStep clashing (clashingStep "TARGET") = .error clash := by
  constructor <;> cbv

theorem fails_clashing : Fails (expandCommands 0) clashing clash (clashingExpanded ⟨0⟩) := by
  have hstep : clashing.graph.step? ⟨0⟩ = some (clashingStep "t") := rfl
  have hfirst : Yields (expandNode ⟨0⟩) clashing () (clashingExpanded ⟨0⟩) :=
    yields_expandNode_of_command hstep rfl expandStep_clashing.1
  refine fails_get_bind.mpr (fails_forM.mpr
    ⟨[⟨0⟩], ⟨1⟩, [⟨2⟩], clashingExpanded ⟨0⟩, rfl, yields_bind.mpr ⟨_, _, hfirst, rfl⟩, ?_⟩)
  exact fails_expandNode_iff.mpr ⟨commandError?_eq_some_iff.mpr
    ⟨clashingStep "TARGET", rfl, rfl, expandStep_clashing.2⟩, rfl⟩

theorem yields_clashing : Yields (expandCommands 2) clashing () (clashingExpanded ⟨2⟩) := by
  have hstep : clashing.graph.step? ⟨2⟩ = some (clashingStep "t") := rfl
  have hlast : Yields (expandNode ⟨2⟩) clashing () (clashingExpanded ⟨2⟩) :=
    yields_expandNode_of_command hstep rfl expandStep_clashing.1
  exact yields_get_bind.mpr (yields_bind.mpr ⟨_, _, hlast, rfl⟩)

theorem expandCommands_pointwise_clashing :
    (∃ q, Fails (expandCommands 0) clashing clash q ∧
      ∃ id node path step env template, Waits clashing id node path step env template ∧
        Rejects env step template clash ∧
        Pointwise clashing (fun other => 0 ≤ other.index ∧ other.index < id.index) q) ∧
      ∃ q, Yields (expandCommands 2) clashing () q ∧ Pointwise clashing (2 ≤ ·.index) q := by
  obtain ⟨id, node, path, step, env, template, -, hwaits, hrejects, -, hpointwise⟩ :=
    (expandCommands_pointwise clashing 0).2 _ _ fails_clashing
  exact ⟨⟨_, fails_clashing, id, node, path, step, env, template, hwaits, hrejects, hpointwise⟩,
    _, yields_clashing, (expandCommands_pointwise clashing 2).1 _ _ yields_clashing⟩

end BuildPlan.Resolve
