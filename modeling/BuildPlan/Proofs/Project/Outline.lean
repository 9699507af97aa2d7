import BuildPlan.Proofs.NodeGraph
import BuildPlan.Proofs.Resolve.Change

/-!
# BuildPlan.Proofs.Project.Outline

Projects that are alike but for what their targets ask for. An outline leaves out
requirements: those that a target declares or has collected, and those that a step
is carried out under, with the command they lead to. All that resolution reads of
a project apart from requirements can be read off outlines.

Two projects that are alike have one outline. Beyond that, they agree on the steps
of all nodes but the marked ones, and on the requirements of all targets but the
affected ones.
-/

namespace BuildPlan

/-! ### Nodes and graphs -/

/-- A step apart from its requirements and its command. -/
def BuildStep.outline (step : BuildStep) : BuildStep :=
  { step with context := none, command := none }

def NodeKind.outline : NodeKind → NodeKind
  | .file path step => .file path (step.map BuildStep.outline)
  | .group name => .group name

def Node.outline (node : Node) : Node := { node with kind := node.kind.outline }

namespace Node

variable {node node' : Node}

@[simp] theorem name_outline (node : Node) : node.outline.name = node.name := by
  cases node with
  | mk kind => cases kind <;> rfl

@[simp] theorem deps_outline (node : Node) : node.outline.deps = node.deps := rfl

@[simp] theorem step?_outline (node : Node) :
    node.outline.step? = node.step?.map BuildStep.outline := by
  cases node with
  | mk kind => cases kind <;> rfl

/-- A node without a step is its own outline. -/
theorem outline_of_step? (h : node.step? = none) : node.outline = node := by
  cases node with
  | mk kind =>
      cases kind with
      | file path step =>
          obtain rfl : step = none := h
          rfl
      | group name => rfl

theorem outline_depends (explicit implicit : List NodeId) (node : Node) :
    ((node.depends explicit).dependsImplicitly implicit).outline =
      (node.outline.depends explicit).dependsImplicitly implicit := rfl

theorem outline_foldl_depends (deps : List (List NodeId)) (node : Node) :
    (deps.foldl Node.depends node).outline = deps.foldl Node.depends node.outline := by
  induction deps generalizing node with
  | nil => rfl
  | cons _ rest ih => exact ih _

@[simp] theorem outline_setCommand (node : Node) (command : List Token) :
    (node.setCommand command).outline = node.outline := by
  cases node with
  | mk kind =>
      cases kind with
      | file path step => cases step <;> rfl
      | group name => rfl

theorem step?_of_outline (h : node'.outline = node.outline) :
    node'.step?.map BuildStep.outline = node.step?.map BuildStep.outline := by
  rw [← step?_outline, h, step?_outline]

end Node

namespace NodeGraph

variable {marked : NodeId → Prop} {graph graph' : NodeGraph} {id : NodeId}

theorem node?_push (graph : NodeGraph) (node : Node) (byPath : List (Path × NodeId))
    (byGroup : List (String × NodeId)) (id : NodeId) :
    node? { nodes := graph.nodes.push node, byPath, byGroup } id =
      if id.index = graph.size then some node else graph.node? id := by
  simp only [node?, Array.getElem?_push]
  rfl

/-- A step is attached to a file without one, or there is no node to attach it to. -/
theorem setStep_cases {step : BuildStep} (h : graph.setStep id step = .ok graph') :
    (graph.node? id = none ∧ graph' = graph) ∨
      ∃ node path, graph.node? id = some node ∧ node.kind = .file path none ∧
        graph' = graph.modify id fun _ => { node with kind := .file path (some step) } := by
  unfold setStep at h
  cases hnode : graph.node? id with
  | none =>
      rw [hnode] at h
      exact .inl ⟨rfl, (Except.ok.inj h).symm⟩
  | some node =>
      simp only [hnode, Node.setStep] at h
      cases hkind : node.kind with
      | group name => simp [hkind, bind, Except.bind] at h
      | file path made =>
          cases made with
          | some other => simp [hkind, bind, Except.bind] at h
          | none =>
              simp only [hkind, bind, Except.bind, pure, Except.pure, Except.ok.injEq] at h
              exact .inr ⟨node, path, rfl, hkind, h.symm⟩

/-- The graphs have one outline, and the same nodes apart from the marked ones. -/
structure Alike (marked : NodeId → Prop) (graph graph' : NodeGraph) : Prop where
  byPath : graph'.byPath = graph.byPath
  byGroup : graph'.byGroup = graph.byGroup
  outline : ∀ id, (graph'.node? id).map Node.outline = (graph.node? id).map Node.outline
  unmarked : ∀ id, ¬ marked id → graph'.node? id = graph.node? id

namespace Alike

theorem refl (marked : NodeId → Prop) (graph : NodeGraph) : Alike marked graph graph :=
  ⟨rfl, rfl, fun _ => rfl, fun _ _ => rfl⟩

theorem symm (h : Alike marked graph graph') : Alike marked graph' graph :=
  ⟨h.byPath.symm, h.byGroup.symm, fun id => (h.outline id).symm,
    fun id hid => (h.unmarked id hid).symm⟩

theorem mono {marked' : NodeId → Prop} (h : Alike marked graph graph')
    (himp : ∀ id, marked id → marked' id) : Alike marked' graph graph' :=
  ⟨h.byPath, h.byGroup, h.outline, fun id hid => h.unmarked id (mt (himp id) hid)⟩

theorem node?_cases (h : Alike marked graph graph') (id : NodeId) :
    (graph.node? id = none ∧ graph'.node? id = none) ∨
      ∃ node node', graph.node? id = some node ∧ graph'.node? id = some node' ∧
        node'.outline = node.outline := by
  have houtline := h.outline id
  cases hnode : graph.node? id with
  | none =>
      rw [hnode, Option.map_none, Option.map_eq_none_iff] at houtline
      exact .inl ⟨rfl, houtline⟩
  | some node =>
      rw [hnode, Option.map_some, Option.map_eq_some_iff] at houtline
      obtain ⟨node', hnode', heq⟩ := houtline
      exact .inr ⟨node, node', rfl, hnode', heq⟩

theorem size (h : Alike marked graph graph') : graph'.size = graph.size := by
  have hle : ∀ {g g' : NodeGraph}, Alike marked g g' → g'.size ≤ g.size := by
    intro g g' halike
    have houtline := halike.outline ⟨g.size⟩
    simpa [node?, NodeGraph.size] using houtline
  exact Nat.le_antisymm (hle h) (hle h.symm)

theorem name (h : Alike marked graph graph') (id : NodeId) : graph'.name id = graph.name id := by
  rcases h.node?_cases id with ⟨hnode, hnode'⟩ | ⟨node, node', hnode, hnode', heq⟩
  · rw [NodeGraph.name, NodeGraph.name, hnode, hnode']
  · simp only [NodeGraph.name, hnode, hnode', Option.map_some, Option.getD_some]
    rw [← Node.name_outline, heq, Node.name_outline]

theorem deps (h : Alike marked graph graph') (id : NodeId) :
    (graph'.node? id).map Node.deps = (graph.node? id).map Node.deps := by
  rcases h.node?_cases id with ⟨hnode, hnode'⟩ | ⟨node, node', hnode, hnode', heq⟩
  · rw [hnode, hnode']
  · simp only [hnode, hnode', Option.map_some]
    rw [← Node.deps_outline, heq, Node.deps_outline]

theorem step? (h : Alike marked graph graph') (id : NodeId) :
    (graph'.step? id).map BuildStep.outline = (graph.step? id).map BuildStep.outline := by
  rcases h.node?_cases id with ⟨hnode, hnode'⟩ | ⟨node, node', hnode, hnode', heq⟩
  · rw [NodeGraph.step?, NodeGraph.step?, hnode, hnode']
  · simp only [NodeGraph.step?, hnode, hnode', Option.bind_some]
    exact Node.step?_of_outline heq

theorem isBuilt (h : Alike marked graph graph') (id : NodeId) :
    graph'.isBuilt id = graph.isBuilt id := by
  have hstep := congrArg Option.isSome (h.step? id)
  simpa [NodeGraph.isBuilt] using hstep

theorem find (h : Alike marked graph graph') (path : Path) :
    graph'.find path = graph.find path := by
  rw [NodeGraph.find, NodeGraph.find, h.byPath]

/-! #### What the operations keep -/

/-- One more node, and an index that leads to it. -/
theorem push (h : Alike marked graph graph') (node : Node) (byPath : List (Path × NodeId))
    (byGroup : List (String × NodeId)) :
    Alike marked { nodes := graph.nodes.push node, byPath, byGroup }
      { nodes := graph'.nodes.push node, byPath, byGroup } := by
  refine ⟨rfl, rfl, fun id => ?_, fun id hid => ?_⟩
  · rw [node?_push, node?_push, h.size]
    split
    · rfl
    · exact h.outline id
  · rw [node?_push, node?_push, h.size, h.unmarked id hid]

theorem addFile (h : Alike marked graph graph') (path : Path) :
    (graph'.addFile path).1 = (graph.addFile path).1 ∧
      Alike marked (graph.addFile path).2 (graph'.addFile path).2 := by
  refine ⟨congrArg NodeId.mk h.size, ?_⟩
  simp only [NodeGraph.addFile, h.size, h.byPath, h.byGroup]
  exact h.push _ _ _

theorem file (h : Alike marked graph graph') (path : Path) :
    (graph'.file path).1 = (graph.file path).1 ∧
      Alike marked (graph.file path).2 (graph'.file path).2 := by
  simp only [NodeGraph.file, h.find]
  split
  · exact ⟨rfl, h⟩
  · exact h.addFile path

theorem addProduct (h : Alike marked graph graph') (path : Path) :
    (graph'.addProduct path).1 = (graph.addProduct path).1 ∧
      Alike marked (graph.addProduct path).2 (graph'.addProduct path).2 := by
  simp only [NodeGraph.addProduct, h.find, h.isBuilt]
  split
  · split
    · exact h.addFile path
    · exact ⟨rfl, h⟩
  · exact h.addFile path

theorem group (h : Alike marked graph graph') (name : String) :
    (graph'.group name).1 = (graph.group name).1 ∧
      Alike marked (graph.group name).2 (graph'.group name).2 := by
  simp only [NodeGraph.group, h.byGroup, h.byPath, h.size]
  split
  · exact ⟨rfl, h⟩
  · exact ⟨rfl, h.push _ _ _⟩

/-- The same change of one node, or two changes of a marked one. -/
theorem modify (h : Alike marked graph graph') (id : NodeId) {change change' : Node → Node}
    (houtline : ∀ node node', node'.outline = node.outline →
      (change' node').outline = (change node).outline)
    (hmarked : marked id ∨ change' = change) :
    Alike marked (graph.modify id change) (graph'.modify id change') := by
  refine ⟨h.byPath, h.byGroup, fun other => ?_, fun other hother => ?_⟩
  · rw [node?_modify, node?_modify]
    split
    · rcases h.node?_cases id with ⟨hnode, hnode'⟩ | ⟨node, node', hnode, hnode', heq⟩
      · rw [hnode, hnode']
        rfl
      · simp only [hnode, hnode', Option.map_some]
        rw [houtline node node' heq]
    · exact h.outline other
  · rw [node?_modify, node?_modify]
    split
    · next hid =>
        subst hid
        rw [h.unmarked other hother, hmarked.resolve_left hother]
    · exact h.unmarked other hother

/-- A marked node is changed in one of the graphs only. -/
theorem modify_left (h : Alike marked graph graph') (hid : marked id) {change : Node → Node}
    (houtline : ∀ node, (change node).outline = node.outline) :
    Alike marked (graph.modify id change) graph' := by
  refine ⟨h.byPath, h.byGroup, fun other => ?_, fun other hother => ?_⟩
  · rw [node?_modify, h.outline]
    split
    · next heq =>
        subst heq
        cases graph.node? other <;> simp [houtline]
    · rfl
  · rw [node?_modify, if_neg, h.unmarked other hother]
    rintro rfl
    exact hother hid

theorem setStep {step step' : BuildStep} {next next' : NodeGraph} (h : Alike marked graph graph')
    (hset : graph.setStep id step = .ok next) (hset' : graph'.setStep id step' = .ok next')
    (houtline : step'.outline = step.outline) (hmarked : marked id ∨ step' = step) :
    Alike marked next next' := by
  rcases h.node?_cases id with ⟨hnode, hnode'⟩ | ⟨node, node', hnode, hnode', heq⟩
  · rcases setStep_cases hset with ⟨-, rfl⟩ | ⟨_, _, hsome, -⟩
    · rcases setStep_cases hset' with ⟨-, rfl⟩ | ⟨_, _, hsome, -⟩
      · exact h
      · rw [hnode'] at hsome
        cases hsome
    · rw [hnode] at hsome
      cases hsome
  · rcases setStep_cases hset with ⟨hnone, -⟩ | ⟨_, path, hsome, hkind, rfl⟩
    · rw [hnode] at hnone
      cases hnone
    rcases setStep_cases hset' with ⟨hnone, -⟩ | ⟨_, path', hsome', hkind', rfl⟩
    · rw [hnode'] at hnone
      cases hnone
    rw [hnode] at hsome
    cases hsome
    rw [hnode'] at hsome'
    cases hsome'
    -- neither node had a step, so they were the same
    obtain rfl : node' = node := by
      rwa [Node.outline_of_step?, Node.outline_of_step?] at heq
      · rw [Node.step?, hkind]
      · rw [Node.step?, hkind']
    rw [hkind] at hkind'
    cases hkind'
    refine h.modify id (fun _ _ _ => ?_) (hmarked.imp_right fun hstep => by rw [hstep])
    simp only [Node.outline, NodeKind.outline, Option.map_some, houtline]

/-- The product of a step. If the steps differ, which they may in their requirements,
the product is marked. -/
theorem product {path : Path} {step step' : BuildStep} {change : Node → Node}
    {next next' : NodeGraph} {differ : Prop} (h : Alike marked graph graph')
    (hchange : ∀ node, (change node).outline = change node.outline)
    (hset : ((graph.addProduct path).2.modify (graph.addProduct path).1 change).setStep
      (graph.addProduct path).1 step = .ok next)
    (hset' : ((graph'.addProduct path).2.modify (graph'.addProduct path).1 change).setStep
      (graph'.addProduct path).1 step' = .ok next')
    (houtline : step'.outline = step.outline) (hsame : ¬ differ → step' = step) :
    Alike (fun node => marked node ∨ differ ∧ node = (graph.addProduct path).1) next next' := by
  obtain ⟨hid, hadded⟩ := h.addProduct path
  rw [hid] at hset'
  have hchanged := hadded.modify (graph.addProduct path).1
    (fun node node' heq => by rw [hchange node', hchange node, heq]) (.inr (Eq.refl change))
  refine (hchanged.mono fun _ => .inl).setStep hset hset' houtline ?_
  by_cases hdiffer : differ
  · exact .inl (.inr ⟨hdiffer, rfl⟩)
  · exact .inr (hsame hdiffer)

end Alike

end NodeGraph

/-! ### Projects -/

/-- A target apart from its requirements. -/
def Target.outline (t : Target) : Target :=
  { t with publicReqs := {}, privateReqs := {}, collected := none }

/-- Targets with one outline differ in their requirements. -/
theorem Target.eq_of_outline {t t' : Target} (h : t'.outline = t.outline) :
    ∃ publicReqs privateReqs collected,
      t' = { t with publicReqs, privateReqs, collected } := by
  refine ⟨t'.publicReqs, t'.privateReqs, t'.collected, ?_⟩
  cases t
  cases t'
  simp only [outline, Target.mk.injEq] at h ⊢
  simp [h]

namespace Project

/-- A project apart from its nodes and from the requirements of its targets. -/
def outline (p : Project) : Project :=
  { p with targets := p.targets.map Target.outline, graph := {} }

section Outline

variable (p : Project) (id : TargetId)

@[simp] theorem target?_outline : p.outline.target? id = (p.target? id).map Target.outline := by
  simp [target?, outline]

@[simp] theorem targetIds_outline : p.outline.targetIds = p.targetIds := by
  simp [targetIds, outline]

@[simp] theorem environment?_outline : p.outline.environment? = p.environment? := rfl

@[simp] theorem targetName_outline : p.outline.targetName = p.targetName := by
  funext id
  simp [targetName, Function.comp_def, Target.outline]

@[simp] theorem dependenciesOf_outline : p.outline.dependenciesOf = p.dependenciesOf := by
  funext id
  simp [dependenciesOf, Function.comp_def, Target.outline]

@[simp] theorem outputsOf_outline : p.outline.outputsOf = p.outputsOf := by
  funext id
  simp [outputsOf, Function.comp_def, Target.outline]

@[simp] theorem targetEnvironment?_outline :
    p.outline.targetEnvironment? id = p.targetEnvironment? id := by
  simp [targetEnvironment?, Option.bind_map, Function.comp_def, Target.outline]

@[simp] theorem separatedFlags_outline : p.outline.separatedFlags id = p.separatedFlags id := by
  simp [separatedFlags]

@[simp] theorem impliedFlags_outline : p.outline.impliedFlags id = p.impliedFlags id := by
  rw [impliedFlags, impliedFlags, targetEnvironment?_outline, target?_outline]
  cases p.target? id with
  | none => rfl
  | some t => cases (p.targetEnvironment? id).bind Environment.toolchain <;> rfl

@[simp] theorem reachedTargets_outline : p.outline.reachedTargets id = p.reachedTargets id := by
  simp [reachedTargets]

@[simp] theorem transitiveDependencies_outline :
    p.outline.transitiveDependencies id = p.transitiveDependencies id := by
  simp [transitiveDependencies]

@[simp] theorem allLanguages_outline : p.outline.allLanguages id = p.allLanguages id := by
  simp [allLanguages, Function.comp_def, Target.outline]

@[simp] theorem buildOrder_outline : p.outline.buildOrder = p.buildOrder := by
  have hbelow : p.outline.positionsBelow = p.positionsBelow := by
    funext ids position
    simp [positionsBelow]
  simp [buildOrder, orderAmong, cyclesAmong, hbelow]

end Outline

end Project

namespace Resolve

section Outline

variable (p : Project) (id : TargetId)

@[simp] theorem primaryToolchain_outline :
    primaryToolchain p.outline id = primaryToolchain p id := by
  simp [primaryToolchain]

@[simp] theorem dependencyOutputs_outline :
    dependencyOutputs p.outline id = dependencyOutputs p id := by
  simp [dependencyOutputs]

@[simp] theorem linkedTargets_outline : linkedTargets p.outline id = linkedTargets p id := by
  have hany : ∀ (test : TargetType → Bool) dep,
      (p.outline.target? dep).any (fun t => test t.type) =
        (p.target? dep).any fun t => test t.type := by
    intro test dep
    rw [Project.target?_outline, Option.any_map]
    rfl
  simp only [linkedTargets, Project.transitiveDependencies_outline,
    hany TargetType.linksIntoDependents, hany (decide <| · = .object), hany (decide <| · ≠ .object)]

@[simp] theorem archiveStep_outline (t : Target) (env : EnvironmentId)
    (reqs : EffectiveRequirements) :
    archiveStep p.outline id t env reqs = archiveStep p id t env reqs := by
  simp [archiveStep, outputVar, commandStyle]

@[simp] theorem linkStep_outline (t : Target) (env : EnvironmentId)
    (reqs : EffectiveRequirements) :
    linkStep p.outline id t env reqs = linkStep p id t env reqs := by
  simp [linkStep, outputVar, commandStyle, linkLanguage]

end Outline

end Resolve

end BuildPlan
