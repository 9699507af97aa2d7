import BuildPlan.Proofs.NodeGraph
import BuildPlan.Resolve
import Mathlib.Logic.Relation

/-!
# BuildPlan.Proofs.Resolve.Change

The single changes that resolution makes to a project. A run of resolution is a
path of such changes, so what each of them preserves holds after the run.

Two things are recorded beside the project: the targets that are being given
their nodes, innermost first, and the products that have been made for the
innermost one. They are handed over when the target is finished.
-/

namespace BuildPlan

/-- What a target was declared with, its plan apart. -/
def Target.declared (t : Target) : Target :=
  { t with
    languages := [], objects := [], outputs := [], auxiliaryInputs := [], pending := none
    collected := none, resolved := false }

theorem Target.sources_of_declared {t t' : Target} (h : t'.declared = t.declared) :
    t'.sources = t.sources := by
  have hsources := congrArg Target.sources h
  exact hsources

theorem Target.type_of_declared {t t' : Target} (h : t'.declared = t.declared) :
    t'.type = t.type := by
  have htype := congrArg Target.type h
  exact htype

theorem Target.env_of_declared {t t' : Target} (h : t'.declared = t.declared) :
    t'.env = t.env := by
  have henv := congrArg Target.env h
  exact henv

/-- The nodes among a plan's sources. -/
def InstallPlan.nodes (plan : InstallPlan) : List NodeId :=
  plan.sources.filterMap fun source =>
    match source with
    | .node node => some node
    | .target _ | .path _ => none

/-- The nodes that a target refers to. -/
def Target.nodes (t : Target) : List NodeId :=
  t.sources ++ t.pending.toList.flatMap InstallPlan.nodes ++ t.objects ++ t.outputs

theorem Target.mem_nodes {t : Target} {node : NodeId} :
    node ∈ t.nodes ↔ node ∈ t.sources ∨ (∃ plan, t.pending = some plan ∧ node ∈ plan.nodes) ∨
      node ∈ t.objects ∨ node ∈ t.outputs := by
  simp [nodes]

/-- The place of a copy. -/
def Destination.place (graph : NodeGraph) (source : NodeId) : Destination → Path
  | .directory dir => dir.join (Resolve.copiedName graph source)
  | .file path => path

/-- Does the target make files of its own, apart from objects? -/
def TargetType.makesOutput : TargetType → Bool
  | .staticLibrary | .sharedLibrary | .program | .install => true
  | .object | .interface => false

namespace Project

variable {p : Project} {id other : TargetId}

/-- Options that give the same results under a function give the same result. -/
theorem bind_congr_map {α β : Type} {f : α → Option β} {x y : Option α}
    (h : x.map f = y.map f) : x.bind f = y.bind f := by
  have hjoin : ∀ o : Option α, o.bind f = (o.map f).join := by
    intro o
    cases o <;> rfl
  rw [hjoin, h, ← hjoin]

theorem environment?_congr {q : Project} (h : q.environments = p.environments) :
    q.environment? = p.environment? := by
  funext id
  rw [environment?, environment?, h]

theorem target?_modifyTarget (p : Project) (id other : TargetId) (change : Target → Target) :
    (p.modifyTarget id change).target? other =
      if other = id then (p.target? id).map change else p.target? other := by
  obtain ⟨i⟩ := id
  obtain ⟨j⟩ := other
  simp only [modifyTarget, target?, Array.getElem?_modify, TargetId.mk.injEq, @eq_comm _ j i]
  split
  · next h => subst h; rfl
  · rfl

@[simp] theorem graph_modifyTarget (p : Project) (id : TargetId) (change : Target → Target) :
    (p.modifyTarget id change).graph = p.graph := rfl

theorem modifyTarget_modifyTarget (p : Project) (id : TargetId) (f g : Target → Target) :
    (p.modifyTarget id f).modifyTarget id g = p.modifyTarget id (g ∘ f) := by
  simp only [modifyTarget, Project.mk.injEq, and_self, and_true, true_and]
  refine Array.ext_getElem? fun i => ?_
  simp only [Array.getElem?_modify]
  split <;> simp

/-- A target after another one, or this one, has been changed. -/
theorem exists_target_of_modifyTarget {change : Target → Target} {t' : Target}
    (h : (p.modifyTarget id change).target? other = some t') :
    ∃ t, p.target? other = some t ∧ t' = if other = id then change t else t := by
  rw [target?_modifyTarget] at h
  split at h
  · next heq =>
      obtain ⟨t, ht, rfl⟩ := Option.map_eq_some_iff.mp h
      exact ⟨t, heq ▸ ht, (if_pos heq).symm⟩
  · next hne => exact ⟨t', h, (if_neg hne).symm⟩

/-- Before a target is edited, nothing is kept with any target any more. -/
theorem exists_target_of_editTarget {change : Target → Target} {t' : Target}
    (h : (p.editTarget id change).target? other = some t') :
    ∃ t, p.target? other = some t ∧
      t' = if other = id then change { t with collected := none }
        else { t with collected := none } := by
  obtain ⟨forgotten, hforgotten, rfl⟩ := exists_target_of_modifyTarget h
  rw [target?, forgetRequirements, Array.getElem?_map, Option.map_eq_some_iff] at hforgotten
  obtain ⟨t, ht, rfl⟩ := hforgotten
  exact ⟨t, ht, rfl⟩

end Project

namespace Resolve

/-- A target that is being given its nodes. -/
structure Job where
  target : TargetId
  /-- The plan that an install target carries out. -/
  plan : Option InstallPlan := none

/-- A project on its way through resolution. -/
structure Stage where
  project : Project
  /-- The products made for the innermost job, in order. -/
  made : List NodeId := []
  /-- The jobs that have begun and are not finished, innermost first. -/
  jobs : List Job := []

/-- The parts of resolution. -/
inductive Phase
  /-- Targets are compiled and linked. -/
  | compile
  /-- Install targets are copied, and groups are made. -/
  | install
  /-- Commands are expanded. -/
  | expand
  deriving DecidableEq

/-- A target has noted something that neither its plan nor its outputs show. -/
structure Notes (t t' : Target) : Prop where
  declared : t'.declared = t.declared
  pending : t'.pending = t.pending
  outputs : t'.outputs = t.outputs
  resolved : t'.resolved = t.resolved

/-- What a finished target hands out: the products made for it. A target without
products keeps what it has, and an object target hands out its objects. -/
def HandsOut (t : Target) (made outputs : List NodeId) : Prop :=
  outputs = made ∨ made = [] ∧ (outputs = t.outputs ∨ t.type = .object ∧ outputs = t.objects)

/-- A single change. -/
inductive Change : Phase → Stage → Stage → Prop
  /-- A target notes its requirements, objects or languages. -/
  | note {p : Project} {made : List NodeId} {jobs : List Job} {id : TargetId}
      {f : Target → Target} (hnotes : ∀ t, Notes t (f t))
      (hobjects : ∀ t, ∀ node ∈ (f t).objects, node ∈ t.objects ∨ node.index < p.graph.size) :
      Change .compile ⟨p, made, jobs⟩ ⟨p.modifyTarget id f, made, jobs⟩
  /-- A source is compiled. No step makes the object's path yet. -/
  | object {p : Project} {made : List NodeId} {jobs : List Job} {path : Path} {step : BuildStep}
      {node : NodeId} {graph : NodeGraph} (hmade : p.graph.Produces path step node graph)
      (hkind : step.kind = .compile) (hcommand : step.command = none)
      (hnew : ∀ top, p.graph.find path = some top → p.graph.isBuilt top = false) :
      Change .compile ⟨p, made, jobs⟩ ⟨{ p with graph }, made, jobs⟩
  /-- Work on a target that compiles begins. -/
  | start {p : Project} {id : TargetId} {t : Target} (htarget : p.target? id = some t)
      (hresolved : t.resolved = false) (htype : t.type ≠ .install) :
      Change .compile ⟨p, [], []⟩ ⟨p, [], [⟨id, none⟩]⟩
  /-- The output of a target is made. -/
  | output {p : Project} {jobs : List Job} {id : TargetId} {t : Target} {step : BuildStep}
      {node : NodeId} {graph : NodeGraph} (htarget : p.target? id = some t)
      (htype : t.type.makesOutput = true)
      (hmade : p.graph.Produces (outputPath p id t) step node graph)
      (hkind : step.kind = .archive ∨ step.kind = .link) (hcommand : step.command = none) :
      Change .compile ⟨p, [], ⟨id, none⟩ :: jobs⟩ ⟨{ p with graph }, [node], ⟨id, none⟩ :: jobs⟩
  /-- A target is given its outputs. -/
  | finish {phase : Phase} {p : Project} {made : List NodeId} {job : Job} {jobs : List Job}
      {f : Target → Target} (hdeclared : ∀ t, (f t).declared = t.declared)
      (hpending : ∀ t, (f t).pending = t.pending) (hobjects : ∀ t, (f t).objects = t.objects)
      (hresolved : ∀ t, (f t).resolved = true)
      (houtputs : ∀ t, p.target? job.target = some t → HandsOut t made (f t).outputs) :
      Change phase ⟨p, made, job :: jobs⟩ ⟨p.modifyTarget job.target f, [], jobs⟩
  /-- The plan of an install target is taken. -/
  | take {p : Project} {jobs : List Job} {id : TargetId} {t : Target} {plan : InstallPlan}
      (htarget : p.target? id = some t) (hplan : t.pending = some plan) :
      Change .install ⟨p, [], jobs⟩
        ⟨p.modifyTarget id fun t => { t with pending := none }, [], ⟨id, some plan⟩ :: jobs⟩
  /-- The path of a source is given a node. -/
  | file {p : Project} {jobs : List Job} (path : Path) :
      Change .install ⟨p, [], jobs⟩ ⟨(p.file path).2, [], jobs⟩
  /-- A node is copied. -/
  | copy {p : Project} {made : List NodeId} {jobs : List Job} {id : TargetId} {plan : InstallPlan}
      {env : Option EnvironmentId} {source node : NodeId} {graph : NodeGraph}
      (hsource : source.index < p.graph.size)
      (hmade : p.graph.Produces (plan.destination.place p.graph source) (copyStep env source) node
        graph) :
      Change .install ⟨p, made, ⟨id, some plan⟩ :: jobs⟩
        ⟨{ p with graph }, made ++ [node], ⟨id, some plan⟩ :: jobs⟩
  /-- The node of a group is made or extended. -/
  | group {p : Project} (name : String) {change : Node → Node}
      (hchange : ∀ node, (change node).kind = node.kind) :
      Change .install ⟨p, [], []⟩
        ⟨{ p with graph := (p.graph.group name).2.modify (p.graph.group name).1 change }, [], []⟩
  /-- A command is attached to a built node. -/
  | command {p : Project} {id : NodeId} {path : Path} {step : BuildStep} {tokens : List Token}
      (hid : p.graph.kind? id = some (.file path (some step))) :
      Change .expand ⟨p, [], []⟩ ⟨{ p with graph := p.graph.setCommand id tokens }, [], []⟩

theorem kind_of_output {kind : StepKind} (h : kind = .archive ∨ kind = .link) :
    kind ≠ .compile ∧ kind ≠ .copy := by
  rcases h with rfl | rfl <;> decide

/-- A target that is only given outputs and marked as resolved is finished. -/
theorem Change.finished {phase : Phase} {p : Project} {made : List NodeId} {job : Job}
    {jobs : List Job} {f : Target → Target} {outputs : Target → List NodeId}
    (hf : ∀ t, f t = { t with outputs := outputs t, resolved := true })
    (houtputs : ∀ t, p.target? job.target = some t → HandsOut t made (outputs t)) :
    Change phase ⟨p, made, job :: jobs⟩ ⟨p.modifyTarget job.target f, [], jobs⟩ := by
  have hall : ∀ t, (f t).declared = t.declared ∧ (f t).pending = t.pending ∧
      (f t).objects = t.objects ∧ (f t).resolved = true ∧ (f t).outputs = outputs t := by
    intro t
    rw [hf]
    exact ⟨rfl, rfl, rfl, rfl, rfl⟩
  refine .finish (fun t => (hall t).1) (fun t => (hall t).2.1) (fun t => (hall t).2.2.1)
    (fun t => (hall t).2.2.2.1) fun t ht => ?_
  rw [(hall t).2.2.2.2]
  exact houtputs t ht

/-- A run of changes. -/
def Changes (phase : Phase) : Stage → Stage → Prop := Relation.ReflTransGen (Change phase)

/-! ### Ids stay valid -/

/-- The index of the graph is sound, and every node id that is held somewhere is
the id of a node. -/
structure Sound (s : Stage) : Prop where
  indexed : s.project.graph.Indexed
  targets : ∀ id t, s.project.target? id = some t →
    ∀ node ∈ t.nodes, node.index < s.project.graph.size
  made : ∀ node ∈ s.made, node.index < s.project.graph.size

section Sound

variable {p : Project} {made made' : List NodeId} {jobs jobs' : List Job} {graph : NodeGraph}

theorem Sound.withGraph (h : Sound ⟨p, made, jobs⟩) (hindexed : graph.Indexed)
    (hsize : p.graph.size ≤ graph.size)
    (hmade : ∀ node ∈ made', node ∈ made ∨ node.index < graph.size) :
    Sound ⟨{ p with graph }, made', jobs'⟩ := by
  refine ⟨hindexed, fun id t ht node hnode => ?_, fun node hnode => ?_⟩
  · exact Nat.lt_of_lt_of_le (h.targets id t ht node hnode) hsize
  · rcases hmade node hnode with hold | hnew
    · exact Nat.lt_of_lt_of_le (h.made node hold) hsize
    · exact hnew

theorem Sound.withTarget (h : Sound ⟨p, made, jobs⟩) {id : TargetId} {f : Target → Target}
    (hf : ∀ t, p.target? id = some t → ∀ node ∈ (f t).nodes,
      node ∈ t.nodes ∨ node ∈ made ∨ node.index < p.graph.size)
    (hmade : ∀ node ∈ made', node ∈ made) : Sound ⟨p.modifyTarget id f, made', jobs'⟩ := by
  refine ⟨h.indexed, fun other t' ht' node hnode => ?_, fun node hnode => ?_⟩
  · obtain ⟨t, ht, rfl⟩ := Project.exists_target_of_modifyTarget ht'
    split at hnode
    · next heq =>
        rcases hf t (heq ▸ ht) node hnode with hold | hmem | hlt
        · exact h.targets other t ht node hold
        · exact h.made node hmem
        · exact hlt
    · exact h.targets other t ht node hnode
  · exact h.made node (hmade node hnode)

theorem size_le_of_product {path : Path} {step : BuildStep} {node : NodeId}
    (h : p.graph.Product path step node graph) :
    p.graph.size ≤ graph.size ∧ node.index < graph.size := by
  obtain ⟨_, -, hkind⟩ := h.made
  refine ⟨?_, NodeGraph.lt_size_of_kind? hkind⟩
  rcases Nat.lt_or_ge node.index p.graph.size with hlt | hge
  · exact Nat.le_of_eq (h.reused hlt).1.symm
  · exact Nat.le_of_lt (Nat.lt_of_lt_of_eq (Nat.lt_succ_self _) (h.new hge).symm)

/-- No node goes. -/
theorem Change.size_le {phase : Phase} {s s' : Stage} (hchange : Change phase s s') (h : Sound s) :
    s.project.graph.size ≤ s'.project.graph.size := by
  cases hchange with
  | note | start | finish | take => exact Nat.le_refl _
  | object hmade => exact (size_le_of_product (hmade.product h.indexed).1).1
  | output _ _ hmade => exact (size_le_of_product (hmade.product h.indexed).1).1
  | copy _ hmade => exact (size_le_of_product (hmade.product h.indexed).1).1
  | file path => exact (h.indexed.size_file path).1
  | group name =>
      rw [NodeGraph.size_modify]
      exact NodeGraph.size_le_group _ _
  | command => exact Nat.le_of_eq (NodeGraph.size_modify _ _ _).symm

/-- A change keeps the ids valid. -/
theorem Change.sound {phase : Phase} {s s' : Stage} (hchange : Change phase s s') (h : Sound s) :
    Sound s' := by
  cases hchange with
  | note hnotes hobjects =>
      refine h.withTarget (fun t _ node hnode => ?_) fun _ => id
      obtain ⟨hdeclared, hpending, houtputs, -⟩ := hnotes t
      have hsources := Target.sources_of_declared hdeclared
      rw [Target.mem_nodes] at hnode ⊢
      rcases hnode with hn | hn | hn | hn
      · exact .inl (.inl (hsources ▸ hn))
      · exact .inl (.inr (.inl (hpending ▸ hn)))
      · exact (hobjects t node hn).imp (fun hn => .inr (.inr (.inl hn))) .inr
      · exact .inl (.inr (.inr (.inr (houtputs ▸ hn))))
  | object hmade hkind hcommand hnew =>
      obtain ⟨hproduct, hindexed⟩ := hmade.product h.indexed
      exact h.withGraph hindexed (size_le_of_product hproduct).1 fun _ => .inl
  | start htarget hresolved htype => exact ⟨h.indexed, h.targets, h.made⟩
  | output htarget htype hmade hkind hcommand =>
      obtain ⟨hproduct, hindexed⟩ := hmade.product h.indexed
      obtain ⟨hsize, hlt⟩ := size_le_of_product hproduct
      refine h.withGraph hindexed hsize fun node hnode => .inr ?_
      rwa [List.mem_singleton.mp hnode]
  | finish hdeclared hpending hobjects hresolved houtputs =>
      refine h.withTarget (fun t ht node hnode => ?_) (by simp)
      have hsources := Target.sources_of_declared (hdeclared t)
      rw [Target.mem_nodes] at hnode ⊢
      rcases hnode with hn | hn | hn | hn
      · exact .inl (.inl (hsources ▸ hn))
      · exact .inl (.inr (.inl (hpending t ▸ hn)))
      · exact .inl (.inr (.inr (.inl (hobjects t ▸ hn))))
      · -- the outputs are products of this turn, or ids that the target held before
        rcases houtputs t ht with heq | ⟨-, heq | ⟨-, heq⟩⟩
        · exact .inr (.inl (heq ▸ hn))
        · exact .inl (.inr (.inr (.inr (heq ▸ hn))))
        · exact .inl (.inr (.inr (.inl (heq ▸ hn))))
  | take htarget hplan =>
      refine h.withTarget (fun t _ node hnode => .inl ?_) fun _ => id
      rw [Target.mem_nodes] at hnode ⊢
      rcases hnode with hn | ⟨_, hnone, -⟩ | hn
      · exact .inl hn
      · cases hnone
      · exact .inr (.inr hn)
  | file path =>
      exact h.withGraph (h.indexed.file path) (h.indexed.size_file path).1 fun _ => .inl
  | copy hsource hmade =>
      obtain ⟨hproduct, hindexed⟩ := hmade.product h.indexed
      obtain ⟨hsize, hlt⟩ := size_le_of_product hproduct
      refine h.withGraph hindexed hsize fun node hnode => ?_
      rcases List.mem_append.mp hnode with hold | hnew
      · exact .inl hold
      · rw [List.mem_singleton.mp hnew]
        exact .inr hlt
  | group name hchange =>
      refine h.withGraph ((h.indexed.group name).modify _ hchange) ?_ fun _ => .inl
      rw [NodeGraph.size_modify]
      exact NodeGraph.size_le_group _ _
  | command hid =>
      refine h.withGraph (h.indexed.setCommand hid) ?_ fun _ => .inl
      exact Nat.le_of_eq (NodeGraph.size_modify _ _ _).symm

theorem Changes.sound {phase : Phase} {s s' : Stage} (hchanges : Changes phase s s')
    (h : Sound s) : Sound s' := by
  induction hchanges with
  | refl => exact h
  | tail _ hchange ih => exact hchange.sound ih

theorem Changes.size_le {phase : Phase} {s s' : Stage} (hchanges : Changes phase s s')
    (h : Sound s) : s.project.graph.size ≤ s'.project.graph.size := by
  induction hchanges with
  | refl => exact Nat.le_refl _
  | tail hbefore hchange ih => exact Nat.le_trans ih (hchange.size_le (Changes.sound hbefore h))

end Sound

end Resolve

end BuildPlan
