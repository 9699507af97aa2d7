import BuildPlan.Proofs.NodeGraph

/-!
# BuildPlan.Proofs.NodeGraph.Coherence

What holds of a graph after any sequence of operations. The index leads to the newest
node of a path, and the older nodes of the path are all built; the name of a group leads
to its only node; no dependency is listed twice; and a node keeps its name and, apart from
the command, the step that makes it.

Whether a product takes over a node or adds one depends on what another operation has
attached to that node. `Moves` says once what an operation can do to a graph; the
invariant and what is kept are read off that.
-/

namespace BuildPlan

namespace Node

/-- The node stands for what it stood for, and a step that it has stays, apart from
the command. -/
structure KeptAs (node node' : Node) : Prop where
  name : node'.name = node.name
  path : node'.path? = node.path?
  step : ∀ step, node.step? = some step → ∃ command, node'.step? = some { step with command }
  explicitDeps : node.explicitDeps.Nodup → node'.explicitDeps.Nodup
  implicitDeps : node.implicitDeps.Nodup → node'.implicitDeps.Nodup

theorem KeptAs.refl (node : Node) : node.KeptAs node :=
  ⟨rfl, rfl, fun step hstep => ⟨step.command, hstep⟩, id, id⟩

theorem nodup_addNew {ids : List NodeId} (h : ids.Nodup) (extra : List NodeId) :
    (addNew ids extra).Nodup := by
  unfold addNew Flag.appendNew
  induction extra generalizing ids with
  | nil => exact h
  | cons first rest ih =>
      rw [List.foldl_cons]
      split
      · exact ih h
      · next hnew =>
          have hfresh : first ∉ ids := by simpa using hnew
          refine ih (List.nodup_append.mpr ⟨h, by simp, ?_⟩)
          intro other hother last hlast
          rw [List.mem_singleton.mp hlast]
          rintro rfl
          exact hfresh hother

theorem keptAs_depends (node : Node) (extra : List NodeId) : node.KeptAs (node.depends extra) where
  name := rfl
  path := rfl
  step step hstep := ⟨step.command, hstep⟩
  explicitDeps h := nodup_addNew h extra
  implicitDeps := id

theorem keptAs_dependsImplicitly (node : Node) (extra : List NodeId) :
    node.KeptAs (node.dependsImplicitly extra) where
  name := rfl
  path := rfl
  step step hstep := ⟨step.command, hstep⟩
  explicitDeps := id
  implicitDeps h := nodup_addNew h extra

/-- A step is attached only where there is none. -/
theorem keptAs_setStep {node node' : Node} {step : BuildStep} (h : node.setStep step = .ok node') :
    node.KeptAs node' := by
  unfold setStep at h
  split at h
  · next path hkind =>
      cases h
      refine ⟨?_, ?_, fun step hstep => ?_, id, id⟩
      · simp [name, hkind]
      · simp [path?, hkind]
      · simp [step?, hkind] at hstep
  · cases h
  · cases h

theorem keptAs_setCommand (node : Node) (command : List Token) :
    node.KeptAs (node.setCommand command) := by
  unfold setCommand
  split
  · next path step hkind =>
      refine ⟨?_, ?_, fun step' hstep => ⟨some command, ?_⟩, id, id⟩
      · simp [name, hkind]
      · simp [path?, hkind]
      · have heq : step = step' := by simpa [step?, hkind] using hstep
        simp [step?, heq]
  · exact .refl node

end Node

namespace NodeGraph

/-- The calls that change a graph. -/
inductive Operation
  | file (path : Path)
  | product (path : Path)
  | group (name : String)
  | depends (id : NodeId) (extra : List NodeId)
  | dependsImplicitly (id : NodeId) (extra : List NodeId)
  | setStep (id : NodeId) (step : BuildStep)
  | setCommand (id : NodeId) (command : List Token)

/-- What an operation leaves. One that fails leaves the graph as it is. -/
def Operation.apply (graph : NodeGraph) : Operation → NodeGraph
  | .file path => (graph.file path).2
  | .product path => (graph.addProduct path).2
  | .group name => (graph.group name).2
  | .depends id extra => graph.modify id (·.depends extra)
  | .dependsImplicitly id extra => graph.modify id (·.dependsImplicitly extra)
  | .setStep id step =>
    match graph.setStep id step with
    | .ok graph' => graph'
    | .error _ => graph
  | .setCommand id command => graph.setCommand id command

/-- The graph that operations make, one after the other. -/
def ofOperations (ops : List Operation) : NodeGraph := ops.foldl Operation.apply {}

variable {graph graph' : NodeGraph} {id other : NodeId} {path path' : Path} {name : String}

/-! ### What an operation can do -/

/-- A graph before and after an operation. -/
inductive Moves (graph : NodeGraph) : NodeGraph → Prop
  | idle : Moves graph graph
  /-- A file is added. The one that the index led to, if any, is built. -/
  | file (path : Path) (h : ∀ top, graph.find path = some top → graph.isBuilt top = true) :
    Moves graph (graph.addFile path).2
  /-- A group is added under a name of its own. -/
  | group (name : String) (h : graph.byGroup.lookup name = none) :
    Moves graph (graph.group name).2
  | change (id : NodeId) (change : Node → Node)
    (h : ∀ node, graph.node? id = some node → node.KeptAs (change node)) :
    Moves graph (graph.modify id change)

theorem moves_setStep {step : BuildStep} (h : graph.setStep id step = .ok graph') :
    Moves graph graph' := by
  unfold setStep at h
  split at h
  · cases h
    exact .idle
  · next node hnode =>
      cases hset : node.setStep step with
      | error e =>
          rw [hset] at h
          cases h
      | ok node' =>
          rw [hset] at h
          cases h
          refine .change id _ fun known hknown => ?_
          rw [hnode] at hknown
          cases hknown
          exact Node.keptAs_setStep hset

theorem Operation.moves (graph : NodeGraph) (op : Operation) : Moves graph (op.apply graph) := by
  cases op with
  | file path =>
      simp only [apply, NodeGraph.file]
      split
      · exact .idle
      · next hnone => exact .file path (by simp [hnone])
  | product path =>
      simp only [apply, addProduct]
      split
      · next top hfind =>
          split
          · next hbuilt => exact .file path (by simp [hfind, hbuilt])
          · exact .idle
      · next hnone => exact .file path (by simp [hnone])
  | group name =>
      cases hlookup : graph.byGroup.lookup name with
      | none => exact .group name hlookup
      | some id =>
          have hsame : (graph.group name).2 = graph := by simp [NodeGraph.group, hlookup]
          rw [apply, hsame]
          exact .idle
  | depends id extra => exact .change id _ fun node _ => node.keptAs_depends extra
  | dependsImplicitly id extra =>
      exact .change id _ fun node _ => node.keptAs_dependsImplicitly extra
  | setStep id step =>
      simp only [apply]
      split
      · next hset => exact moves_setStep hset
      · exact .idle
  | setCommand id command => exact .change id _ fun node _ => node.keptAs_setCommand command

/-! ### What is kept -/

theorem node?_addFile (graph : NodeGraph) (path : Path) (id : NodeId) :
    (graph.addFile path).2.node? id =
      if id = ⟨graph.size⟩ then some { kind := .file path none } else graph.node? id := by
  obtain ⟨i⟩ := id
  simp only [addFile, node?, size, Array.getElem?_push, NodeId.mk.injEq]

theorem node?_group (h : graph.byGroup.lookup name = none) (id : NodeId) :
    (graph.group name).2.node? id =
      if id = ⟨graph.size⟩ then some { kind := .group name } else graph.node? id := by
  obtain ⟨i⟩ := id
  simp only [group, h, node?, size, Array.getElem?_push, NodeId.mk.injEq]

theorem lt_size_of_node? {node : Node} (h : graph.node? id = some node) :
    id.index < graph.size := by
  obtain ⟨hlt, -⟩ := Array.getElem?_eq_some_iff.mp h
  exact hlt

theorem ne_size_of_node? {node : Node} (h : graph.node? id = some node) : id ≠ ⟨graph.size⟩ := by
  rintro rfl
  exact Nat.lt_irrefl _ (lt_size_of_node? h)

theorem Moves.kept (h : Moves graph graph') {node : Node} (hnode : graph.node? id = some node) :
    ∃ node', graph'.node? id = some node' ∧ node.KeptAs node' := by
  cases h with
  | idle => exact ⟨node, hnode, .refl node⟩
  | file path =>
      exact ⟨node, by rw [node?_addFile, if_neg (ne_size_of_node? hnode), hnode], .refl node⟩
  | group name hnew =>
      exact ⟨node, by rw [node?_group hnew, if_neg (ne_size_of_node? hnode), hnode], .refl node⟩
  | change changed change hkept =>
      rw [node?_modify]
      split
      · next heq =>
          subst heq
          exact ⟨change node, by rw [hnode]; rfl, hkept node hnode⟩
      · exact ⟨node, hnode, .refl node⟩

/-! ### The invariant -/

/-- The node is a file whose path names the same file. -/
def StandsFor (graph : NodeGraph) (path : Path) (id : NodeId) : Prop :=
  ∃ node known, graph.node? id = some node ∧ node.path? = some known ∧ path.same known = true

/-- The node was created last among those that stand for the path. -/
def Newest (graph : NodeGraph) (path : Path) (id : NodeId) : Prop :=
  graph.StandsFor path id ∧ ∀ other, graph.StandsFor path other → other.index ≤ id.index

structure Coherent (graph : NodeGraph) : Prop where
  find_iff : ∀ path id, graph.find path = some id ↔ graph.Newest path id
  find_none_iff : ∀ path, graph.find path = none ↔ ∀ id, ¬ graph.StandsFor path id
  /-- Only the newest of the nodes that stand for a path may be without a step. -/
  earlier_built : ∀ path id other, graph.StandsFor path id → graph.StandsFor path other →
    other.index < id.index → graph.isBuilt other = true
  group_iff : ∀ name id,
    graph.byGroup.lookup name = some id ↔ graph.kind? id = some (.group name)
  nodup_deps : ∀ id node, graph.node? id = some node →
    node.explicitDeps.Nodup ∧ node.implicitDeps.Nodup

theorem coherent_empty : Coherent {} := by
  have hnode : ∀ id, ({} : NodeGraph).node? id = none := by simp [node?]
  have hstands : ∀ path id, ¬ ({} : NodeGraph).StandsFor path id := by simp [StandsFor, hnode]
  refine ⟨fun path id => ?_, fun path => ?_, fun path id _ hid => ?_, fun name id => ?_,
    fun id node hid => ?_⟩
  · simp [find, Newest, hstands]
  · simp [find, hstands]
  · exact absurd hid (hstands path id)
  · simp [kind?, hnode]
  · rw [hnode] at hid
    cases hid

/-- At most one node that stands for a path is not built. -/
theorem Coherent.unbuilt_unique (h : Coherent graph) (hid : graph.StandsFor path id)
    (hother : graph.StandsFor path other) (hunbuilt : graph.isBuilt id = false)
    (hunbuilt' : graph.isBuilt other = false) : id = other := by
  rcases Nat.lt_trichotomy id.index other.index with hlt | heq | hlt
  · rw [h.earlier_built path other id hother hid hlt] at hunbuilt
    cases hunbuilt
  · cases id
    cases other
    exact congrArg NodeId.mk heq
  · rw [h.earlier_built path id other hid hother hlt] at hunbuilt'
    cases hunbuilt'

/-- Every node that stands for a path is built when the newest one is. -/
theorem Coherent.built_of_newest (h : Coherent graph)
    (hbuilt : ∀ top, graph.find path = some top → graph.isBuilt top = true)
    (hid : graph.StandsFor path id) : graph.isBuilt id = true := by
  cases hfind : graph.find path with
  | none => exact absurd hid ((h.find_none_iff path).mp hfind id)
  | some top =>
      obtain ⟨htop, hnewest⟩ := (h.find_iff path top).mp hfind
      rcases Nat.lt_or_ge id.index top.index with hlt | hge
      · exact h.earlier_built path top id htop hid hlt
      · obtain rfl : id = top := by
          cases id
          cases top
          exact congrArg NodeId.mk (Nat.le_antisymm (hnewest _ hid) hge)
        exact hbuilt _ hfind

theorem lt_size_of_standsFor (h : graph.StandsFor path id) : id.index < graph.size := by
  obtain ⟨node, -, hnode, -⟩ := h
  exact lt_size_of_node? hnode

theorem step?_of_node? {node : Node} (h : graph.node? id = some node) :
    graph.step? id = node.step? := by
  rw [step?, h]
  rfl

theorem Moves.isBuilt (h : Moves graph graph') (hbuilt : graph.isBuilt id = true) :
    graph'.isBuilt id = true := by
  obtain ⟨step, hstep⟩ := Option.isSome_iff_exists.mp hbuilt
  obtain ⟨node, hnode, hstep⟩ := Option.bind_eq_some_iff.mp hstep
  obtain ⟨node', hnode', hkept⟩ := h.kept hnode
  obtain ⟨command, hstep'⟩ := hkept.step step hstep
  rw [NodeGraph.isBuilt, step?_of_node? hnode', hstep']
  rfl

/-! ### One operation -/

theorem standsFor_addFile (graph : NodeGraph) (path path' : Path) (id : NodeId) :
    (graph.addFile path).2.StandsFor path' id ↔
      graph.StandsFor path' id ∨ id = ⟨graph.size⟩ ∧ path'.same path = true := by
  unfold StandsFor
  rw [node?_addFile]
  split
  · next heq =>
      -- the id was free
      subst heq
      have hfree : graph.node? ⟨graph.size⟩ = none := by simp [node?, size]
      simp [hfree, Node.path?]
  · next hne => simp [hne]

theorem Coherent.addFile (h : Coherent graph)
    (hbuilt : ∀ top, graph.find path = some top → graph.isBuilt top = true) :
    Coherent (graph.addFile path).2 := by
  have hmoves : Moves graph (graph.addFile path).2 := .file path hbuilt
  refine ⟨fun path' id => ?_, fun path' => ?_, fun path' id other hid hother hlt => ?_,
    fun name id => ?_, fun id node hnode => ?_⟩
  · -- the new node is the newest for its path, and no other path is concerned
    rw [find_addFile, Newest]
    simp only [standsFor_addFile]
    cases hsame : path'.same path with
    | true =>
        simp only [if_true, and_true, Option.some.injEq]
        constructor
        · rintro rfl
          refine ⟨.inr rfl, fun other hother => ?_⟩
          rcases hother with hother | rfl
          · exact Nat.le_of_lt (lt_size_of_standsFor hother)
          · exact Nat.le_refl _
        · rintro ⟨hid | hid, hnewest⟩
          · have hge := hnewest ⟨graph.size⟩ (.inr rfl)
            exact absurd (lt_size_of_standsFor hid) (Nat.not_lt.mpr hge)
          · exact hid.symm
    | false =>
        simp only [Bool.false_eq_true, if_false, and_false, or_false]
        exact h.find_iff path' id
  · rw [find_addFile]
    simp only [standsFor_addFile]
    cases hsame : path'.same path with
    | true =>
        simp only [if_true, and_true, reduceCtorEq, false_iff]
        intro hnone
        exact hnone ⟨graph.size⟩ (.inr rfl)
    | false =>
        simp only [Bool.false_eq_true, if_false, and_false, or_false]
        exact h.find_none_iff path'
  · rw [standsFor_addFile] at hid hother
    rcases hother with hother | ⟨rfl, -⟩
    · rcases hid with hid | ⟨-, hsame⟩
      · exact hmoves.isBuilt (h.earlier_built path' id other hid hother hlt)
      · -- all that stood for the path before is built
        rw [← find_congr hsame] at hbuilt
        exact hmoves.isBuilt (h.built_of_newest hbuilt hother)
    · rcases hid with hid | ⟨rfl, -⟩
      · exact absurd hlt (Nat.lt_asymm (lt_size_of_standsFor hid))
      · exact absurd hlt (Nat.lt_irrefl _)
  · rw [kind?_addFile]
    split
    · next heq =>
        subst heq
        have hnone : graph.kind? ⟨graph.size⟩ = none := kind?_eq_none_iff.mpr (Nat.le_refl _)
        have hnot := h.group_iff name ⟨graph.size⟩
        rw [hnone] at hnot
        exact hnot.trans (by simp)
    · exact h.group_iff name id
  · rw [node?_addFile] at hnode
    split at hnode
    · cases hnode
      exact ⟨List.nodup_nil, List.nodup_nil⟩
    · exact h.nodup_deps id node hnode

theorem Coherent.group (h : Coherent graph) (hnew : graph.byGroup.lookup name = none) :
    Coherent (graph.group name).2 := by
  have hmoves : Moves graph (graph.group name).2 := .group name hnew
  have hfind : ∀ path, (graph.group name).2.find path = graph.find path := by
    intro path
    simp only [NodeGraph.group, hnew]
    rfl
  have hstands : ∀ path id,
      (graph.group name).2.StandsFor path id ↔ graph.StandsFor path id := by
    intro path id
    unfold StandsFor
    rw [node?_group hnew]
    split
    · next heq =>
        subst heq
        have hfree : graph.node? ⟨graph.size⟩ = none := by simp [node?, size]
        simp [hfree, Node.path?]
    · rfl
  refine ⟨fun path id => ?_, fun path => ?_, fun path id other hid hother hlt => ?_,
    fun name' id => ?_, fun id node hnode => ?_⟩
  · simp only [hfind, Newest, hstands]
    exact h.find_iff path id
  · simp only [hfind, hstands]
    exact h.find_none_iff path
  · rw [hstands] at hid hother
    exact hmoves.isBuilt (h.earlier_built path id other hid hother hlt)
  · have hput : (graph.group name).2.byGroup = Assoc.put name ⟨graph.size⟩ graph.byGroup := by
      simp only [NodeGraph.group, hnew]
    have hkind : (graph.group name).2.kind? id =
        if id = ⟨graph.size⟩ then some (.group name) else graph.kind? id := by
      rw [kind?, node?_group hnew]
      split <;> rfl
    rw [hput, hkind]
    by_cases hname : name' = name
    · subst hname
      rw [Assoc.lookup_put_self, Option.some.injEq]
      split
      · next heq => simp [heq]
      · next hne =>
          -- no other node has the name, as none was known
          have hnot := h.group_iff name' id
          rw [hnew] at hnot
          simp only [reduceCtorEq, false_iff] at hnot
          simp [hnot, Ne.symm hne]
    · rw [Assoc.lookup_put_ne hname]
      split
      · next heq =>
          subst heq
          have hnone : graph.kind? ⟨graph.size⟩ = none := kind?_eq_none_iff.mpr (Nat.le_refl _)
          have hnot := h.group_iff name' ⟨graph.size⟩
          rw [hnone] at hnot
          exact hnot.trans (by simp [Ne.symm hname])
      · exact h.group_iff name' id
  · rw [node?_group hnew] at hnode
    split at hnode
    · cases hnode
      exact ⟨List.nodup_nil, List.nodup_nil⟩
    · exact h.nodup_deps id node hnode

theorem kind_eq_group_iff {node : Node} :
    node.kind = .group name ↔ node.path? = none ∧ node.name = name := by
  cases hkind : node.kind <;> simp [Node.path?, Node.name, hkind]

/-- A change adds no node and takes none away. -/
theorem node?_change {change : Node → Node}
    (hkept : ∀ node, graph.node? id = some node → node.KeptAs (change node)) (other : NodeId) :
    graph.node? other = none ∧ (graph.modify id change).node? other = none ∨
      ∃ node node', graph.node? other = some node ∧
        (graph.modify id change).node? other = some node' ∧ node.KeptAs node' := by
  cases hother : graph.node? other with
  | some node =>
      obtain ⟨node', hnode', hkept'⟩ := (Moves.change id change hkept).kept hother
      exact .inr ⟨node, node', rfl, hnode', hkept'⟩
  | none =>
      refine .inl ⟨rfl, ?_⟩
      rw [node?_modify]
      split
      · next heq => rw [← heq, hother]; rfl
      · exact hother

/-- A change that keeps what a node stands for is not seen by the index. -/
theorem Coherent.change (h : Coherent graph) {change : Node → Node}
    (hkept : ∀ node, graph.node? id = some node → node.KeptAs (change node)) :
    Coherent (graph.modify id change) := by
  have hmoves : Moves graph (graph.modify id change) := .change id change hkept
  have hstands : ∀ path other,
      (graph.modify id change).StandsFor path other ↔ graph.StandsFor path other := by
    intro path other
    unfold StandsFor
    rcases node?_change hkept other with ⟨hnone, hnone'⟩ | ⟨node, node', hnode, hnode', hkept'⟩
    · rw [hnone, hnone']
    · simp [hnode, hnode', hkept'.path]
  have hgroup : ∀ name other, (graph.modify id change).kind? other = some (.group name) ↔
      graph.kind? other = some (.group name) := by
    intro name other
    unfold kind?
    rcases node?_change hkept other with ⟨hnone, hnone'⟩ | ⟨node, node', hnode, hnode', hkept'⟩
    · rw [hnone, hnone']
    · simp [hnode, hnode', kind_eq_group_iff, hkept'.path, hkept'.name]
  refine ⟨fun path other => ?_, fun path => ?_, fun path newer older hnewer holder hlt => ?_,
    fun name other => ?_, fun other after hafter => ?_⟩
  · simp only [find_modify, Newest, hstands]
    exact h.find_iff path other
  · simp only [find_modify, hstands]
    exact h.find_none_iff path
  · rw [hstands] at hnewer holder
    exact hmoves.isBuilt (h.earlier_built path newer older hnewer holder hlt)
  · rw [hgroup]
    exact h.group_iff name other
  · rcases node?_change hkept other with ⟨-, hnone'⟩ | ⟨node, node', hnode, hnode', hkept'⟩
    · rw [hnone'] at hafter
      cases hafter
    · rw [hnode'] at hafter
      cases hafter
      obtain ⟨hexplicit, himplicit⟩ := h.nodup_deps other node hnode
      exact ⟨hkept'.explicitDeps hexplicit, hkept'.implicitDeps himplicit⟩

theorem Coherent.step (h : Coherent graph) (hmoves : Moves graph graph') : Coherent graph' := by
  cases hmoves with
  | idle => exact h
  | file path hbuilt => exact h.addFile hbuilt
  | group name hnew => exact h.group hnew
  | change id change hkept => exact h.change hkept

/-! ### Any number of operations -/

theorem Coherent.operations (h : Coherent graph) (ops : List Operation) :
    Coherent (ops.foldl Operation.apply graph) := by
  induction ops generalizing graph with
  | nil => exact h
  | cons op rest ih => exact ih (h.step (op.moves graph))

/-- Whatever operations make a graph, the index leads to the newest node of each path and
to nothing for other paths, the older nodes of a path are built, so that one node of it at most
is not, a group's name leads to its only node, and no dependency is listed twice. A further
operation keeps the name of every node and, apart from the command, the step that makes it. -/
theorem coherent_ofOperations (ops : List Operation) :
    Coherent (ofOperations ops) ∧
      (∀ path id other, (ofOperations ops).StandsFor path id →
        (ofOperations ops).StandsFor path other → (ofOperations ops).isBuilt id = false →
        (ofOperations ops).isBuilt other = false → id = other) ∧
      ∀ (op : Operation) (id : NodeId) (node : Node), (ofOperations ops).node? id = some node →
        ∃ node', (op.apply (ofOperations ops)).node? id = some node' ∧ node'.name = node.name ∧
          ∀ step, node.step? = some step →
            ∃ command, node'.step? = some { step with command } := by
  have hcoherent : Coherent (ofOperations ops) := coherent_empty.operations ops
  refine ⟨hcoherent, fun path id other => hcoherent.unbuilt_unique, fun op id node hnode => ?_⟩
  obtain ⟨node', hnode', hkept⟩ := (op.moves _).kept hnode
  exact ⟨node', hnode', hkept.name, hkept.step⟩

/-- A product takes over a node that is not built, and adds one when it is. -/
example (step : BuildStep) : (ofOperations [.file ⟨"gen.c"⟩, .product ⟨"gen.c"⟩,
    .setStep ⟨0⟩ step, .product ⟨"gen.c"⟩]).find ⟨"gen.c"⟩ = some ⟨1⟩ := rfl

end NodeGraph

end BuildPlan
