import BuildPlan.NodeGraph

/-!
# BuildPlan.Proofs.NodeGraph

What the operations on a graph do to what its nodes stand for: the path of a
file, the step that makes it, and the name of a group. Dependencies between
nodes are left out of this view.

The index of a graph is sound: it leads to files with the path that is looked
up, and to a file that a step makes if there is one.
-/

namespace BuildPlan

namespace Node

theorem kind_depends (explicit implicit : List NodeId) (node : Node) :
    ((node.depends explicit).dependsImplicitly implicit).kind = node.kind := rfl

theorem kind_foldl_depends (deps : List (List NodeId)) (node : Node) :
    (deps.foldl Node.depends node).kind = node.kind := by
  induction deps generalizing node with
  | nil => rfl
  | cons _ rest ih => exact ih _

theorem mem_addNew {ids extra : List NodeId} {node : NodeId} :
    node ∈ addNew ids extra ↔ node ∈ ids ∨ node ∈ extra := by
  unfold addNew Flag.appendNew
  induction extra generalizing ids with
  | nil => simp
  | cons first rest ih =>
      rw [List.foldl_cons, ih]
      split
      · next hknown =>
          have hmem : first ∈ ids := by simpa using hknown
          rw [List.mem_cons, or_left_comm, @or_iff_right_of_imp (node = first)]
          rintro rfl
          exact .inl hmem
      · rw [List.mem_append, List.mem_singleton, List.mem_cons, or_assoc]

end Node

namespace NodeGraph

variable {graph graph' : NodeGraph} {id other : NodeId} {path path' : Path} {step : BuildStep}

/-- What a node stands for. -/
def kind? (graph : NodeGraph) (id : NodeId) : Option NodeKind := (graph.node? id).map Node.kind

theorem kind?_eq_none_iff : graph.kind? id = none ↔ graph.size ≤ id.index := by
  simp [kind?, node?, size]

theorem lt_size_of_kind? {kind : NodeKind} (h : graph.kind? id = some kind) :
    id.index < graph.size := by
  refine Nat.lt_of_not_le fun hge => ?_
  rw [kind?_eq_none_iff.mpr hge] at h
  cases h

theorem step?_eq_some_iff :
    graph.step? id = some step ↔ ∃ path, graph.kind? id = some (.file path (some step)) := by
  unfold step? kind?
  cases hnode : graph.node? id with
  | none => simp
  | some node =>
      cases hkind : node.kind <;> simp [Node.step?, hkind]

theorem isBuilt_iff :
    graph.isBuilt id = true ↔ ∃ path step, graph.kind? id = some (.file path (some step)) := by
  rw [isBuilt, Option.isSome_iff_exists, exists_comm]
  exact exists_congr fun _ => step?_eq_some_iff

theorem isBuilt_eq_false_iff :
    graph.isBuilt id = false ↔ ∀ path step, graph.kind? id ≠ some (.file path (some step)) := by
  rw [Bool.eq_false_iff, Ne, isBuilt_iff]
  simp

/-- The name of a node is part of what it stands for. -/
theorem name_congr (h : graph'.kind? id = graph.kind? other) :
    graph'.name id = graph.name other := by
  unfold kind? at h
  unfold name
  cases hnode : graph.node? other with
  | none =>
      rw [hnode, Option.map_none, Option.map_eq_none_iff] at h
      rw [h]
  | some node =>
      rw [hnode, Option.map_some, Option.map_eq_some_iff] at h
      obtain ⟨node', hnode', hkind⟩ := h
      simp [hnode', Node.name, hkind]

/-- So is the step that makes a node part of what it stands for. -/
theorem step?_congr (h : graph'.kind? id = graph.kind? other) :
    graph'.step? id = graph.step? other := by
  refine Option.ext fun step => ?_
  rw [step?_eq_some_iff, step?_eq_some_iff, h]

/-- The path of a node that a step makes, and the step apart from its command. -/
def made? (graph : NodeGraph) (id : NodeId) : Option (Path × BuildStep) :=
  match graph.kind? id with
  | some (.file path (some step)) => some (path, { step with command := none })
  | _ => none

theorem made?_eq_some_iff {entry : Path × BuildStep} :
    graph.made? id = some entry ↔ ∃ path step, graph.kind? id = some (.file path (some step)) ∧
      entry = (path, { step with command := none }) := by
  unfold made?
  split
  · next path step hkind =>
      rw [hkind, Option.some.injEq, eq_comm]
      constructor
      · rintro rfl
        exact ⟨path, step, rfl, rfl⟩
      · rintro ⟨path', step', hkind', rfl⟩
        cases hkind'
        rfl
  · next hnot =>
      constructor
      · intro h
        cases h
      · rintro ⟨path, step, hkind, -⟩
        exact absurd hkind (hnot path step)

theorem made?_congr (h : graph'.kind? id = graph.kind? other) :
    graph'.made? id = graph.made? other := by
  rw [made?, made?, h]

theorem made?_eq_none_iff : graph.made? id = none ↔ graph.step? id = none := by
  rw [Option.eq_none_iff_forall_ne_some, Option.eq_none_iff_forall_ne_some]
  constructor
  · intro h step hstep
    obtain ⟨path, hkind⟩ := step?_eq_some_iff.mp hstep
    exact h _ (made?_eq_some_iff.mpr ⟨path, step, hkind, rfl⟩)
  · intro h entry hentry
    obtain ⟨path, step, hkind, -⟩ := made?_eq_some_iff.mp hentry
    exact h step (step?_eq_some_iff.mpr ⟨path, hkind⟩)

theorem name_file {made : Option BuildStep} (h : graph.kind? id = some (.file path made)) :
    graph.name id = path.spelling := by
  obtain ⟨node, hnode, hkind⟩ := Option.map_eq_some_iff.mp h
  simp [name, hnode, Node.name, hkind]

/-! ### Single operations -/

theorem node?_modify (graph : NodeGraph) (id other : NodeId) (change : Node → Node) :
    (graph.modify id change).node? other =
      if other = id then (graph.node? id).map change else graph.node? other := by
  obtain ⟨i⟩ := id
  obtain ⟨j⟩ := other
  simp only [modify, node?, Array.getElem?_modify, NodeId.mk.injEq, @eq_comm _ j i]
  split
  · next h => subst h; rfl
  · rfl

@[simp] theorem size_modify (graph : NodeGraph) (id : NodeId) (change : Node → Node) :
    (graph.modify id change).size = graph.size := by
  simp [modify, size]

@[simp] theorem find_modify (graph : NodeGraph) (id : NodeId) (change : Node → Node) (path : Path) :
    (graph.modify id change).find path = graph.find path := rfl

theorem kind?_modify (graph : NodeGraph) (id other : NodeId) {change : Node → Node}
    (h : ∀ node, (change node).kind = node.kind) :
    (graph.modify id change).kind? other = graph.kind? other := by
  unfold kind?
  rw [node?_modify]
  split
  · next heq =>
      subst heq
      cases graph.node? other <;> simp [h]
  · rfl

theorem kind?_addFile (graph : NodeGraph) (path : Path) (id : NodeId) :
    (graph.addFile path).2.kind? id =
      if id = ⟨graph.size⟩ then some (.file path none) else graph.kind? id := by
  obtain ⟨i⟩ := id
  simp only [addFile, kind?, node?, size, Array.getElem?_push, NodeId.mk.injEq]
  split <;> simp

theorem kind?_addFile_of_some {kind : NodeKind} (h : graph.kind? id = some kind) (path : Path) :
    (graph.addFile path).2.kind? id = some kind := by
  rw [kind?_addFile, if_neg, h]
  rintro rfl
  exact Nat.lt_irrefl _ (lt_size_of_kind? h)

@[simp] theorem size_addFile (graph : NodeGraph) (path : Path) :
    (graph.addFile path).2.size = graph.size + 1 := by
  simp [addFile, size]

theorem find_congr (h : path.same path' = true) : graph.find path = graph.find path' := by
  rw [Path.same_iff] at h
  simp only [find, Path.same, h]

theorem find_addFile (graph : NodeGraph) (path path' : Path) :
    (graph.addFile path).2.find path' =
      if path'.same path then some ⟨graph.size⟩ else graph.find path' := by
  simp only [addFile, find, List.find?_cons]
  split <;> simp_all

/-- A step is attached to a file that has none. -/
theorem setStep_inv (h : graph.setStep id step = .ok graph')
    (hid : graph.kind? id = some (.file path none)) :
    (∀ other, graph'.kind? other =
      if other = id then some (.file path (some step)) else graph.kind? other) ∧
    graph'.byPath = graph.byPath ∧ graph'.size = graph.size := by
  obtain ⟨node, hnode, hkind⟩ := Option.map_eq_some_iff.mp hid
  simp only [setStep, hnode, Node.setStep, hkind, bind, Except.bind, pure, Except.pure,
    Except.ok.injEq] at h
  subst h
  refine ⟨fun other => ?_, rfl, size_modify _ _ _⟩
  unfold kind?
  rw [node?_modify, hnode]
  split <;> rfl

theorem kind?_setCommand (hid : graph.kind? id = some (.file path (some step)))
    (command : List Token) (other : NodeId) :
    (graph.setCommand id command).kind? other =
      if other = id then some (.file path (some { step with command := some command }))
      else graph.kind? other := by
  obtain ⟨node, hnode, hkind⟩ := Option.map_eq_some_iff.mp hid
  unfold kind? setCommand
  rw [node?_modify, hnode]
  split
  · simp [Node.setCommand, hkind]
  · rfl

theorem kind?_group (graph : NodeGraph) (name : String) (id : NodeId) :
    (graph.group name).2.kind? id = graph.kind? id ∨
      (id.index = graph.size ∧ (graph.group name).2.kind? id = some (.group name)) := by
  obtain ⟨i⟩ := id
  unfold group
  split
  · exact .inl rfl
  · simp only [kind?, node?, size, Array.getElem?_push]
    by_cases hi : i = graph.nodes.size <;> simp [hi]

/-- A group takes no file's place. -/
theorem kind?_group_eq_file_iff {name : String} {made : Option BuildStep} :
    (graph.group name).2.kind? id = some (.file path made) ↔
      graph.kind? id = some (.file path made) := by
  rcases kind?_group graph name id with hsame | ⟨hindex, hgroup⟩
  · rw [hsame]
  · rw [hgroup, kind?_eq_none_iff.mpr (Nat.le_of_eq hindex.symm)]
    simp

/-! ### A sound index -/

/-- The index leads to files with the path that is looked up, and to one that a
step makes if there is one. -/
structure Indexed (graph : NodeGraph) : Prop where
  known : ∀ entry ∈ graph.byPath, ∃ step, graph.kind? entry.2 = some (.file entry.1 step)
  found : ∀ id path step, graph.kind? id = some (.file path (some step)) →
    ∃ top, graph.find path = some top ∧ graph.isBuilt top = true

theorem indexed_empty : Indexed {} where
  known := by simp
  found id path step h := by simp [kind?, node?] at h

theorem Indexed.kind_of_find (h : Indexed graph) (hfind : graph.find path = some id) :
    ∃ known step, path.same known = true ∧ graph.kind? id = some (.file known step) := by
  obtain ⟨⟨known, id⟩, hentry, rfl⟩ := Option.map_eq_some_iff.mp hfind
  have hsame : path.same known = true := by simpa using List.find?_some hentry
  obtain ⟨step, hkind⟩ := h.known _ (List.mem_of_find?_eq_some hentry)
  exact ⟨known, step, hsame, hkind⟩

/-- No step makes a path that the index leads to no built node for. -/
theorem Indexed.not_same (h : Indexed graph)
    (hnew : ∀ top, graph.find path = some top → graph.isBuilt top = false)
    (hid : graph.kind? id = some (.file path' (some step))) : path.same path' = false := by
  refine Bool.eq_false_iff.mpr fun hsame => ?_
  obtain ⟨top, hfind, hbuilt⟩ := h.found id path' step hid
  rw [← find_congr hsame] at hfind
  rw [hnew top hfind] at hbuilt
  cases hbuilt

/-- The index stays sound as long as it, and what is built, stay the same. -/
theorem Indexed.of_iff (h : Indexed graph) (hpath : graph'.byPath = graph.byPath)
    (hfile : ∀ id path step, graph.kind? id = some (.file path step) →
      ∃ step, graph'.kind? id = some (.file path step))
    (hbuilt : ∀ id path, (∃ step, graph'.kind? id = some (.file path (some step))) ↔
      ∃ step, graph.kind? id = some (.file path (some step))) : Indexed graph' := by
  refine ⟨fun entry hentry => ?_, fun id path step hid => ?_⟩
  · obtain ⟨step, hkind⟩ := h.known entry (hpath ▸ hentry)
    exact hfile _ _ _ hkind
  · obtain ⟨step, hid⟩ := (hbuilt id path).mp ⟨step, hid⟩
    obtain ⟨top, htop, hisBuilt⟩ := h.found id path step hid
    refine ⟨top, ?_, ?_⟩
    · rw [find, hpath]
      exact htop
    · rw [isBuilt_iff] at hisBuilt ⊢
      obtain ⟨path, hstep⟩ := hisBuilt
      exact ⟨path, (hbuilt top path).mpr hstep⟩

theorem Indexed.modify (h : Indexed graph) (id : NodeId) {change : Node → Node}
    (hchange : ∀ node, (change node).kind = node.kind) : Indexed (graph.modify id change) := by
  have hkind := fun other => kind?_modify graph id other hchange
  refine h.of_iff rfl (fun other path step hother => ⟨step, ?_⟩) fun other path => ?_
  · rwa [hkind]
  · rw [hkind]

theorem Indexed.setCommand (h : Indexed graph) {command : List Token}
    (hid : graph.kind? id = some (.file path (some step))) :
    Indexed (graph.setCommand id command) := by
  refine h.of_iff rfl (fun other path' step' hother => ?_) fun other path' => ?_
  · rw [kind?_setCommand hid]
    split
    · next heq =>
        subst heq
        rw [hid] at hother
        cases hother
        exact ⟨_, rfl⟩
    · exact ⟨step', hother⟩
  · rw [kind?_setCommand hid]
    split
    · next heq =>
        subst heq
        simp [hid]
    · rfl

theorem Indexed.group (h : Indexed graph) (name : String) : Indexed (graph.group name).2 := by
  have hpath : (graph.group name).2.byPath = graph.byPath := by
    unfold NodeGraph.group
    split <;> rfl
  refine h.of_iff hpath (fun id path step hid => ⟨step, ?_⟩) fun id path => ?_
  · exact kind?_group_eq_file_iff.mpr hid
  · exact exists_congr fun step => kind?_group_eq_file_iff

theorem known_addFile (h : Indexed graph) (path : Path) :
    ∀ entry ∈ (graph.addFile path).2.byPath, ∃ step,
      (graph.addFile path).2.kind? entry.2 = some (.file entry.1 step) := by
  intro entry hentry
  rcases List.mem_cons.mp hentry with rfl | hentry
  · exact ⟨none, (kind?_addFile graph path _).trans (if_pos rfl)⟩
  · obtain ⟨step, hkind⟩ := h.known entry hentry
    exact ⟨step, kind?_addFile_of_some hkind path⟩

theorem found_addFile (h : Indexed graph) (path : Path) :
    ∀ id path' step, (graph.addFile path).2.kind? id = some (.file path' (some step)) →
      path.same path' = true ∨ ∃ top, (graph.addFile path).2.find path' = some top ∧
        (graph.addFile path).2.isBuilt top = true := by
  intro id path' step hid
  rw [kind?_addFile] at hid
  split at hid
  · cases hid
  obtain ⟨top, htop, hbuilt⟩ := h.found id path' step hid
  by_cases hsame : path.same path' = true
  · exact .inl hsame
  · refine .inr ⟨top, ?_, ?_⟩
    · rw [find_addFile, Path.same_comm, if_neg hsame, htop]
    · rw [isBuilt_iff] at hbuilt ⊢
      obtain ⟨known, step, hkind⟩ := hbuilt
      exact ⟨known, step, kind?_addFile_of_some hkind path⟩

theorem Indexed.file (h : Indexed graph) (path : Path) : Indexed (graph.file path).2 := by
  unfold NodeGraph.file
  split
  · exact h
  next hfind =>
  refine ⟨known_addFile h path, fun id path' step hid => ?_⟩
  -- a built file with the path would have been found, so the new node hides none
  refine (found_addFile h path id path' step hid).resolve_left fun hsame => ?_
  rw [kind?_addFile] at hid
  split at hid
  · cases hid
  obtain ⟨top, htop, -⟩ := h.found id path' step hid
  rw [← find_congr hsame, hfind] at htop
  cases htop

/-- The node for a path is a node, and no node goes. -/
theorem Indexed.size_file (h : Indexed graph) (path : Path) :
    graph.size ≤ (graph.file path).2.size ∧
      (graph.file path).1.index < (graph.file path).2.size := by
  unfold NodeGraph.file
  split
  · next hfind =>
      obtain ⟨_, _, -, hkind⟩ := h.kind_of_find hfind
      exact ⟨Nat.le_refl _, lt_size_of_kind? hkind⟩
  · rw [size_addFile]
    exact ⟨Nat.le_succ _, Nat.lt_succ_self _⟩

theorem kind?_file_of_some {kind : NodeKind} (h : graph.kind? id = some kind) (path : Path) :
    (graph.file path).2.kind? id = some kind := by
  unfold file
  split
  · exact h
  · exact kind?_addFile_of_some h path

/-- A node made for a path is not built. -/
theorem built_of_file (h : (graph.file path).2.kind? id = some (.file path' (some step))) :
    graph.kind? id = some (.file path' (some step)) := by
  unfold file at h
  split at h
  · exact h
  · rw [kind?_addFile] at h
    split at h
    · cases h
    · exact h

theorem size_le_group (graph : NodeGraph) (name : String) :
    graph.size ≤ (graph.group name).2.size := by
  unfold group
  split
  · exact Nat.le_refl _
  · simp [size]

/-! ### Operations that make nothing -/

/-- No step is attached to a node, and the nodes keep their names. -/
structure Keeps (graph graph' : NodeGraph) : Prop where
  made : ∀ id, graph'.made? id = graph.made? id
  names : ∀ id, id.index < graph.size → graph'.name id = graph.name id
  size : graph.size ≤ graph'.size

theorem Keeps.refl (graph : NodeGraph) : Keeps graph graph :=
  ⟨fun _ => rfl, fun _ _ => rfl, Nat.le_refl _⟩

theorem Keeps.trans {graph'' : NodeGraph} (h : Keeps graph graph') (h' : Keeps graph' graph'') :
    Keeps graph graph'' :=
  ⟨fun id => (h'.made id).trans (h.made id),
    fun id hlt => (h'.names id (Nat.lt_of_lt_of_le hlt h.size)).trans (h.names id hlt),
    Nat.le_trans h.size h'.size⟩

/-- Nodes that stand for something still stand for it, and new nodes are not made. -/
theorem keeps_of_kind? (hsize : graph.size ≤ graph'.size)
    (hold : ∀ id, id.index < graph.size → graph'.kind? id = graph.kind? id)
    (hnew : ∀ id, graph.size ≤ id.index → graph'.step? id = none) : Keeps graph graph' := by
  refine ⟨fun id => ?_, fun id hlt => name_congr (hold id hlt), hsize⟩
  rcases Nat.lt_or_ge id.index graph.size with hlt | hge
  · exact made?_congr (hold id hlt)
  · have hnone : graph.made? id = none := by rw [made?, kind?_eq_none_iff.mpr hge]
    rw [hnone, made?_eq_none_iff, hnew id hge]

theorem keeps_modify (graph : NodeGraph) (id : NodeId) {change : Node → Node}
    (hchange : ∀ node, (change node).kind = node.kind) : Keeps graph (graph.modify id change) :=
  ⟨fun other => made?_congr (kind?_modify graph id other hchange),
    fun other _ => name_congr (kind?_modify graph id other hchange),
    Nat.le_of_eq (size_modify _ _ _).symm⟩

theorem keeps_file (graph : NodeGraph) (path : Path) : Keeps graph (graph.file path).2 := by
  unfold file
  split
  · exact .refl graph
  · refine keeps_of_kind? (by simp) (fun id hlt => ?_) fun id hge => ?_
    · rw [kind?_addFile, if_neg]
      rintro rfl
      exact Nat.lt_irrefl _ hlt
    · refine Option.eq_none_iff_forall_ne_some.mpr fun step hstep => ?_
      obtain ⟨known, hkind⟩ := step?_eq_some_iff.mp hstep
      rw [kind?_addFile] at hkind
      split at hkind
      · cases hkind
      · exact absurd (lt_size_of_kind? hkind) (Nat.not_lt.mpr hge)

theorem keeps_group (graph : NodeGraph) (name : String) : Keeps graph (graph.group name).2 := by
  refine keeps_of_kind? (size_le_group graph name) (fun id hlt => ?_) fun id hge => ?_
  · exact (kind?_group graph name id).resolve_right fun hnew => absurd hnew.1 (Nat.ne_of_lt hlt)
  · refine Option.eq_none_iff_forall_ne_some.mpr fun step hstep => ?_
    obtain ⟨known, hkind⟩ := step?_eq_some_iff.mp hstep
    rw [kind?_group_eq_file_iff] at hkind
    exact absurd (lt_size_of_kind? hkind) (Nat.not_lt.mpr hge)

theorem keeps_setCommand {command : List Token}
    (hid : graph.kind? id = some (.file path (some step))) :
    Keeps graph (graph.setCommand id command) := by
  have hkinds := kind?_setCommand hid command
  refine ⟨fun other => ?_, fun other _ => ?_, Nat.le_of_eq (size_modify _ _ _).symm⟩
  · by_cases heq : other = id
    · rw [made?, hkinds, if_pos heq, heq, made?, hid]
    · exact made?_congr ((hkinds other).trans (if_neg heq))
  · by_cases heq : other = id
    · rw [heq, name_file ((hkinds id).trans (if_pos rfl)), name_file hid]
    · exact name_congr ((hkinds other).trans (if_neg heq))

/-! ### Products -/

/-- A product at `path` is made by `step`: its node is found or made, takes on some
dependencies, and is given the step. -/
def Produces (graph : NodeGraph) (path : Path) (step : BuildStep) (id : NodeId)
    (graph' : NodeGraph) : Prop :=
  id = (graph.addProduct path).1 ∧ ∃ change : Node → Node,
    (∀ node, (change node).kind = node.kind) ∧
      ((graph.addProduct path).2.modify id change).setStep id step = .ok graph'

theorem addProduct_cases (graph : NodeGraph) (path : Path) :
    (∃ id, graph.find path = some id ∧ graph.isBuilt id = false ∧
        graph.addProduct path = (id, graph)) ∨
      graph.addProduct path = graph.addFile path := by
  unfold addProduct
  cases hfind : graph.find path with
  | none => exact .inr rfl
  | some id =>
      dsimp only
      split
      · exact .inr rfl
      · next hbuilt => exact .inl ⟨id, rfl, by simpa using hbuilt, rfl⟩

/-- What becomes of the graph when a product is made. A node that was there
before is used only if no step makes the path. -/
structure Product (graph : NodeGraph) (path : Path) (step : BuildStep) (id : NodeId)
    (graph' : NodeGraph) : Prop where
  made : ∃ known, path.same known = true ∧ graph'.kind? id = some (.file known (some step))
  others : ∀ other, other ≠ id → graph'.kind? other = graph.kind? other
  names : ∀ other, other.index < graph.size → graph'.name other = graph.name other
  fresh : graph.step? id = none
  reused : id.index < graph.size → graph'.size = graph.size ∧
    ∀ other known step, graph.kind? other = some (.file known (some step)) →
      path.same known = false
  new : graph.size ≤ id.index → graph'.size = graph.size + 1

/-- A step attached to the file that the index leads to for its path. A built file
with that path may be left behind, as the index now leads to another one. -/
theorem attach {known : Path} {change : Node → Node}
    (hset : (graph.modify id change).setStep id step = .ok graph')
    (hchange : ∀ node, (change node).kind = node.kind)
    (hid : graph.kind? id = some (.file known none)) (hsame : path.same known = true)
    (hfind : graph.find path = some id)
    (hknown : ∀ entry ∈ graph.byPath, ∃ step, graph.kind? entry.2 = some (.file entry.1 step))
    (hfound : ∀ other path' step', graph.kind? other = some (.file path' (some step')) →
      path.same path' = true ∨ ∃ top, graph.find path' = some top ∧ graph.isBuilt top = true) :
    graph'.kind? id = some (.file known (some step)) ∧
      (∀ other, other ≠ id → graph'.kind? other = graph.kind? other) ∧
      graph'.size = graph.size ∧ Indexed graph' := by
  have hmid : (graph.modify id change).kind? id = some (.file known none) := by
    rw [kind?_modify _ _ _ hchange, hid]
  obtain ⟨hkinds, hpath, hsize⟩ := setStep_inv hset hmid
  simp only [kind?_modify _ _ _ hchange] at hkinds
  have hmade : graph'.kind? id = some (.file known (some step)) := by rw [hkinds, if_pos rfl]
  have hothers : ∀ other, other ≠ id → graph'.kind? other = graph.kind? other :=
    fun other hne => by rw [hkinds, if_neg hne]
  have hfind' : ∀ path', graph'.find path' = graph.find path' := fun path' => by
    rw [find, hpath]
    rfl
  have hbuilt : graph'.isBuilt id = true := isBuilt_iff.mpr ⟨known, step, hmade⟩
  refine ⟨hmade, hothers, by rw [hsize, size_modify], ⟨fun entry hentry => ?_, ?_⟩⟩
  · obtain ⟨step', hkind⟩ := hknown entry (hpath ▸ hentry)
    by_cases heq : entry.2 = id
    · rw [heq, hid] at hkind
      cases hkind
      exact ⟨some step, heq ▸ hmade⟩
    · exact ⟨step', (hothers _ heq).trans hkind⟩
  · -- the index leads to the node just built for its path, and as before for other paths
    intro other path' step' hother
    rw [hfind']
    by_cases heq : other = id
    · rw [heq, hmade] at hother
      cases hother
      exact ⟨id, (find_congr hsame).symm.trans hfind, hbuilt⟩
    · rw [hothers other heq] at hother
      rcases hfound other path' step' hother with hsame' | ⟨top, htop, htopBuilt⟩
      · exact ⟨id, (find_congr hsame').symm.trans hfind, hbuilt⟩
      · -- a node that was built is not the one that had no step
        refine ⟨top, htop, ?_⟩
        obtain ⟨q, s, htopKind⟩ := isBuilt_iff.mp htopBuilt
        refine isBuilt_iff.mpr ⟨q, s, (hothers top fun htopId => ?_).trans htopKind⟩
        rw [htopId, hid] at htopKind
        cases htopKind

theorem Produces.product (hp : Produces graph path step id graph') (h : Indexed graph) :
    Product graph path step id graph' ∧ Indexed graph' := by
  obtain ⟨hid, change, hchange, hset⟩ := hp
  rcases addProduct_cases graph path with ⟨top, hfind, hbuilt, hadd⟩ | hadd
  · -- the path has a node that no step makes, so no other node with the path is built
    rw [hadd] at hid hset
    subst hid
    obtain ⟨known, step', hsame, hkind⟩ := h.kind_of_find hfind
    have hfresh : graph.step? id = none := by simpa [isBuilt] using hbuilt
    obtain rfl : step' = none := by
      cases step' with
      | none => rfl
      | some step' =>
          rw [step?_eq_some_iff.mpr ⟨known, hkind⟩] at hfresh
          cases hfresh
    obtain ⟨hmade, hothers, hsize, hindexed⟩ :=
      attach hset hchange hkind hsame hfind h.known fun other path' step' hother =>
        .inr (h.found other path' step' hother)
    refine ⟨⟨⟨known, hsame, hmade⟩, hothers, fun other _ => ?_, hfresh, fun _ => ⟨hsize, ?_⟩,
      fun hge => ?_⟩, hindexed⟩
    · by_cases heq : other = id
      · rw [heq, name_file hmade, name_file hkind]
      · exact name_congr (hothers other heq)
    · intro other path' step' hother
      refine h.not_same (fun other hother => ?_) hother
      rw [hfind] at hother
      cases hother
      exact hbuilt
    · exact absurd (lt_size_of_kind? hkind) (Nat.not_lt.mpr hge)
  · -- a new node takes over the path
    rw [hadd] at hid hset
    obtain rfl : id = ⟨graph.size⟩ := hid
    have hnone : graph.kind? ⟨graph.size⟩ = none := kind?_eq_none_iff.mpr (Nat.le_refl _)
    obtain ⟨hmade, hothers, hsize, hindexed⟩ :=
      attach hset hchange (by rw [kind?_addFile, if_pos rfl]) (Path.same_refl path)
        (by rw [find_addFile, if_pos (Path.same_refl path)]) (known_addFile h path)
        (found_addFile h path)
    have hold : ∀ other, other ≠ ⟨graph.size⟩ → graph'.kind? other = graph.kind? other := by
      intro other hne
      rw [hothers other hne, kind?_addFile, if_neg hne]
    refine ⟨⟨⟨path, Path.same_refl path, hmade⟩, hold, fun other hlt => ?_, ?_, fun hlt => ?_,
      fun _ => ?_⟩, hindexed⟩
    · refine name_congr (hold other ?_)
      rintro rfl
      exact Nat.lt_irrefl _ hlt
    · rw [kind?, Option.map_eq_none_iff] at hnone
      rw [step?, hnone, Option.bind_none]
    · exact absurd hlt (Nat.lt_irrefl _)
    · rw [hsize, size_addFile]

/-- One node is made in addition to those that were made before. -/
theorem Product.made?_eq (h : Product graph path step id graph') (hcommand : step.command = none) :
    ∃ known, path.same known = true ∧ graph.made? id = none ∧
      ∀ other, graph'.made? other =
        if other = id then some (known, step) else graph.made? other := by
  obtain ⟨known, hsame, hmade⟩ := h.made
  refine ⟨known, hsame, made?_eq_none_iff.mpr h.fresh, fun other => ?_⟩
  split
  · next heq =>
      rw [heq, made?, hmade, ← hcommand]
  · next hne => exact made?_congr (h.others other hne)

end NodeGraph

end BuildPlan
