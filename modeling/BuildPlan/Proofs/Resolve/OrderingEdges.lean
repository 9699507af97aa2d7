import BuildPlan.Proofs.Resolve.LinkLine

/-!
# BuildPlan.Proofs.Resolve.OrderingEdges

What the outputs of libraries and programs depend on. An output takes on its
dependencies in the turn of its target and keeps them. The outputs of everything
that the target reaches are among them, except those of install targets, which
have none at that time.
-/

namespace BuildPlan

namespace Node

theorem mem_explicitDeps_foldl {deps : List (List NodeId)} {node : Node} {dep : NodeId} :
    dep ∈ (deps.foldl Node.depends node).explicitDeps ↔
      dep ∈ node.explicitDeps ∨ ∃ ids ∈ deps, dep ∈ ids := by
  induction deps generalizing node with
  | nil => simp
  | cons ids rest ih => simp [ih, depends, mem_addNew, or_assoc]

@[simp] theorem explicitDeps_setCommand (node : Node) (command : List Token) :
    (node.setCommand command).explicitDeps = node.explicitDeps := by
  unfold setCommand
  split <;> rfl

end Node

namespace NodeGraph

variable {graph graph' : NodeGraph} {id other : NodeId} {path : Path} {step : BuildStep}

/-- The dependencies of a node that appear as its inputs. -/
def inputs (graph : NodeGraph) (id : NodeId) : List NodeId :=
  ((graph.node? id).map Node.explicitDeps).getD []

theorem inputs_congr (h : graph'.node? id = graph.node? id) :
    graph'.inputs id = graph.inputs id := by
  rw [inputs, inputs, h]

theorem inputs_modify (graph : NodeGraph) (id other : NodeId) {change : Node → Node}
    (h : ∀ node, (change node).explicitDeps = node.explicitDeps) :
    (graph.modify id change).inputs other = graph.inputs other := by
  unfold inputs
  rw [node?_modify]
  split
  · next heq =>
      rw [heq]
      cases graph.node? id <;> simp [h]
  · rfl

theorem inputs_addFile (graph : NodeGraph) (path : Path) (id : NodeId) :
    (graph.addFile path).2.inputs id = graph.inputs id := by
  unfold inputs addFile
  rw [node?_push]
  split
  · next heq =>
      have hnone : graph.node? id = none := by simp [node?, size, heq] 
      rw [hnone]
      rfl
  · rfl

theorem inputs_file (graph : NodeGraph) (path : Path) (id : NodeId) :
    (graph.file path).2.inputs id = graph.inputs id := by
  unfold file
  split
  · rfl
  · exact inputs_addFile graph path id

theorem inputs_addProduct (graph : NodeGraph) (path : Path) (id : NodeId) :
    (graph.addProduct path).2.inputs id = graph.inputs id := by
  rcases addProduct_cases graph path with ⟨_, -, -, hadd⟩ | hadd
  · rw [hadd]
  · rw [hadd, inputs_addFile]

/-- A step is no input. -/
theorem inputs_setStep (h : graph.setStep id step = .ok graph') (other : NodeId) :
    graph'.inputs other = graph.inputs other := by
  rcases setStep_cases h with ⟨-, rfl⟩ | ⟨node, path, hnode, -, rfl⟩
  · rfl
  · unfold inputs
    rw [node?_modify]
    split
    · next heq =>
        rw [heq, hnode]
        rfl
    · rfl

/-- Nodes apart from the product keep their inputs. -/
theorem Produces.inputs (h : graph.Produces path step id graph') (hne : other ≠ id) :
    graph'.inputs other = graph.inputs other := by
  obtain ⟨-, change, -, hset⟩ := h
  rw [inputs_setStep hset, ← inputs_addProduct graph path other]
  refine inputs_congr ?_
  rw [node?_modify, if_neg hne]

/-- The index of groups leads to groups. -/
def Grouped (graph : NodeGraph) : Prop :=
  ∀ name id, graph.byGroup.lookup name = some id → ∃ name', graph.kind? id = some (.group name')

theorem Grouped.mono (h : graph.Grouped) (hgroups : graph'.byGroup = graph.byGroup)
    (hkinds : ∀ id name, graph.kind? id = some (.group name) →
      graph'.kind? id = some (.group name)) : graph'.Grouped := by
  intro name id hlookup
  rw [hgroups] at hlookup
  exact (h name id hlookup).imp fun name' hkind => hkinds id name' hkind

theorem byGroup_addProduct (graph : NodeGraph) (path : Path) :
    (graph.addProduct path).2.byGroup = graph.byGroup := by
  rcases addProduct_cases graph path with ⟨_, -, -, hadd⟩ | hadd
  · rw [hadd]
  · rw [hadd]
    rfl

theorem byGroup_setStep (h : graph.setStep id step = .ok graph') :
    graph'.byGroup = graph.byGroup := by
  rcases setStep_cases h with ⟨-, rfl⟩ | ⟨_, _, -, -, rfl⟩ <;> rfl

theorem byGroup_file (graph : NodeGraph) (path : Path) :
    (graph.file path).2.byGroup = graph.byGroup := by
  unfold file
  split <;> rfl

/-- Products are files, and files are no groups. -/
theorem Grouped.produces (h : graph.Grouped) (hindexed : graph.Indexed)
    (hmade : graph.Produces path step id graph') : graph'.Grouped := by
  obtain ⟨hproduct, -⟩ := hmade.product hindexed
  obtain ⟨hid, change, -, hset⟩ := hmade
  refine h.mono ((byGroup_setStep hset).trans (byGroup_addProduct graph path)) ?_
  intro other name hkind
  rw [hproduct.others other, hkind]
  rintro rfl
  rcases addProduct_cases graph path with ⟨top, hfind, -, hadd⟩ | hadd
  · obtain ⟨_, _, -, hfile⟩ := hindexed.kind_of_find hfind
    rw [hid, hadd, hfile] at hkind
    cases hkind
  · have hlt := lt_size_of_kind? hkind
    rw [hid, hadd] at hlt
    exact Nat.lt_irrefl _ hlt

/-- The node of a group stands for a group, and for one that no step makes. -/
theorem Grouped.named (h : graph.Grouped) (name : String) :
    ∃ name', (graph.group name).2.kind? (graph.group name).1 = some (.group name') := by
  unfold NodeGraph.group
  split
  · next id hfound => exact h name id hfound
  · exact ⟨name, by simp [kind?, node?, size]⟩

theorem lookup_group (graph : NodeGraph) (name name' : String) :
    (graph.group name).2.byGroup.lookup name' =
      if name' = name then some (graph.group name).1 else graph.byGroup.lookup name' := by
  unfold NodeGraph.group
  split
  · next hfound =>
      split
      · next heq => rw [heq, hfound]
      · rfl
  · split
    · next heq => rw [heq, Assoc.lookup_put_self]
    · next hne => exact Assoc.lookup_put_ne hne _ _

theorem Grouped.group (h : graph.Grouped) (name : String) : (graph.group name).2.Grouped := by
  intro name' id hlookup
  rw [lookup_group] at hlookup
  split at hlookup
  · rw [← Option.some.inj hlookup]
    exact h.named name
  · obtain ⟨name'', hkind⟩ := h name' id hlookup
    refine ⟨name'', ?_⟩
    rcases kind?_group graph name id with hsame | ⟨hindex, -⟩
    · rw [hsame, hkind]
    · exact absurd (lt_size_of_kind? hkind) (Nat.not_lt.mpr (Nat.le_of_eq hindex.symm))

theorem inputs_group (graph : NodeGraph) (name : String) (id : NodeId) :
    (graph.group name).2.inputs id = graph.inputs id := by
  unfold group
  split
  · rfl
  · unfold inputs
    rw [node?_push]
    split
    · next heq =>
        have hnone : graph.node? id = none := by simp [node?, size, heq]
        rw [hnone]
        rfl
    · rfl

end NodeGraph

namespace Project

variable {p q : Project} {u : Unit}

theorem graph_of_addTarget {t : Target} {id : TargetId}
    (h : Build.Yields (addTarget t) p id q) : q.graph = p.graph := by
  obtain ⟨-, -, rfl⟩ := yields_addTarget.mp h
  rfl

theorem graph_of_link {id dep : TargetId} (h : Build.Yields (link id dep) p u q) :
    q.graph = p.graph := by
  obtain ⟨-, t, -, rfl⟩ := link_inv h
  split <;> rfl

/-- Declarations make no nodes for groups. -/
theorem Declared.byGroup_eq_nil (h : Declared p) : p.graph.byGroup = [] := by
  induction h with
  | new => rfl
  | environment _ _ ih | setEnvironment _ _ _ ih | depends _ _ _ ih | edit _ _ _ ih
  | default _ _ ih | group _ _ _ ih => exact ih
  | file _ path ih => exact (NodeGraph.byGroup_file _ path).trans ih
  | target _ _ hadd ih => rw [graph_of_addTarget hadd, ih]
  | link _ hlink ih => rw [graph_of_link hlink, ih]

theorem Declared.grouped (h : Declared p) : p.graph.Grouped := by
  intro name id hlookup
  rw [h.byGroup_eq_nil] at hlookup
  cases hlookup

end Project

namespace Resolve

open Build NodeGraph Project

variable {p q r b : Project} {phase : Phase} {s s' : Stage} {id dep : TargetId} {t : Target}
  {node input : NodeId} {u : Unit}

theorem Change.grouped (hchange : Change phase s s') (hsound : Sound s)
    (h : s.project.graph.Grouped) : s'.project.graph.Grouped := by
  cases hchange with
  | note | start | finish | take => exact h
  | object hmade => exact h.produces hsound.indexed hmade
  | output _ _ hmade => exact h.produces hsound.indexed hmade
  | copy _ hmade => exact h.produces hsound.indexed hmade
  | file path =>
      exact h.mono (byGroup_file _ path) fun id name hkind => kind?_file_of_some hkind path
  | group name hchange =>
      refine (h.group name).mono rfl fun id name' hkind => ?_
      rw [kind?_modify _ _ _ hchange, hkind]
  | command hid =>
      refine h.mono rfl fun id name hkind => ?_
      rw [kind?_setCommand hid, if_neg, hkind]
      rintro rfl
      rw [hid] at hkind
      cases hkind

/-- Built nodes keep their inputs. -/
theorem Change.inputs (hchange : Change phase s s') (hsound : Sound s)
    (h : s.project.graph.Grouped) (hbuilt : s.project.graph.isBuilt node = true) :
    s'.project.graph.inputs node = s.project.graph.inputs node := by
  have hproduct : ∀ {path step id graph}, s.project.graph.Produces path step id graph →
      graph.inputs node = s.project.graph.inputs node := by
    intro path step id graph hmade
    refine hmade.inputs ?_
    rintro rfl
    rw [isBuilt, (hmade.product hsound.indexed).1.fresh] at hbuilt
    cases hbuilt
  cases hchange with
  | note | start | finish | take => rfl
  | object hmade => exact hproduct hmade
  | output _ _ hmade => exact hproduct hmade
  | copy _ hmade => exact hproduct hmade
  | file path => exact inputs_file _ path node
  | group name hchange =>
      obtain ⟨path, step, hfile⟩ := isBuilt_iff.mp hbuilt
      obtain ⟨name', hgroup⟩ := h.named name
      refine Eq.trans (inputs_congr ?_) (inputs_group _ name node)
      rw [node?_modify, if_neg]
      rintro rfl
      rw [kind?_group_eq_file_iff.mpr hfile] at hgroup
      cases hgroup
  | command hid =>
      exact inputs_modify _ _ _ fun node => Node.explicitDeps_setCommand node _

theorem Changes.grouped (hchanges : Changes phase s s') (hsound : Sound s)
    (h : s.project.graph.Grouped) : s'.project.graph.Grouped := by
  induction hchanges with
  | refl => exact h
  | tail hchanges hchange ih => exact hchange.grouped (Changes.sound hchanges hsound) ih

theorem KeepsMade.isBuilt {graph graph' : NodeGraph} (h : KeepsMade graph graph')
    (hbuilt : graph.isBuilt node = true) : graph'.isBuilt node = true := by
  by_contra hnot
  have hnone : graph'.made? node = none := by
    simpa [NodeGraph.isBuilt, made?_eq_none_iff] using hnot
  have hnone' := made?_eq_none_iff.mp (h.eq_none hnone)
  rw [NodeGraph.isBuilt, hnone'] at hbuilt
  cases hbuilt

theorem Changes.inputs (hchanges : Changes phase s s') (hsound : Sound s)
    (h : s.project.graph.Grouped) (hbuilt : s.project.graph.isBuilt node = true) :
    s'.project.graph.inputs node = s.project.graph.inputs node := by
  induction hchanges with
  | refl => rfl
  | tail hchanges hchange ih =>
      have hbuilt' := (Changes.keepsMade hchanges hsound).isBuilt hbuilt
      rw [hchange.inputs (Changes.sound hchanges hsound)
        (Changes.grouped hchanges hsound h) hbuilt', ih]

/-- In the first phase only what is built takes on inputs. -/
theorem Change.inputs_unbuilt (hchange : Change .compile s s') (hsound : Sound s)
    (hbuilt : s'.project.graph.isBuilt node = false) :
    s'.project.graph.inputs node = s.project.graph.inputs node := by
  have hproduct : ∀ {path step id graph}, s.project.graph.Produces path step id graph →
      graph.isBuilt node = false → graph.inputs node = s.project.graph.inputs node := by
    intro path step id graph hmade hbuilt
    refine hmade.inputs ?_
    rintro rfl
    obtain ⟨known, -, hkind⟩ := (hmade.product hsound.indexed).1.made
    exact isBuilt_eq_false_iff.mp hbuilt known step hkind
  cases hchange with
  | note | start | finish => rfl
  | object hmade => exact hproduct hmade hbuilt
  | output _ _ hmade => exact hproduct hmade hbuilt

theorem Changes.inputs_unbuilt (hchanges : Changes .compile s s') (hsound : Sound s)
    (hbuilt : s'.project.graph.isBuilt node = false) :
    s'.project.graph.inputs node = s.project.graph.inputs node := by
  induction hchanges with
  | refl => rfl
  | tail hchanges hchange ih =>
      have hsound' := Changes.sound hchanges hsound
      rw [hchange.inputs_unbuilt hsound' hbuilt]
      refine ih (Bool.eq_false_iff.mpr fun htrue => ?_)
      rw [(hchange.keepsMade hsound').isBuilt htrue] at hbuilt
      cases hbuilt

/-- An output takes on the inputs that are named when it is made. -/
theorem OutputMade.mem_inputs {env : EnvironmentId} {reqs : EffectiveRequirements}
    {graph : NodeGraph} (h : OutputMade id t node env reqs r graph) (hindexed : r.graph.Indexed) :
    input ∈ graph.inputs node ↔
      input ∈ r.graph.inputs node ∨ ∃ ids ∈ outputInputs r id t, input ∈ ids := by
  obtain ⟨⟨known, -, hkind⟩, -⟩ := (h.produces.product hindexed).1
  rw [inputs_setStep h.made, ← inputs_addProduct r.graph (outputPath r id t) node]
  rcases setStep_cases h.made with ⟨hnone, heq⟩ | ⟨made, _, hmade, -, -⟩
  · rw [heq, kind?, hnone] at hkind
    cases hkind
  · rw [node?_modify, if_pos rfl] at hmade
    obtain ⟨given, hgiven, rfl⟩ := Option.map_eq_some_iff.mp hmade
    simp [inputs, node?_modify, hgiven, Node.mem_explicitDeps_foldl]

/-- An install target has no outputs before the second phase. -/
theorem Runs.install_waits {order : List TargetId} {compiled expanded copied installed : Project}
    (h : Runs p order compiled expanded copied installed q) (ht : p.target? id = some t)
    (htype : t.type = .install) : compiled.target? id = some t := by
  have hnodup := nodup_buildOrder h.ordered
  obtain ⟨a, b, hturn⟩ := exists_turn h.compile (mem_buildOrder h.ordered ht)
  have hwaiting := hturn.waiting hnodup
  have hsettled : Settled a id := by
    intro t' ht'
    rw [hwaiting, ht] at ht'
    cases ht'
    exact .inr (.inl htype)
  have hsame := hturn.turn
  rw [Yields, hsettled.yields] at hsame
  cases hsame
  rw [hturn.kept hnodup, hwaiting, ht]

/-- When a target has its turn, it finds the outputs that what it reaches has in the
end, except those of install targets. -/
theorem Runs.mem_outputsOf_reached {order : List TargetId}
    {compiled expanded copied installed : Project}
    (h : Runs p order compiled expanded copied installed q) (hfresh : p.Fresh)
    (hturn : MadeInTurn p compiled id t node r b) (hpath : p.Reaches id dep) :
    input ∈ r.outputsOf dep ↔
      ∃ t', q.target? dep = some t' ∧ t'.type ≠ .install ∧ input ∈ t'.outputs := by
  have hfixed := ((h.parts hfresh.sound).ledger hfresh).fixed
  rw [mem_outputsOf, hturn.deps dep hpath]
  cases hdep : p.target? dep with
  | none =>
      have hnone : q.target? dep = none := by
        have htarget := hfixed.targets dep
        rwa [hdep, Option.map_none, Option.map_eq_none_iff] at htarget
      rw [← h.target? hfresh (by simp [hdep]), hnone]
      simp
  | some t₀ =>
      obtain ⟨t', ht', hdeclared⟩ := hfixed.exists_target hdep
      have htype := Target.type_of_declared hdeclared
      by_cases hinstall : t₀.type = .install
      · rw [h.install_waits hdep hinstall, ht']
        simp [(hfresh.targets dep t₀ hdep).outputs, htype, hinstall]
      · have hkept : q.target? dep = compiled.target? dep := by
          refine h.target? hfresh fun t₁ ht₁ => ?_
          rw [hdep] at ht₁
          cases ht₁
          exact hinstall
        rw [← hkept, ht']
        simp [htype, hinstall]

/-- What an output is made to depend on, in terms of what the targets have in the end. -/
theorem Runs.mem_outputInputs {order : List TargetId}
    {compiled expanded copied installed : Project}
    (h : Runs p order compiled expanded copied installed q) (hfresh : p.Fresh)
    (hturn : MadeInTurn p compiled id t node r b) :
    (∃ ids ∈ outputInputs r id t, input ∈ ids) ↔ input ∈ t.objects ∨
      (∃ dep, p.Reaches id dep ∧
        ∃ t', q.target? dep = some t' ∧ t'.type ≠ .install ∧ input ∈ t'.outputs) ∨
      t.type ≠ .staticLibrary ∧ ∃ flag, (input, flag) ∈ t.auxiliaryInputs := by
  have hfixed := (Changes.ledger hfresh hturn.before (.of_fresh hfresh)).fixed
  have hreached : input ∈ dependencyOutputs r id ↔ ∃ dep, p.Reaches id dep ∧
      ∃ t', q.target? dep = some t' ∧ t'.type ≠ .install ∧ input ∈ t'.outputs := by
    rw [dependencyOutputs, List.mem_flatMap, hfixed.transitiveDependencies]
    refine exists_congr fun dep => ?_
    rw [mem_transitiveDependencies, and_iff_right_of_imp (a := dep ≠ id)]
    · exact and_congr_right fun hpath => h.mem_outputsOf_reached hfresh hturn hpath
    · rintro hpath rfl
      exact buildOrder_isOk_iff.mp ⟨order, h.ordered⟩ dep hpath
  unfold outputInputs
  split
  · next htype => simp [htype, hreached]
  · next htype =>
      have hother : t.type ≠ .staticLibrary := htype
      simp [hother, hreached]

/-- Once the targets are compiled, the inputs of what is built stay. -/
theorem Parts.inputs {compiled expanded installed : Project}
    (h : Parts p compiled expanded installed q) (hgroups : compiled.graph.Grouped)
    (hbuilt : compiled.graph.isBuilt node = true) :
    q.graph.inputs node = compiled.graph.inputs node := by
  have hsound := Changes.sound h.compile h.sound
  have hexpand := expandCommands_changes hsound h.expand
  have hsound' := (Changes.sound hexpand hsound)
  have hfinish := expandCommands_changes (Changes.sound h.install hsound') h.finish
  have hgroups' := Changes.grouped hexpand hsound hgroups
  have hbuilt' := (Changes.keepsMade hexpand hsound).isBuilt hbuilt
  rw [Changes.inputs hfinish (Changes.sound h.install hsound')
      (Changes.grouped h.install hsound' hgroups')
      ((Changes.keepsMade h.install hsound').isBuilt hbuilt'),
    Changes.inputs h.install hsound' hgroups' hbuilt', Changes.inputs hexpand hsound hgroups hbuilt]

/-- The inputs of the output of a library or program: those that its node was declared
with, the objects and linker files of the target, and the outputs of all targets
that it reaches, install targets apart. -/
theorem mem_inputs_of_output_iff {exist : Path → Bool} (hfresh : p.Fresh)
    (hgroups : p.graph.Grouped) (hrun : Yields (Project.resolve exist) p u q)
    (ht : q.target? id = some t)
    (htype : t.type = .staticLibrary ∨ t.type = .sharedLibrary ∨ t.type = .program)
    (hnode : node ∈ t.outputs) :
    input ∈ q.graph.inputs node ↔ input ∈ p.graph.inputs node ∨ input ∈ t.objects ∨
      (∃ dep, p.Reaches id dep ∧
        ∃ t', q.target? dep = some t' ∧ t'.type ≠ .install ∧ input ∈ t'.outputs) ∨
      t.type ≠ .staticLibrary ∧ ∃ flag, (input, flag) ∈ t.auxiliaryInputs := by
  obtain ⟨order, compiled, expanded, copied, installed, hruns⟩ :=
    yields_resolveAll_iff.mp (resolve_inv hrun)
  have hparts := hruns.parts hfresh.sound
  have hcompiles : t.type.compiles = true := by rcases htype with h | h | h <;> rw [h] <;> rfl
  have hmakes : t.type.makesOutput = true := by rcases htype with h | h | h <;> rw [h] <;> rfl
  obtain ⟨r, b, hturn⟩ := hruns.madeInTurn hfresh ht hcompiles hmakes hnode
  obtain ⟨env, reqs, hmade⟩ := hturn.made
  have hsound := Changes.sound hturn.before hfresh.sound
  obtain ⟨hproduct, -⟩ := hmade.produces.product hsound.indexed
  have hfirst : r.graph.inputs node = p.graph.inputs node :=
    Changes.inputs_unbuilt hturn.before hfresh.sound (by rw [isBuilt, hproduct.fresh]; rfl)
  have hlast : q.graph.inputs node = b.graph.inputs node := by
    have hbuilt : b.graph.isBuilt node = true := by
      obtain ⟨known, -, hkind⟩ := hproduct.made
      exact isBuilt_iff.mpr ⟨known, _, hkind⟩
    have hgroups' : b.graph.Grouped :=
      (Changes.grouped hturn.before hfresh.sound hgroups).produces hsound.indexed hmade.produces
    have hbuilt' := (Changes.keepsMade hturn.after hturn.sound).isBuilt hbuilt
    rw [hparts.inputs (Changes.grouped hturn.after hturn.sound hgroups') hbuilt',
      Changes.inputs hturn.after hturn.sound hgroups' hbuilt]
  rw [hlast, hmade.mem_inputs hsound.indexed, hfirst, hruns.mem_outputInputs hfresh hturn]

/-! ### A program that is linked to an install target -/

/-- `p` is linked to `o`, and to `i`, which copies a file into the directory `d`. -/
def linkingInstalled : Project where
  name := "linkingInstalled"
  buildDir := ⟨"b"⟩
  environments := #[linkTools]
  targets := #[
    { name := "p", type := .program, env := some ⟨0⟩, sources := [⟨0⟩]
      dependencies := [⟨1⟩, ⟨2⟩] },
    { name := "o", type := .object, env := some ⟨0⟩, sources := [⟨1⟩] },
    { name := "i", type := .install, env := some ⟨0⟩
      pending := some { sources := [.node ⟨2⟩], destination := .directory ⟨"d"⟩ } }]
  graph := (((NodeGraph.file {} ⟨"x"⟩).2.file ⟨"y"⟩).2.file ⟨"z"⟩).2

def linkedInstalled : Project := ((Project.resolve fun _ => true).run.run linkingInstalled).2

theorem fresh_linkingInstalled : linkingInstalled.Fresh := by
  have hnew : Fresh
      { name := "linkingInstalled", buildDir := ⟨"b"⟩, environments := #[linkTools] } :=
    (fresh_new "linkingInstalled" ⟨"."⟩ ⟨"b"⟩ false).withEnvironments _
  refine Fresh.withTargets (((hnew.file ⟨"x"⟩).file ⟨"y"⟩).file ⟨"z"⟩) fun t ht => ?_
  have hsize : ∀ node : NodeId, node.index < 3 → node.index < linkingInstalled.graph.size :=
    fun _ hlt => hlt
  simp only [List.mem_toArray, List.mem_cons, List.not_mem_nil, or_false] at ht
  rcases ht with rfl | rfl | rfl
  all_goals
    refine ⟨rfl, rfl, rfl, by simp, fun node hnode => hsize node ?_⟩
    simp only [Target.nodes, InstallPlan.nodes, Option.toList_none, Option.toList_some,
      List.flatMap_nil, List.flatMap_cons, List.filterMap_cons, List.filterMap_nil,
      List.append_nil, List.nil_append, List.mem_singleton] at hnode
    rw [hnode]
    decide

theorem yields_linkedInstalled :
    Yields (Project.resolve fun _ => true) linkingInstalled () linkedInstalled := by
  refine Prod.ext ?_ rfl
  cbv

theorem target?_linkedInstalled :
    (linkedInstalled.target? ⟨0⟩).map (fun t => (t.type, t.outputs)) = some (.program, [⟨3⟩]) ∧
      (linkedInstalled.target? ⟨2⟩).map Target.outputs = some [⟨4⟩] := by
  constructor <;> cbv

/-- The program depends on its own object and on that of `o`. -/
theorem mem_inputs_of_output_iff_linkedInstalled :
    linkingInstalled.Fresh ∧ linkingInstalled.graph.Grouped ∧
      Yields (Project.resolve fun _ => true) linkingInstalled () linkedInstalled ∧
      ∃ t, linkedInstalled.target? ⟨0⟩ = some t ∧ t.type = .program ∧ t.outputs = [⟨3⟩] ∧
        ∀ input, input ∈ linkedInstalled.graph.inputs ⟨3⟩ ↔
          input ∈ linkingInstalled.graph.inputs ⟨3⟩ ∨ input ∈ t.objects ∨
            (∃ dep, linkingInstalled.Reaches ⟨0⟩ dep ∧ ∃ t', linkedInstalled.target? dep = some t' ∧
              t'.type ≠ .install ∧ input ∈ t'.outputs) ∨
            t.type ≠ .staticLibrary ∧ ∃ flag, (input, flag) ∈ t.auxiliaryInputs := by
  obtain ⟨t, ht, heq⟩ := Option.map_eq_some_iff.mp target?_linkedInstalled.1
  obtain ⟨htype, houtputs⟩ := Prod.mk.inj heq
  have hgroups : linkingInstalled.graph.Grouped := by
    intro name id hlookup
    cases hlookup
  exact ⟨fresh_linkingInstalled, hgroups, yields_linkedInstalled, t, ht, htype, houtputs,
    fun input => mem_inputs_of_output_iff fresh_linkingInstalled hgroups yields_linkedInstalled ht
      (.inr (.inr htype)) (by rw [houtputs]; exact List.mem_singleton_self _)⟩

/-- It does not depend on the copy, though it is linked to `i`. -/
theorem not_forall_outputs_reached_mem_inputs : ¬ ∀ (p q : Project) (exist : Path → Bool)
    (id dep : TargetId) (t : Target) (node input : NodeId), p.Fresh →
    Yields (Project.resolve exist) p () q → q.target? id = some t →
    t.type = .staticLibrary ∨ t.type = .sharedLibrary ∨ t.type = .program →
    node ∈ t.outputs → p.Reaches id dep → input ∈ q.outputsOf dep →
    input ∈ q.graph.inputs node := by
  intro hall
  obtain ⟨hprogram, hcopies⟩ := target?_linkedInstalled
  obtain ⟨t, ht, heq⟩ := Option.map_eq_some_iff.mp hprogram
  obtain ⟨htype, houtputs⟩ := Prod.mk.inj heq
  have hreached : linkingInstalled.Reaches ⟨0⟩ ⟨2⟩ :=
    .single ⟨by decide, by decide, by decide⟩
  have hcopy : (⟨4⟩ : NodeId) ∈ linkedInstalled.outputsOf ⟨2⟩ := by
    rw [outputsOf, hcopies]
    exact List.mem_singleton_self _
  have hinputs : linkedInstalled.graph.inputs ⟨3⟩ = [⟨0⟩, ⟨1⟩] := by cbv
  have hmem := hall _ _ _ ⟨0⟩ ⟨2⟩ t ⟨3⟩ ⟨4⟩ fresh_linkingInstalled yields_linkedInstalled ht
    (.inr (.inr htype)) (by rw [houtputs]; exact List.mem_singleton_self _) hreached hcopy
  rw [hinputs] at hmem
  revert hmem
  decide

end Resolve

end BuildPlan
