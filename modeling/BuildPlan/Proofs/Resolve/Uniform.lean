import BuildPlan.Proofs.Resolve.Commands
import BuildPlan.Proofs.Resolve.Lockstep

/-!
# BuildPlan.Proofs.Resolve.Uniform

What resolution does once the targets are compiled. Copying, grouping and expanding
commands look at no requirements: in two runs they do the same, and the nodes that
differ afterwards are those that differed before.
-/

namespace BuildPlan.Resolve

open Build Project

variable {α β : Type} {affected : TargetId → Prop} {marked : NodeId → Prop} {p p' q : Project}

/-- Run on projects that are alike, the operation has one result and leaves projects
that are alike. -/
def Uniform (affected : TargetId → Prop) (marked : NodeId → Prop) (m : Build α) : Prop :=
  ∀ p p', Alike affected marked p p' →
    Coupled m m p p' fun a a' q q' => a' = a ∧ Alike affected marked q q'

namespace Uniform

theorem alike {m : Build α} {a a' : α} {q' : Project} (hm : Uniform affected marked m)
    (h : Alike affected marked p p') (hyields : Yields m p a q) (hyields' : Yields m p' a' q') :
    Alike affected marked q q' :=
  (hm p p' h a a' q q' hyields hyields').2

theorem pure (a : α) : Uniform affected marked (Pure.pure a : Build α) :=
  fun _ _ h => coupled_pure ⟨rfl, h⟩

theorem throw (e : BuildError) : Uniform affected marked (throw e : Build α) :=
  fun _ _ _ _ _ _ _ hyields => absurd hyields not_yields_throw

theorem bind {m : Build α} {f : α → Build β} (hm : Uniform affected marked m)
    (hf : ∀ a, Uniform affected marked (f a)) : Uniform affected marked (m >>= f) := by
  intro p p' h
  refine (hm p p' h).bind fun a a' q q' hq => ?_
  obtain ⟨rfl, hq⟩ := hq
  exact hf a' q q' hq

theorem forM {f : α → Build PUnit} (hf : ∀ a, Uniform affected marked (f a)) (as : List α) :
    Uniform affected marked (as.forM f) := by
  intro p p' h
  refine (coupled_forM h fun a _ p p' h => ?_).imp fun _ _ q q' hq => ⟨rfl, hq⟩
  exact (hf a p p' h).imp fun _ _ q q' hq => hq.2

theorem foldlM {f : β → α → Build β} (hf : ∀ b a, Uniform affected marked (f b a))
    (as : List α) (b : β) : Uniform affected marked (as.foldlM f b) := by
  induction as generalizing b with
  | nil => exact pure b
  | cons a as ih =>
      rw [List.foldlM_cons]
      exact (hf b a).bind ih

theorem mapM {f : α → Build β} (hf : ∀ a, Uniform affected marked (f a)) (as : List α) :
    Uniform affected marked (as.mapM f) := by
  induction as with
  | nil =>
      rw [List.mapM_nil]
      exact pure []
  | cons a as ih =>
      rw [List.mapM_cons]
      exact (hf a).bind fun b => ih.bind fun bs => pure (b :: bs)

end Uniform

/-! ### Commands -/

/-- A node that differs is expanded in each run for itself, and any other in the same way. -/
theorem uniform_expandNode (node : NodeId) : Uniform affected marked (expandNode node) := by
  intro p p' h u u' q q' hyields hyields'
  refine ⟨rfl, ?_⟩
  have houtline : ∀ tokens (node : Node), (node.setCommand tokens).outline = node.outline :=
    fun tokens node => Node.outline_setCommand node tokens
  by_cases hmarked : marked node
  · have hleft : Alike affected marked q p' := by
      rcases expandNode_inv hyields with ⟨rfl, -⟩ | ⟨_, tokens, -, -, -, rfl⟩
      · exact h
      · exact h.withGraph (h.graph.modify_left hmarked (houtline tokens))
    rcases expandNode_inv hyields' with ⟨rfl, -⟩ | ⟨_, tokens, -, -, -, rfl⟩
    · exact hleft
    · exact hleft.withGraph (hleft.graph.symm.modify_left hmarked (houtline tokens)).symm
  · have hstep : p'.graph.step? node = p.graph.step? node := by
      rw [NodeGraph.step?, NodeGraph.step?, h.graph.unmarked node hmarked]
    have hexpand := expandStep_congr (h.congr (·.environments) fun _ => rfl)
    rcases expandNode_inv hyields with ⟨rfl, hnothing⟩ | ⟨step, _, hnode, hnone, hto, rfl⟩ <;>
      rcases expandNode_inv hyields' with ⟨rfl, hnothing'⟩ | ⟨step', _, hnode', hnone', hto', rfl⟩
    · exact h
    · rw [hstep] at hnode'
      rw [hexpand, hnothing step' hnode' hnone'] at hto'
      cases hto'
    · rw [← hstep] at hnode
      rw [← hexpand, hnothing' step hnode hnone] at hto
      cases hto
    · rw [hstep, hnode] at hnode'
      cases hnode'
      rw [hexpand, hto] at hto'
      cases hto'
      refine h.withGraph (h.graph.modify node (fun node node' heq => ?_) (.inr rfl))
      rw [houtline, houtline, heq]

theorem uniform_expandCommands (start : Nat) :
    Uniform affected marked (expandCommands start) := by
  intro p p' h
  refine coupled_get_bind ?_
  rw [show p'.graph.ids = p.graph.ids by rw [NodeGraph.ids, NodeGraph.ids, h.graph.size]]
  exact Uniform.forM uniform_expandNode _ p p' h

/-! ### Copies -/

theorem copyNode_inv {env : Option EnvironmentId} {source copy : NodeId} {path : Path}
    (h : Yields (copyNode env source path) p copy q) :
    copy = (p.graph.addProduct path).1 ∧
      ∃ graph, ((p.graph.addProduct path).2.modify copy (·.depends [source])).setStep copy
        (copyStep env source) = .ok graph ∧ q = { p with graph } := by
  simp only [copyNode, yields_get_bind, yields_set_bind] at h
  obtain ⟨_, _, hstep, h⟩ := yields_bind.mp h
  obtain ⟨rfl, rfl⟩ := yields_pure.mp h
  obtain ⟨graph, hset, rfl⟩ := setProductStep_inv hstep
  exact ⟨rfl, graph, hset, rfl⟩

theorem uniform_copyNode (env : Option EnvironmentId) (source : NodeId) (path : Path) :
    Uniform affected marked (copyNode env source path) := by
  intro p p' h copy copy' q q' hyields hyields'
  obtain ⟨rfl, graph, hset, rfl⟩ := copyNode_inv hyields
  obtain ⟨rfl, graph', hset', rfl⟩ := copyNode_inv hyields'
  refine ⟨(h.graph.addProduct path).1, h.withGraph ?_⟩
  have hchange : ∀ node : Node, (node.depends [source]).outline = node.outline.depends [source] :=
    fun _ => rfl
  have hsame : ¬ False → copyStep env source = copyStep env source := fun _ => rfl
  -- the step is the same, so the copy needs no mark
  refine (h.graph.product hchange hset hset' rfl hsame).mono fun node hnode => ?_
  exact hnode.resolve_right fun hfalse => hfalse.1

theorem uniform_copyAll (name : String) (env : Option EnvironmentId) (sources : List NodeId)
    (destination : Destination) :
    Uniform affected marked (copyAll name env sources destination) := by
  cases destination with
  | directory dir =>
      refine Uniform.mapM (fun source p p' h => coupled_get_bind ?_) sources
      rw [copiedName, copiedName, h.graph.name]
      exact uniform_copyNode env source _ p p' h
  | file path =>
      rcases sources with _ | ⟨source, _ | ⟨_, _⟩⟩
      · exact .pure []
      · exact (uniform_copyNode env source path).bind fun copy => .pure [copy]
      · exact .throw _

theorem uniform_findSource {install : TargetId → Build Unit}
    (hinstall : ∀ id, Uniform affected marked (install id)) (found : List NodeId)
    (source : InstallSource) : Uniform affected marked (findSource install found source) := by
  cases source with
  | target dep =>
      refine (hinstall dep).bind fun _ p p' h => coupled_get_bind ?_
      rw [h.congr (·.outputsOf) (by simp)]
      exact coupled_pure ⟨rfl, h⟩
  | node node => exact .pure _
  | path path =>
      intro p p' h
      obtain ⟨hnode, hgraph⟩ := h.graph.file path
      refine coupled_modifyGet_bind (coupled_pure ⟨?_, h.withGraph hgraph⟩)
      exact congrArg (fun node => Node.addNew found [node]) hnode

theorem uniform_installWithin (depth : Nat) (id : TargetId) :
    Uniform affected marked (installWithin depth id) := by
  induction depth generalizing id with
  | zero => exact .pure ()
  | succ depth ih =>
      intro p p' h
      unfold installWithin
      refine coupled_get_bind ?_
      rcases h.target?_cases id with ⟨ht, ht'⟩ | ⟨t, _, _, _, ht, ht'⟩ <;>
        rw [ht, ht'] <;> dsimp only
      · exact coupled_pure ⟨rfl, h⟩
      split
      · exact coupled_pure ⟨rfl, h⟩
      next plan _ =>
      have hrest : Uniform affected marked (do
          let sources ← plan.sources.foldlM (findSource (installWithin depth)) []
          let outputs ← copyAll t.name t.env sources plan.destination
          modify (·.modifyTarget id fun target => { target with outputs, resolved := true })) := by
        refine (Uniform.foldlM (uniform_findSource ih) plan.sources []).bind fun sources => ?_
        refine (uniform_copyAll t.name t.env sources plan.destination).bind fun outputs p p' h => ?_
        refine coupled_modify ⟨rfl, h.modifyTarget id ?_ ?_ ?_⟩
        all_goals exact fun _ => rfl
      refine coupled_set_bind (hrest _ _ (h.modifyTarget id ?_ ?_ ?_))
      all_goals exact fun _ => rfl

theorem uniform_install (id : TargetId) : Uniform affected marked (install id) := by
  intro p p' h
  refine coupled_get_bind ?_
  rw [h.congr (·.targets.size) (by simp [Project.outline])]
  exact uniform_installWithin _ id p p' h

theorem makeGroup_inv {name : String} {targets : List TargetId} {u : Unit}
    (h : Yields (makeGroup name targets) p u q) :
    q = { p with
      graph := (p.graph.group name).2.modify (p.graph.group name).1
        (·.depends (targets.flatMap p.outputsOf)) } := by
  rw [makeGroup, yields_get_bind] at h
  exact yields_set.mp h

theorem uniform_makeGroup (name : String) (targets : List TargetId) :
    Uniform affected marked (makeGroup name targets) := by
  intro p p' h u u' q q' hyields hyields'
  rw [makeGroup_inv hyields, makeGroup_inv hyields']
  obtain ⟨hid, hgraph⟩ := h.graph.group name
  have hdepends : ∀ outputs (node : Node),
      (node.depends outputs).outline = node.outline.depends outputs := fun _ _ => rfl
  refine ⟨rfl, h.withGraph ?_⟩
  rw [h.congr (·.outputsOf) (by simp), hid]
  refine hgraph.modify _ (fun node node' heq => ?_) (.inr rfl)
  rw [hdepends, hdepends, heq]

theorem uniform_makeGroups (groups : List (String × List TargetId)) :
    Uniform affected marked (groups.forM fun (name, targets) => makeGroup name targets) :=
  Uniform.forM (fun _ => uniform_makeGroup _ _) groups

/-! ### Both phases -/

/-- Once the targets are compiled, no node gets a mark. -/
theorem Runs.lockstep {order order' : List TargetId}
    {compiled compiled' expanded expanded' copied copied' installed installed' q' : Project}
    (h : Lockstep affected marked p p') (hrun : Runs p order compiled expanded copied installed q)
    (hrun' : Runs p' order' compiled' expanded' copied' installed' q') :
    ∃ marked, Lockstep affected marked compiled compiled' ∧ Alike affected marked q q' := by
  have horder : p'.buildOrder = p.buildOrder := h.alike.congr (·.buildOrder) (by simp)
  obtain rfl : order' = order := by
    have hordered := hrun'.ordered
    rw [horder, hrun.ordered] at hordered
    exact (Except.ok.inj hordered).symm
  obtain ⟨marked, hcompiled⟩ :=
    resolveTargets_lockstep h _ _ _ _ hrun.compile hrun'.compile
  have hexpanded := (uniform_expandCommands 0).alike hcompiled.alike hrun.expand hrun'.expand
  have hcopied := (Uniform.forM uniform_install order').alike hexpanded hrun.install hrun'.install
  have hgroup := hrun'.group
  rw [hcopied.congr (·.groups) fun _ => rfl] at hgroup
  have hinstalled := (uniform_makeGroups copied.groups).alike hcopied hrun.group hgroup
  have hfinish := hrun'.finish
  rw [hexpanded.graph.size] at hfinish
  have hlast := (uniform_expandCommands expanded.graph.size).alike hinstalled hrun.finish hfinish
  exact ⟨marked, hcompiled, hlast⟩

end BuildPlan.Resolve
