import BuildPlan.Proofs.Resolve.Turn

/-!
# BuildPlan.Proofs.Resolve.LinkLine

The outputs of libraries and programs. The step of an output is taken from the
project as it stands in the turn of its target, when the targets that are linked
into it have their outputs. So the link line lists what they have in the end.
-/

namespace BuildPlan.Resolve

open Build NodeGraph Project

variable {p q r a b : Project} {id : TargetId} {t t₀ : Target} {node : NodeId}
  {env : EnvironmentId} {reqs : EffectiveRequirements} {u : Unit}

/-! ### The making of an output -/

/-- The output of a target is made in its environment when the project stands as in `r`,
which leads to the given graph. The languages of the target are known by then. -/
structure OutputMade (id : TargetId) (t : Target) (node : NodeId) (env : EnvironmentId)
    (reqs : EffectiveRequirements) (r : Project) (graph : NodeGraph) : Prop where
  found : node = (r.graph.addProduct (outputPath r id t)).1
  made : ((r.graph.addProduct (outputPath r id t)).2.modify node fun node =>
      (outputInputs r id t).foldl Node.depends node).setStep node
        (outputStep r id t env reqs) = .ok graph
  environment : t.env = some env
  languages : (r.target? id).map Target.languages = some t.languages

theorem OutputMade.produces {graph : NodeGraph} (h : OutputMade id t node env reqs r graph) :
    r.graph.Produces (outputPath r id t) (outputStep r id t env reqs) node graph :=
  ⟨h.found, _, Node.kind_foldl_depends _, h.made⟩

theorem outputStep_command : (outputStep r id t env reqs).command = none := by
  unfold outputStep
  split <;> rfl

/-- What a target was noted to have when its output was made is what it has. -/
theorem outputMade_of_produce (ht₀ : p.target? id = some t₀) (hempty : t₀.outputs = [])
    (henv : t₀.env = some env) (h : Yields (produce id env) p u q) (ht : q.target? id = some t)
    (hmakes : t.type.makesOutput = true) (hnode : node ∈ t.outputs) :
    OutputMade id t node env ((effectiveRequirements id .link).run p).1
      ((effectiveRequirements id .link).run p).2 q.graph := by
  rcases produce_cases p id with hnothing | ⟨t₁, ht₁, hobject | ⟨hcompiles, hmakes₁, hobjects⟩⟩
  · rw [Yields, run_produce_nothing hnothing] at h
    cases h
    rw [ht₀] at ht
    cases ht
    rw [hempty] at hnode
    cases hnode
  · rw [Yields, run_produce_object ht₁ hobject] at h
    cases h
    rw [target?_modifyTarget, if_pos rfl, ht₁] at ht
    cases ht
    rw [hobject] at hmakes
    cases hmakes
  rw [ht₀] at ht₁
  cases ht₁
  rw [Yields, run_produce ht₀ hcompiles hmakes₁ hobjects] at h
  -- the target as it stands when its requirements have been collected
  obtain ⟨collected, ht₂⟩ : ∃ collected,
      ((effectiveRequirements id .link).run p).2.target? id = some { t₀ with collected } := by
    rcases effectiveRequirements_run id .link p with heq | ⟨reqs, heq⟩
    · exact ⟨t₀.collected, by rw [heq, ht₀]⟩
    · refine ⟨some reqs, ?_⟩
      rw [heq, target?_modifyTarget, if_pos rfl, ht₀, Option.map_some]
  revert h ht₂
  generalize ((effectiveRequirements id .link).run p).1 = reqs
  generalize ((effectiveRequirements id .link).run p).2 = r
  intro h ht₂
  obtain ⟨graph, hmade, rfl⟩ := makeOutput_steps h
  have ht₂' : Project.target? { r with graph } id = some { t₀ with collected } := ht₂
  rw [target?_modifyTarget, if_pos rfl, ht₂', Option.map_some] at ht
  cases ht
  obtain rfl := List.mem_singleton.mp hnode
  exact ⟨rfl, hmade, henv, by rw [ht₂, Option.map_some]⟩

/-- A library or program that has an output after its turn has been given it there. -/
theorem outputMade_of_turn (hsound : Sound ⟨a, [], []⟩) (ht₀ : a.target? id = some t₀)
    (hempty : t₀.outputs = []) (h : Yields (resolveTarget id) a u b) (ht : b.target? id = some t)
    (hcompiles : t.type.compiles = true) (hmakes : t.type.makesOutput = true)
    (hnode : node ∈ t.outputs) :
    ∃ env reqs r, OutputMade id t node env reqs r b.graph ∧
      Changes .compile ⟨a, [], []⟩ ⟨r, [], [⟨id, none⟩]⟩ ∧
      ∀ other, other ≠ id → r.target? other = a.target? other := by
  rcases settled_or_open a id with hsettled | ⟨t₁, ht₁, hopen, htype | ⟨env, htype, henv⟩⟩
  · -- no turn, no output
    rw [Yields, hsettled.yields] at h
    cases h
    rw [ht₀] at ht
    cases ht
    rw [hempty] at hnode
    cases hnode
  · rw [Yields, run_resolveTarget_interface ht₁ hopen htype] at h
    rw [yields_modify.mp h, target?_modifyTarget, if_pos rfl, ht₁] at ht
    cases ht
    rw [htype] at hcompiles
    cases hcompiles
  rw [ht₀] at ht₁
  cases ht₁
  rw [Yields, run_resolveTarget_compile ht₀ hopen htype henv] at h
  obtain ⟨c, graph, made, hcompile, hproduce, rfl⟩ := compileTarget_inv h
  have hinstall : t₀.type ≠ .install := by
    intro hinstall
    rw [hinstall] at htype
    cases htype
  have hbegun := noted_changes hsound ht₀ hopen hinstall (fun source hsource =>
    hsound.targets id t₀ ht₀ source (Target.mem_nodes.mpr (.inl hsource))) hcompile
  obtain ⟨t₁, ht₁, hnotes⟩ := effectiveRequirements_target ht₀ .compile
  have hothers := (effectiveRequirements_touches id .compile a).1.others
  revert hbegun hproduce ht₁ hothers
  generalize ((effectiveRequirements id .compile).run a).2 = begun
  intro hproduce hbegun ht₁ hothers
  have hnoted := target?_modifyTarget { begun with graph } id id (noteCompilation c)
  have ht₁' : Project.target? { begun with graph } id = some t₁ := ht₁
  rw [if_pos rfl, ht₁', Option.map_some] at hnoted
  obtain ⟨t₂, ht₂, rfl⟩ := exists_target_of_modifyTarget ht
  rw [if_pos rfl] at hmakes hnode ⊢
  have henv₁ := (Target.env_of_declared hnotes.declared).trans henv
  obtain ⟨hfound, hmade, henv₂, hlanguages⟩ := outputMade_of_produce hnoted
    (hnotes.outputs.trans hempty) henv₁ hproduce ht₂ hmakes hnode
  refine ⟨env, _, _, ⟨hfound, hmade, henv₂, hlanguages⟩,
    hbegun.trans (effectiveRequirements_changes id .link), fun other hother => ?_⟩
  rw [(effectiveRequirements_touches id .link _).1.others other hother, target?_modifyTarget,
    if_neg hother]
  exact hothers other hother

/-- The turn in which an output was made. It was made in `r`, where what the target
reaches stood as it does when all targets are compiled, and the turn led to `b`. -/
structure MadeInTurn (p compiled : Project) (id : TargetId) (t : Target) (node : NodeId)
    (r b : Project) : Prop where
  made : ∃ env reqs, OutputMade id t node env reqs r b.graph
  before : Changes .compile ⟨p, [], []⟩ ⟨r, [], [⟨id, none⟩]⟩
  sound : Sound ⟨b, [], []⟩
  after : Changes .compile ⟨b, [], []⟩ ⟨compiled, [], []⟩
  deps : ∀ dep, p.Reaches id dep → r.target? dep = compiled.target? dep

theorem Runs.madeInTurn {order : List TargetId} {compiled expanded copied installed : Project}
    (h : Runs p order compiled expanded copied installed q) (hfresh : p.Fresh)
    (ht : q.target? id = some t) (hcompiles : t.type.compiles = true)
    (hmakes : t.type.makesOutput = true) (hnode : node ∈ t.outputs) :
    ∃ r b, MadeInTurn p compiled id t node r b := by
  have hnodup := nodup_buildOrder h.ordered
  obtain ⟨t₀, ht₀, hdeclared⟩ := ((h.parts hfresh.sound).ledger hfresh).fixed.declared ht
  have hinstall : ∀ t', p.target? id = some t' → t'.type ≠ .install := by
    intro t' ht' htype
    rw [ht₀] at ht'
    cases ht'
    rw [Target.type_of_declared hdeclared, htype] at hcompiles
    cases hcompiles
  obtain ⟨a, b, hturn⟩ := exists_turn h.compile (mem_buildOrder h.ordered ht₀)
  have hbefore := hturn.before hfresh.sound
  have hsound := Changes.sound hbefore hfresh.sound
  rw [h.target? hfresh hinstall, hturn.kept hnodup] at ht
  obtain ⟨env, reqs, r, hmade, hchanges, hothers⟩ :=
    outputMade_of_turn hsound ((hturn.waiting hnodup).trans ht₀)
      (hfresh.targets id t₀ ht₀).outputs hturn.turn ht hcompiles hmakes hnode
  refine ⟨r, b, ⟨env, reqs, hmade⟩, hbefore.trans hchanges,
    Changes.sound (hturn.within hfresh.sound) hsound, hturn.after hfresh.sound,
    fun dep hpath => ?_⟩
  have hne : dep ≠ id := by
    rintro rfl
    exact buildOrder_isOk_iff.mp ⟨order, h.ordered⟩ dep hpath
  rw [hothers dep hne, hturn.deps h.ordered hpath]

/-! ### The link line -/

theorem KeepsMade.step? {graph graph' : NodeGraph} {path : Path} {step : BuildStep}
    (h : KeepsMade graph graph') (hmade : graph.made? node = some (path, step)) :
    ∃ step', graph'.step? node = some step' ∧ step = { step' with command := none } := by
  obtain ⟨_, step', hkind, heq⟩ := made?_eq_some_iff.mp (h.made node _ hmade)
  cases heq
  exact ⟨step', step?_eq_some_iff.mpr ⟨_, hkind⟩, rfl⟩

/-- The step by which an output was made stays, up to its command. -/
theorem MadeInTurn.step? {compiled : Project} {graph : NodeGraph}
    (h : MadeInTurn p compiled id t node r b) (hfresh : p.Fresh)
    (hkeeps : KeepsMade compiled.graph graph) :
    ∃ step env reqs, graph.step? node = some step ∧ t.env = some env ∧
      outputStep r id t env reqs = { step with command := none } := by
  obtain ⟨env, reqs, hmade⟩ := h.made
  obtain ⟨hproduct, -⟩ := hmade.produces.product (Changes.sound h.before hfresh.sound).indexed
  obtain ⟨known, -, -, hmades⟩ := hproduct.made?_eq outputStep_command
  obtain ⟨step, hstep, heq⟩ :=
    ((Changes.keepsMade h.after h.sound).trans hkeeps).step? ((hmades node).trans (if_pos rfl))
  exact ⟨step, env, reqs, hstep, hmade.environment, heq⟩

/-- What is linked into an output has the outputs then that it has in the end. -/
theorem Runs.outputsOf_linked {order : List TargetId}
    {compiled expanded copied installed : Project} {types : TargetType → Prop}
    {deps : List TargetId} (h : Runs p order compiled expanded copied installed q)
    (hfresh : p.Fresh)
    (hturn : MadeInTurn p compiled id t node r b) (hdeps : LinkOrder p id types deps)
    (htypes : ¬ types .install) : deps.flatMap r.outputsOf = deps.flatMap q.outputsOf := by
  refine List.flatMap_congr fun dep hdep => ?_
  obtain ⟨hpath, t, ht, htype⟩ := (hdeps.mem dep).mp hdep
  have hinstall : ∀ t', p.target? dep = some t' → t'.type ≠ .install := by
    intro t' ht' heq
    rw [ht] at ht'
    cases ht'
    exact htypes (heq ▸ htype)
  rw [outputsOf, outputsOf, hturn.deps dep hpath, h.target? hfresh hinstall]

/-- The link line of a program or shared library lists its own objects, then the
outputs of the object targets and last those of the libraries that it reaches. In
both groups each target stands once, before those that it depends on. -/
theorem link_line_ordered {exist : Path → Bool} (hfresh : p.Fresh)
    (hrun : Yields (Project.resolve exist) p u q) (ht : q.target? id = some t)
    (htype : t.type = .program ∨ t.type = .sharedLibrary) (hnode : node ∈ t.outputs) :
    ∃ step objects libraries, q.graph.step? node = some step ∧ step.kind = .link ∧
      step.sources = t.objects ++ objects.flatMap q.outputsOf ++ libraries.flatMap q.outputsOf ∧
      LinkOrder p id (· = .object) objects ∧
      LinkOrder p id (fun type => type = .staticLibrary ∨ type = .sharedLibrary) libraries := by
  obtain ⟨order, compiled, expanded, copied, installed, hruns⟩ :=
    yields_resolveAll_iff.mp (resolve_inv hrun)
  have hkeeps := (hruns.parts hfresh.sound).after.made
  have hcompiles : t.type.compiles = true := by rcases htype with h | h <;> rw [h] <;> rfl
  have hmakes : t.type.makesOutput = true := by rcases htype with h | h <;> rw [h] <;> rfl
  obtain ⟨r, b, hturn⟩ := hruns.madeInTurn hfresh ht hcompiles hmakes hnode
  obtain ⟨step, env, reqs, hstep, -, heq⟩ := hturn.step? hfresh hkeeps
  have hfixed := (Changes.ledger hfresh hturn.before (.of_fresh hfresh)).fixed
  obtain ⟨objects, libraries, hlinked, hobjects, hlibraries⟩ :=
    linkedTargets_ordered (buildOrder_isOk_iff.mp ⟨order, hruns.ordered⟩) id
  have hlink : outputStep r id t env reqs = linkStep r id t env reqs := by
    rcases htype with h | h <;> simp [outputStep, h]
  rw [hlink, linkStep, hfixed.linkedTargets, hlinked] at heq
  refine ⟨step, objects, libraries, hstep, (congrArg BuildStep.kind heq).symm, ?_, hobjects,
    hlibraries⟩
  have hsources : t.objects ++ (objects ++ libraries).flatMap r.outputsOf = step.sources :=
    congrArg BuildStep.sources heq
  rw [← hsources, List.flatMap_append, ← List.append_assoc,
    hruns.outputsOf_linked hfresh hturn hobjects (by decide),
    hruns.outputsOf_linked hfresh hturn hlibraries (by decide)]

/-! ### A program with an object target and a library -/

/-- A linker that takes every source as it is. -/
def linkTools : Environment where
  toolchains := [{ name := "ld", linkInputs := [""] }]

/-- `p` is linked to `s`, and both of them to `o`. -/
def linking : Project where
  name := "linking"
  buildDir := ⟨"b"⟩
  environments := #[linkTools]
  targets := #[
    { name := "p", type := .program, env := some ⟨0⟩, sources := [⟨0⟩]
      dependencies := [⟨2⟩, ⟨1⟩] },
    { name := "o", type := .object, env := some ⟨0⟩, sources := [⟨1⟩] },
    { name := "s", type := .staticLibrary, env := some ⟨0⟩, sources := [⟨2⟩]
      dependencies := [⟨1⟩], outputName := some "a" }]
  graph := (((NodeGraph.file {} ⟨"x"⟩).2.file ⟨"y"⟩).2.file ⟨"z"⟩).2

def linked : Project := ((Project.resolve fun _ => true).run.run linking).2

theorem fresh_linking : linking.Fresh := by
  have hnew : Fresh { name := "linking", buildDir := ⟨"b"⟩, environments := #[linkTools] } :=
    (fresh_new "linking" ⟨"."⟩ ⟨"b"⟩ false).withEnvironments _
  refine Fresh.withTargets (((hnew.file ⟨"x"⟩).file ⟨"y"⟩).file ⟨"z"⟩) fun t ht => ?_
  have hsize : ∀ node : NodeId, node.index < 3 → node.index < linking.graph.size :=
    fun _ hlt => hlt
  simp only [List.mem_toArray, List.mem_cons, List.not_mem_nil, or_false] at ht
  rcases ht with rfl | rfl | rfl
  all_goals
    refine ⟨rfl, rfl, rfl, by simp, fun node hnode => hsize node ?_⟩
    simp only [Target.nodes, Option.toList_none, List.flatMap_nil, List.append_nil,
      List.mem_singleton] at hnode
    rw [hnode]
    decide

theorem yields_linked : Yields (Project.resolve fun _ => true) linking () linked := by
  refine Prod.ext ?_ rfl
  cbv

theorem link_line_ordered_linking :
    linking.Fresh ∧ Yields (Project.resolve fun _ => true) linking () linked ∧
      ∃ t step objects libraries, linked.target? ⟨0⟩ = some t ∧ t.type = .program ∧
        linked.graph.step? ⟨4⟩ = some step ∧ step.kind = .link ∧
        step.sources =
          t.objects ++ objects.flatMap linked.outputsOf ++ libraries.flatMap linked.outputsOf ∧
        LinkOrder linking ⟨0⟩ (· = .object) objects ∧
        LinkOrder linking ⟨0⟩ (fun type => type = .staticLibrary ∨ type = .sharedLibrary)
          libraries := by
  have hprogram : (linked.target? ⟨0⟩).map (fun t => (t.type, t.outputs)) =
      some (.program, [⟨4⟩]) := by
    cbv
  obtain ⟨t, ht, heq⟩ := Option.map_eq_some_iff.mp hprogram
  obtain ⟨htype, houtputs⟩ := Prod.mk.inj heq
  obtain ⟨step, objects, libraries, hline⟩ := link_line_ordered fresh_linking yields_linked ht
    (.inl htype) (by rw [houtputs]; exact List.mem_singleton_self _)
  exact ⟨fresh_linking, yields_linked, t, step, objects, libraries, ht, htype, hline⟩

end BuildPlan.Resolve
