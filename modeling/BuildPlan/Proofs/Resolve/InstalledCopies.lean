import BuildPlan.Proofs.Resolve.InstallDepth
import BuildPlan.Proofs.Resolve.Repeat

/-!
# BuildPlan.Proofs.Resolve.InstalledCopies

What install targets have copied in the end. Each plan is carried out once, after the
plans of the targets that it names, and its copies stand for what those targets and
its other sources have at the end of the run.
-/

namespace BuildPlan

namespace Node

variable {ids extra : List NodeId}

theorem addNew_append (ids first second : List NodeId) :
    addNew ids (first ++ second) = addNew (addNew ids first) second :=
  List.foldl_append

/-- Nodes that are added to none are listed without repetition. -/
theorem addNew_nil (extra : List NodeId) : addNew [] extra = extra.eraseDups :=
  Flag.appendNew_nil extra

end Node

namespace NodeGraph

variable {graph graph' : NodeGraph} {path path' : Path} {step : BuildStep} {id node : NodeId}

/-- The index leads to the node for the path, or the node is built, so that another product
may have taken over the path. -/
def LeadsTo (graph : NodeGraph) (path : Path) (node : NodeId) : Prop :=
  graph.find path = some node ∨ graph.isBuilt node = true

/-- A product takes over no path of a node that is not built. -/
theorem Produces.find (h : graph.Produces path' step id graph')
    (hbuilt : graph.isBuilt node = false) (hfind : graph.find path = some node) :
    graph'.find path = some node := by
  obtain ⟨-, change, -, hset⟩ := h
  have hsame : graph'.find path = (graph.addProduct path').2.find path := by
    rcases setStep_cases hset with ⟨-, rfl⟩ | ⟨_, _, -, -, rfl⟩ <;> rfl
  rw [hsame]
  unfold addProduct
  split
  · next top htop =>
      split
      · next htopBuilt =>
          rw [find_addFile, if_neg, hfind]
          intro hpath
          rw [find_congr hpath, htop] at hfind
          cases hfind
          rw [htopBuilt] at hbuilt
          cases hbuilt
      · exact hfind
  · next hnone =>
      rw [find_addFile, if_neg, hfind]
      intro hpath
      rw [find_congr hpath, hnone] at hfind
      cases hfind

theorem find_file_of_some (hfind : graph.find path = some node) (path' : Path) :
    (graph.file path').2.find path = some node := by
  unfold file
  split
  · exact hfind
  · next hnone =>
      rw [find_addFile, if_neg, hfind]
      intro hpath
      rw [find_congr hpath, hnone] at hfind
      cases hfind

theorem find_file (graph : NodeGraph) (path : Path) :
    (graph.file path).2.find path = some (graph.file path).1 := by
  unfold file
  split
  · next hfound => exact hfound
  · rw [find_addFile, if_pos (Path.same_refl path)]
    rfl

theorem find_group (graph : NodeGraph) (name : String) (path : Path) :
    (graph.group name).2.find path = graph.find path := by
  unfold group
  split <;> rfl

end NodeGraph

theorem Project.target?_modifyTarget_of_ne {p : Project} {id other : TargetId} (h : other ≠ id)
    (change : Target → Target) : (p.modifyTarget id change).target? other = p.target? other := by
  rw [target?_modifyTarget, if_neg h]

/-- The targets that a plan names are declared earlier than its own. -/
def Project.NamesEarlier (p : Project) : Prop :=
  ∀ id plan dep, p.plan? id = some plan → .target dep ∈ plan.sources → dep.index < id.index

namespace Resolve

open Build Project

variable {p p₀ q r : Project} {phase : Phase} {s s' : Stage} {jobs : List Job}
  {id dep other : TargetId} {t : Target} {plan : InstallPlan} {source copy : NodeId} {u : Unit}

theorem Change.leads {path : Path} {node : NodeId} (hchange : Change phase s s') (hsound : Sound s)
    (h : s.project.graph.LeadsTo path node) : s'.project.graph.LeadsTo path node := by
  by_cases hbuilt : s.project.graph.isBuilt node = true
  · exact .inr ((hchange.keepsMade hsound).isBuilt hbuilt)
  have hfind := h.resolve_right hbuilt
  have hunbuilt : s.project.graph.isBuilt node = false := by simpa using hbuilt
  cases hchange with
  | note | start | finish | take => exact h
  | object hmade => exact .inl (hmade.find hunbuilt hfind)
  | output _ _ hmade => exact .inl (hmade.find hunbuilt hfind)
  | copy _ hmade => exact .inl (hmade.find hunbuilt hfind)
  | file path' => exact .inl (NodeGraph.find_file_of_some hfind path')
  | group name => exact .inl ((NodeGraph.find_group _ name path).trans hfind)
  | command => exact .inl hfind

theorem Changes.leads {path : Path} {node : NodeId} (hchanges : Changes phase s s')
    (hsound : Sound s) (h : s.project.graph.LeadsTo path node) :
    s'.project.graph.LeadsTo path node := by
  induction hchanges with
  | refl => exact h
  | tail hbefore hchange ih => exact hchange.leads (Changes.sound hbefore hsound) ih

/-! ### Targets that are left alone -/

/-- The target has no plan left, and it is not being installed. -/
structure Idle (s : Stage) (id : TargetId) : Prop where
  taken : s.project.plan? id = none
  apart : ∀ job ∈ s.jobs, job.target ≠ id

/-- Once the targets are compiled, an idle one is left alone. -/
theorem Change.idle (hphase : phase ≠ .compile) (hchange : Change phase s s') (h : Idle s id) :
    Idle s' id ∧ s'.project.target? id = s.project.target? id := by
  obtain ⟨htaken, hjobs⟩ := h
  cases hchange with
  | note | object | start | output => exact absurd rfl hphase
  | @finish _ q made job jobs f =>
      have hsame := target?_modifyTarget_of_ne (hjobs job List.mem_cons_self).symm f (p := q)
      refine ⟨⟨?_, fun job hjob => hjobs job (List.mem_cons_of_mem _ hjob)⟩, hsame⟩
      rw [Project.plan?, hsame]
      exact htaken
  | @take q _ other _ _ htarget hplan =>
      have hne : other ≠ id := by
        rintro rfl
        rw [Project.plan?, htarget, Option.bind_some, hplan] at htaken
        cases htaken
      have hsame := target?_modifyTarget_of_ne hne.symm (fun t => { t with pending := none })
        (p := q)
      refine ⟨⟨?_, List.forall_mem_cons.mpr ⟨hne, hjobs⟩⟩, hsame⟩
      rw [Project.plan?, hsame]
      exact htaken
  | file | copy | group | command => exact ⟨⟨htaken, hjobs⟩, rfl⟩

theorem Changes.idle (hphase : phase ≠ .compile) (hchanges : Changes phase s s')
    (h : Idle s id) : Idle s' id ∧ s'.project.outputsOf id = s.project.outputsOf id := by
  induction hchanges with
  | refl => exact ⟨h, rfl⟩
  | tail _ hchange ih =>
      obtain ⟨hidle, hsame⟩ := hchange.idle hphase ih.1
      refine ⟨hidle, Eq.trans ?_ ih.2⟩
      rw [outputsOf, outputsOf, hsame]

/-! ### Plans that have been carried out -/

/-- What a source of a plan stands for: the outputs of the target, the node itself, or a file
with that path, which is the one that the index leads to unless the path has been taken
over. -/
inductive Finds (p : Project) : InstallSource → List NodeId → Prop
  | target (dep : TargetId) : Finds p (.target dep) (p.outputsOf dep)
  | node (node : NodeId) : Finds p (.node node) [node]
  | path {path : Path} {node : NodeId} (hnode : node.index < p.graph.size)
      (hsame : path.same ⟨p.graph.name node⟩ = true) (hleads : p.graph.LeadsTo path node) :
      Finds p (.path path) [node]

/-- The node is made by copying the source to its place at the destination. -/
structure Copies (graph : NodeGraph) (env : Option EnvironmentId) (destination : Destination)
    (source copy : NodeId) : Prop where
  known : source.index < graph.size
  made : ∃ path, graph.made? copy = some (path, copyStep env source) ∧
    (destination.place graph source).same path = true

/-- The nodes of the sources, in order and without repetition, have been copied one by one. -/
def CarriedOut (p : Project) (env : Option EnvironmentId) (plan : InstallPlan)
    (outputs : List NodeId) : Prop :=
  ∃ found, List.Forall₂ (Finds p) plan.sources found ∧
    List.Forall₂ (Copies p.graph env plan.destination) found.flatten.eraseDups outputs

theorem Copies.mono {graph graph' : NodeGraph} {env : Option EnvironmentId}
    {destination : Destination} (h : Copies graph env destination source copy)
    (hkeeps : KeepsMade graph graph') : Copies graph' env destination source copy := by
  obtain ⟨hknown, path, hmade, hsame⟩ := h
  refine ⟨Nat.lt_of_lt_of_le hknown hkeeps.size, path, hkeeps.made _ _ hmade, ?_⟩
  rwa [place_congr (hkeeps.names source hknown)]

/-- A copy has one source. -/
theorem Copies.unique {graph : NodeGraph} {env : Option EnvironmentId} {destination : Destination}
    {source' : NodeId} (h : Copies graph env destination source copy)
    (h' : Copies graph env destination source' copy) : source = source' := by
  obtain ⟨path, hmade, -⟩ := h.made
  obtain ⟨path', hmade', -⟩ := h'.made
  rw [hmade] at hmade'
  cases hmade'
  rfl

/-- Nodes that are copied from different ones are different. -/
theorem nodup_of_copies {graph : NodeGraph} {env : Option EnvironmentId}
    {destination : Destination} {sources copies : List NodeId}
    (h : List.Forall₂ (Copies graph env destination) sources copies) (hnodup : sources.Nodup) :
    copies.Nodup := by
  induction h with
  | nil => exact List.nodup_nil
  | @cons source copy sources copies hcopy hrest ih =>
      obtain ⟨hnot, hnodup⟩ := List.nodup_cons.mp hnodup
      refine List.nodup_cons.mpr ⟨fun hmem => ?_, ih hnodup⟩
      obtain ⟨i, hi, heq⟩ := List.mem_iff_getElem.mp hmem
      have hother := hrest.get (hrest.length_eq ▸ hi) hi
      rw [List.get_eq_getElem, List.get_eq_getElem, heq] at hother
      exact hnot (hcopy.unique hother ▸ List.getElem_mem _)

theorem Finds.mono {src : InstallSource} {nodes : List NodeId} (hphase : phase ≠ .compile)
    (hchanges : Changes phase s s') (hsound : Sound s)
    (hidle : ∀ dep, src = .target dep → Idle s dep) (h : Finds s.project src nodes) :
    Finds s'.project src nodes := by
  cases h with
  | target dep =>
      rw [← (hchanges.idle hphase (hidle dep rfl)).2]
      exact .target dep
  | node node => exact .node node
  | path hnode hsame hleads =>
      have hkeeps := hchanges.keepsMade hsound
      refine .path (Nat.lt_of_lt_of_le hnode hkeeps.size) ?_ (hchanges.leads hsound hleads)
      rwa [hkeeps.names _ hnode]

theorem forall₂_finds_mono {sources : List InstallSource} {found : List (List NodeId)}
    (h : List.Forall₂ (Finds s.project) sources found) (hphase : phase ≠ .compile)
    (hchanges : Changes phase s s') (hsound : Sound s)
    (hdeps : ∀ dep, .target dep ∈ sources → Idle s dep) :
    List.Forall₂ (Finds s'.project) sources found := by
  refine List.forall₂_iff_zip.mpr ⟨h.length_eq, fun {src nodes} hmem => ?_⟩
  have hsrc := (List.of_mem_zip hmem).1
  refine ((List.forall₂_iff_zip.mp h).2 hmem).mono hphase hchanges hsound ?_
  rintro dep rfl
  exact hdeps dep hsrc

theorem CarriedOut.mono {env : Option EnvironmentId} {outputs : List NodeId}
    (h : CarriedOut s.project env plan outputs) (hphase : phase ≠ .compile)
    (hchanges : Changes phase s s') (hsound : Sound s)
    (hdeps : ∀ dep, .target dep ∈ plan.sources → Idle s dep) :
    CarriedOut s'.project env plan outputs := by
  obtain ⟨found, hfound, hcopies⟩ := h
  exact ⟨found, forall₂_finds_mono hfound hphase hchanges hsound hdeps,
    hcopies.imp fun _ _ hcopy => hcopy.mono (hchanges.keepsMade hsound)⟩

/-- The target has been installed, and those that it names have their outputs. -/
structure Installed (s : Stage) (env : Option EnvironmentId) (plan : InstallPlan)
    (id : TargetId) : Prop where
  idle : Idle s id
  deps : ∀ dep, .target dep ∈ plan.sources → Idle s dep
  carried : CarriedOut s.project env plan (s.project.outputsOf id)

theorem Installed.mono {env : Option EnvironmentId} (h : Installed s env plan id)
    (hphase : phase ≠ .compile) (hchanges : Changes phase s s') (hsound : Sound s) :
    Installed s' env plan id := by
  obtain ⟨hidle, hsame⟩ := hchanges.idle hphase h.idle
  refine ⟨hidle, fun dep hdep => (hchanges.idle hphase (h.deps dep hdep)).1, ?_⟩
  rw [hsame]
  exact h.carried.mono hphase hchanges hsound h.deps

/-! ### What is left to do -/

/-- Each target that was declared with a plan still has it, or is being installed, or has
been installed. -/
def Progress (p₀ : Project) (s : Stage) : Prop :=
  ∀ id t plan, p₀.target? id = some t → t.pending = some plan →
    s.project.plan? id = some plan ∨ (∃ job ∈ s.jobs, job.target = id) ∨
      Installed s t.env plan id

theorem Progress.take (h : Progress p₀ ⟨p, [], jobs⟩) (hsound : Sound ⟨p, [], jobs⟩)
    (ht : p.target? id = some t) (hplan : t.pending = some plan) :
    Progress p₀
      ⟨p.modifyTarget id fun t => { t with pending := none }, [], ⟨id, some plan⟩ :: jobs⟩ := by
  intro other t₀ plan₀ ht₀ hplan₀
  by_cases hother : other = id
  · exact .inr (.inl ⟨_, List.mem_cons_self, hother.symm⟩)
  rcases h other t₀ plan₀ ht₀ hplan₀ with hwaits | ⟨job, hjob, heq⟩ | hinstalled
  · refine .inl ?_
    rw [Project.plan?, target?_modifyTarget_of_ne hother]
    exact hwaits
  · exact .inr (.inl ⟨job, List.mem_cons_of_mem _ hjob, heq⟩)
  · exact .inr (.inr (hinstalled.mono (by decide) (.single (.take ht hplan)) hsound))

/-- A change of the graph is no progress. -/
theorem Progress.withGraph {graph : NodeGraph} {made made' : List NodeId}
    (h : Progress p₀ ⟨p, made, jobs⟩) (hsound : Sound ⟨p, made, jobs⟩)
    (hchanges : Changes .install ⟨p, made, jobs⟩ ⟨{ p with graph }, made', jobs⟩) :
    Progress p₀ ⟨{ p with graph }, made', jobs⟩ := by
  intro other t₀ plan₀ ht₀ hplan₀
  rcases h other t₀ plan₀ ht₀ hplan₀ with hwaits | hjob | hinstalled
  · exact .inl hwaits
  · exact .inr (.inl hjob)
  · exact .inr (.inr (hinstalled.mono (by decide) hchanges hsound))

/-! ### One plan -/

/-- A copy has its place, and nothing but the graph changes. -/
theorem copyNode_copies {env : Option EnvironmentId} {destination : Destination}
    (hindexed : p.graph.Indexed) (hsource : source.index < p.graph.size)
    (h : Yields (copyNode env source (destination.place p.graph source)) p copy q) :
    ∃ graph, q = { p with graph } ∧ graph.Indexed ∧ KeepsMade p.graph graph ∧
      Copies graph env destination source copy := by
  simp only [copyNode, yields_get_bind, yields_set_bind] at h
  obtain ⟨_, _, hstep, h⟩ := yields_bind.mp h
  obtain ⟨rfl, rfl⟩ := yields_pure.mp h
  obtain ⟨graph, hmade, rfl⟩ := produces_of_setProductStep (Node.kind_depends [source] []) hstep
  obtain ⟨hproduct, hindexed'⟩ := hmade.product hindexed
  obtain ⟨known, hsame, -, hmades⟩ := hproduct.made?_eq rfl
  have hkeeps := (madeSince_of_product hproduct rfl).1
  refine ⟨graph, rfl, hindexed', hkeeps, Nat.lt_of_lt_of_le hsource hkeeps.size, known,
    (hmades _).trans (if_pos rfl), ?_⟩
  rwa [place_congr (hkeeps.names source hsource)]

theorem copyInto_copies {env : Option EnvironmentId} {dir : Path} {sources outputs : List NodeId}
    (hindexed : p.graph.Indexed) (hsources : ∀ source ∈ sources, source.index < p.graph.size)
    (h : Yields (sources.mapM fun source => do
      copyNode env source (dir.join (copiedName (← get).graph source))) p outputs q) :
    ∃ graph, q = { p with graph } ∧ KeepsMade p.graph graph ∧
      List.Forall₂ (Copies graph env (.directory dir)) sources outputs := by
  induction sources generalizing p outputs with
  | nil =>
      rw [List.mapM_nil] at h
      obtain ⟨rfl, rfl⟩ := yields_pure.mp h
      exact ⟨q.graph, rfl, .refl _, .nil⟩
  | cons source rest ih =>
      rw [List.mapM_cons, yields_bind] at h
      obtain ⟨copy, r, hfirst, h⟩ := h
      obtain ⟨copies, r', hrest, h⟩ := yields_bind.mp h
      obtain ⟨rfl, rfl⟩ := yields_pure.mp h
      rw [yields_get_bind] at hfirst
      change Yields (copyNode env source (Destination.place p.graph source (.directory dir))) p copy
        r at hfirst
      obtain ⟨graph, rfl, hindexed', hkeeps, hcopy⟩ :=
        copyNode_copies hindexed (hsources source List.mem_cons_self) hfirst
      obtain ⟨graph', rfl, hkeeps', hcopies⟩ := ih hindexed' (fun other hother =>
        Nat.lt_of_lt_of_le (hsources other (List.mem_cons_of_mem _ hother)) hkeeps.size) hrest
      exact ⟨graph', rfl, hkeeps.trans hkeeps', .cons (hcopy.mono hkeeps') hcopies⟩

theorem copyAll_copies {name : String} {env : Option EnvironmentId} {destination : Destination}
    {sources outputs : List NodeId} (hindexed : p.graph.Indexed)
    (hsources : ∀ source ∈ sources, source.index < p.graph.size)
    (h : Yields (copyAll name env sources destination) p outputs q) :
    ∃ graph, q = { p with graph } ∧
      List.Forall₂ (Copies graph env destination) sources outputs := by
  unfold copyAll at h
  split at h
  · obtain ⟨graph, rfl, -, hcopies⟩ := copyInto_copies hindexed hsources h
    exact ⟨graph, rfl, hcopies⟩
  next path =>
  split at h
  · obtain ⟨rfl, rfl⟩ := yields_pure.mp h
    exact ⟨q.graph, rfl, .nil⟩
  · next source =>
      obtain ⟨copy, r, hcopy, h⟩ := yields_bind.mp h
      obtain ⟨rfl, rfl⟩ := yields_pure.mp h
      change Yields (copyNode env source (Destination.place p.graph source (.file path))) p copy
        q at hcopy
      obtain ⟨graph, rfl, -, -, hcopy⟩ :=
        copyNode_copies hindexed (hsources source List.mem_cons_self) hcopy
      exact ⟨graph, rfl, .cons hcopy .nil⟩
  · exact absurd h not_yields_throw

/-- Installing the target gets on with the plans, and leaves it idle. -/
def Settles (p₀ : Project) (install : TargetId → Build Unit) (jobs : List Job) (id : TargetId) :
    Prop :=
  ∀ p q u, Ledger p₀ ⟨p, [], jobs⟩ → Progress p₀ ⟨p, [], jobs⟩ → Yields (install id) p u q →
    Progress p₀ ⟨q, [], jobs⟩ ∧ Idle ⟨q, [], jobs⟩ id

theorem findSource_finds {install : TargetId → Build Unit} {src : InstallSource}
    {found nodes : List NodeId}
    (hinstall : ∀ dep, src = .target dep → Settles p₀ install jobs dep)
    (hledger : Ledger p₀ ⟨p, [], jobs⟩) (hprogress : Progress p₀ ⟨p, [], jobs⟩)
    (h : Yields (findSource install found src) p nodes q) :
    Progress p₀ ⟨q, [], jobs⟩ ∧ (∀ dep, src = .target dep → Idle ⟨q, [], jobs⟩ dep) ∧
      ∃ new, Finds q src new ∧ nodes = Node.addNew found new := by
  cases src with
  | target dep =>
      obtain ⟨_, r, hdep, h⟩ := yields_bind.mp h
      rw [yields_get_bind] at h
      obtain ⟨rfl, rfl⟩ := yields_pure.mp h
      obtain ⟨hprogress', hidle⟩ := hinstall dep rfl p q _ hledger hprogress hdep
      refine ⟨hprogress', fun other hother => ?_, _, .target dep, rfl⟩
      cases hother
      exact hidle
  | node node =>
      obtain ⟨rfl, rfl⟩ := yields_pure.mp h
      exact ⟨hprogress, by simp, [node], .node node, rfl⟩
  | path path =>
      rw [findSource, yields_modifyGet_bind] at h
      obtain ⟨rfl, rfl⟩ := yields_pure.mp h
      have hchanges : Changes .install ⟨p, [], jobs⟩ ⟨(p.file path).2, [], jobs⟩ :=
        .single (.file path)
      have hfind := NodeGraph.find_file p.graph path
      obtain ⟨known, step, hsame, hkind⟩ := (hledger.sound.indexed.file path).kind_of_find hfind
      refine ⟨hprogress.withGraph hledger.sound hchanges, by simp, _, ?_, rfl⟩
      refine .path (NodeGraph.lt_size_of_kind? hkind) ?_ (.inl hfind)
      have hname : (p.file path).2.graph.name (p.file path).1 = known.spelling :=
        NodeGraph.name_file hkind
      rwa [hname]

/-- The nodes of the sources are found one after the other. Those of the first ones stay what
they are while the others are looked for. -/
theorem findSources_finds {install : TargetId → Build Unit} {sources : List InstallSource}
    {found nodes : List NodeId}
    (hfresh : p₀.Fresh) (hchanges : Installs install)
    (hinstall : ∀ dep, .target dep ∈ sources → Settles p₀ install jobs dep)
    (hledger : Ledger p₀ ⟨p, [], jobs⟩) (hprogress : Progress p₀ ⟨p, [], jobs⟩)
    (hsources : ∀ node, .node node ∈ sources → node.index < p.graph.size)
    (hfound : ∀ node ∈ found, node.index < p.graph.size)
    (h : Yields (sources.foldlM (findSource install) found) p nodes q) :
    Progress p₀ ⟨q, [], jobs⟩ ∧ (∀ dep, .target dep ∈ sources → Idle ⟨q, [], jobs⟩ dep) ∧
      ∃ new, List.Forall₂ (Finds q) sources new ∧ nodes = Node.addNew found new.flatten := by
  induction sources generalizing p found with
  | nil =>
      obtain ⟨rfl, rfl⟩ := yields_pure.mp h
      exact ⟨hprogress, by simp, [], .nil, rfl⟩
  | cons src rest ih =>
      rw [List.foldlM_cons, yields_bind] at h
      obtain ⟨found', r, hfirst, hrest⟩ := h
      obtain ⟨hmove, hfound'⟩ := findSource_changes hchanges hledger.sound
        (fun node heq => hsources node (heq ▸ List.mem_cons_self)) hfound hfirst
      obtain ⟨hprogress', hidle, new, hnew, rfl⟩ := findSource_finds
        (fun dep heq => hinstall dep (heq ▸ List.mem_cons_self)) hledger hprogress hfirst
      have hledger' := Changes.ledger hfresh hmove hledger
      have hrestSources : ∀ node, .node node ∈ rest → node.index < r.graph.size :=
        fun node hnode => Nat.lt_of_lt_of_le (hsources node (List.mem_cons_of_mem _ hnode))
          (Changes.size_le hmove hledger.sound)
      obtain ⟨hmove', -⟩ :=
        findSources_changes hchanges hledger'.sound hrestSources hfound' hrest
      obtain ⟨hprogress'', hidle', others, hothers, rfl⟩ :=
        ih (fun dep hdep => hinstall dep (List.mem_cons_of_mem _ hdep)) hledger' hprogress'
          hrestSources hfound' hrest
      have hlater : Finds q src new :=
        hnew.mono (by decide) hmove' hledger'.sound fun dep heq => hidle dep heq
      refine ⟨hprogress'', fun dep hdep => ?_, new :: others, .cons hlater hothers, ?_⟩
      · rcases List.mem_cons.mp hdep with heq | hdep
        · exact (hmove'.idle (by decide) (hidle dep heq.symm)).1
        · exact hidle' dep hdep
      · rw [List.flatten_cons, Node.addNew_append]

/-- A target whose sources have been copied is installed when it is given the copies. -/
theorem Progress.finish {outputs : List NodeId} {t₀ : Target}
    (h : Progress p₀ ⟨p, outputs, ⟨id, some plan⟩ :: jobs⟩)
    (hsound : Sound ⟨p, outputs, ⟨id, some plan⟩ :: jobs⟩)
    (ht₀ : p₀.target? id = some t₀) (hplan : t₀.pending = some plan)
    (ht : p.target? id = some t) (htaken : p.plan? id = none)
    (hjobs : ∀ job ∈ jobs, job.target ≠ id)
    (hdeps : ∀ dep, .target dep ∈ plan.sources → Idle ⟨p, outputs, ⟨id, some plan⟩ :: jobs⟩ dep)
    (hcarried : CarriedOut p t₀.env plan outputs) :
    Progress p₀
      ⟨p.modifyTarget id fun t => { t with outputs, resolved := true }, [], jobs⟩ := by
  have hphase : Phase.install ≠ .compile := by decide
  have hfinish : Changes .install ⟨p, outputs, ⟨id, some plan⟩ :: jobs⟩
      ⟨p.modifyTarget id fun t => { t with outputs, resolved := true }, [], jobs⟩ :=
    .single (.finished (fun _ => rfl) fun _ _ => .inl rfl)
  intro other t₁ plan₁ ht₁ hplan₁
  by_cases hother : other = id
  · subst hother
    rw [ht₀] at ht₁
    cases ht₁
    rw [hplan] at hplan₁
    cases hplan₁
    refine .inr (.inr ⟨⟨hfinish.plan?_eq_none htaken, hjobs⟩, fun dep hdep => ?_, ?_⟩)
    · exact (hfinish.idle hphase (hdeps dep hdep)).1
    · rw [outputsOf, target?_modifyTarget, if_pos rfl, ht]
      exact hcarried.mono hphase hfinish hsound hdeps
  · rcases h other t₁ plan₁ ht₁ hplan₁ with hwaits | ⟨job, hjob, heq⟩ | hinstalled
    · refine .inl ?_
      rw [Project.plan?, target?_modifyTarget_of_ne hother]
      exact hwaits
    · refine .inr (.inl ⟨job, (List.mem_cons.mp hjob).resolve_left ?_, heq⟩)
      rintro rfl
      exact hother heq.symm
    · exact .inr (.inr (hinstalled.mono hphase hfinish hsound))

theorem installs_install : Installs install := fun _ _ _ _ _ => install_changes

/-- The induction is on the place where the target is declared. Those that it names come
earlier, so none of them is under way, and all of them have their outputs when its sources
are looked up. -/
theorem settles_install (hfresh : p₀.Fresh) (hearlier : p₀.NamesEarlier) (id : TargetId)
    (jobs : List Job) (hjobs : ∀ job ∈ jobs, id.index < job.target.index) :
    Settles p₀ install jobs id := by
  induction hn : id.index using Nat.strong_induction_on generalizing id jobs with
  | _ n ih =>
  intro p q u hledger hprogress h
  have happart : ∀ job ∈ jobs, job.target ≠ id := by
    rintro job hjob rfl
    exact Nat.lt_irrefl _ (hjobs job hjob)
  refine ⟨?_, install_plan? h, happart⟩
  rw [Yields, run_install] at h
  change Yields (installNext install id) p u q at h
  rw [installNext, yields_get_bind] at h
  split at h
  · obtain ⟨-, rfl⟩ := yields_pure.mp h
    exact hprogress
  next t ht =>
  split at h
  · obtain ⟨-, rfl⟩ := yields_pure.mp h
    exact hprogress
  next plan hplan =>
  rw [yields_set_bind] at h
  obtain ⟨nodes, r, hfind, h⟩ := yields_bind.mp h
  obtain ⟨outputs, r', hcopy, h⟩ := yields_bind.mp h
  rw [yields_modify.mp h]
  have htake : Changes .install ⟨p, [], jobs⟩
      ⟨p.modifyTarget id fun t => { t with pending := none }, [], ⟨id, some plan⟩ :: jobs⟩ :=
    .single (.take ht hplan)
  have hledger' := Changes.ledger hfresh htake hledger
  have hsources := hledger.sound.plan ht hplan
  obtain ⟨t₀, ht₀, hdeclared⟩ := hledger.fixed.declared ht
  have hplan₀ := (hledger.turns.pending id t plan ht hplan).2
  have hpending₀ : t₀.pending = some plan := by
    rwa [Project.plan?, ht₀, Option.bind_some] at hplan₀
  obtain ⟨hprogress', hidle, found, hfound, rfl⟩ :=
    findSources_finds hfresh installs_install
      (fun dep hdep => ih dep.index (hn ▸ hearlier id plan dep hplan₀ hdep) dep _
        (List.forall_mem_cons.mpr ⟨hearlier id plan dep hplan₀ hdep, fun job hjob =>
          (hearlier id plan dep hplan₀ hdep).trans (hjobs job hjob)⟩) rfl)
      hledger' (hprogress.take hledger.sound ht hplan) hsources (by simp) hfind
  obtain ⟨hmove, hnodes⟩ :=
    findSources_changes installs_install hledger'.sound hsources (by simp) hfind
  have hledger'' := Changes.ledger hfresh hmove hledger'
  have hcopied := copyAll_changes hledger''.sound hnodes hcopy
  obtain ⟨graph, rfl, hcopies⟩ := copyAll_copies hledger''.sound.indexed hnodes hcopy
  obtain ⟨t', ht', -⟩ := (Changes.ledger hfresh hcopied hledger'').fixed.exists_target ht₀
  have htaken := Changes.plan?_eq_none (hmove.trans hcopied) (plan?_taken p id)
  rw [Node.addNew_nil, Target.env_of_declared hdeclared] at hcopies
  have hphase : Phase.install ≠ .compile := by decide
  exact (hprogress'.withGraph hledger''.sound hcopied).finish (hcopied.sound hledger''.sound) ht₀
    hpending₀ ht' htaken happart
    (fun dep hdep => (hcopied.idle hphase (hidle dep hdep)).1)
    ⟨found, forall₂_finds_mono hfound hphase hcopied hledger''.sound hidle, hcopies⟩

/-! ### The run -/

/-- Plans are taken in the second phase only. -/
theorem Change.plan?_eq (hphase : phase ≠ .install) (hchange : Change phase s s') :
    s'.project.plan? id = s.project.plan? id := by
  have hsame : ∀ (q : Project) (other : TargetId) (f : Target → Target),
      (∀ t, (f t).pending = t.pending) → (q.modifyTarget other f).plan? id = q.plan? id := by
    intro q other f hf
    rw [Project.plan?, Project.plan?, target?_modifyTarget]
    split
    · next heq =>
        rw [heq]
        cases q.target? other <;> simp [hf]
    · rfl
  cases hchange with
  | note hnotes => exact hsame _ _ _ fun t => (hnotes t).pending
  | finish _ hpending => exact hsame _ _ _ hpending
  | file | copy | group | take => exact absurd rfl hphase
  | object | start | output | command => rfl

theorem Changes.plan?_eq (hphase : phase ≠ .install) (hchanges : Changes phase s s') :
    s'.project.plan? id = s.project.plan? id := by
  induction hchanges with
  | refl => rfl
  | tail _ hchange ih => exact (hchange.plan?_eq hphase).trans ih

theorem installs_progress {order : List TargetId} (hfresh : p₀.Fresh) (hearlier : p₀.NamesEarlier)
    (hledger : Ledger p₀ ⟨p, [], []⟩) (hprogress : Progress p₀ ⟨p, [], []⟩)
    (h : Yields (order.forM install) p ⟨⟩ q) : Progress p₀ ⟨q, [], []⟩ := by
  refine (Yields.forM (R := fun p q => Ledger p₀ ⟨p, [], []⟩ → Progress p₀ ⟨p, [], []⟩ →
      Ledger p₀ ⟨q, [], []⟩ ∧ Progress p₀ ⟨q, [], []⟩)
    (fun _ hledger hprogress => ⟨hledger, hprogress⟩) (fun p q r hpq hqr hledger hprogress => ?_)
    (fun id _ p q hyields hledger hprogress => ?_) h hledger hprogress).2
  · obtain ⟨hledger', hprogress'⟩ := hpq hledger hprogress
    exact hqr hledger' hprogress'
  · refine ⟨Changes.ledger hfresh (install_changes hledger.sound hyields) hledger, ?_⟩
    exact (settles_install hfresh hearlier id [] (by simp) p q _ hledger hprogress hyields).1

/-- At the end every install target is installed. -/
theorem Runs.installed {order : List TargetId} {compiled expanded copied installed : Project}
    (hfresh : p.Fresh) (hearlier : p.NamesEarlier)
    (h : Runs p order compiled expanded copied installed q) (ht : p.target? id = some t)
    (hplan : t.pending = some plan) : Installed ⟨q, [], []⟩ t.env plan id := by
  have hparts := h.parts hfresh.sound
  have hcompiled := Changes.ledger hfresh hparts.compile (.of_fresh hfresh)
  have hexpand := expandCommands_changes hcompiled.sound hparts.expand
  have hexpanded := Changes.ledger hfresh hexpand hcompiled
  have hstart : Progress p ⟨expanded, [], []⟩ := by
    intro other t₁ plan₁ ht₁ hplan₁
    have hkept : compiled.plan? other = p.plan? other := hparts.compile.plan?_eq (by decide)
    have hkept' : expanded.plan? other = compiled.plan? other :=
      Changes.plan?_eq (by decide) hexpand
    refine .inl ?_
    rw [hkept', hkept, Project.plan?, ht₁, Option.bind_some, hplan₁]
  have hcopy : Changes .install ⟨expanded, [], []⟩ ⟨copied, [], []⟩ :=
    forM_changes (fun _ _ _ _ hs => install_changes hs) hexpanded.sound h.install
  have hcopied := hcopy.sound hexpanded.sound
  have hgroup : Changes .install ⟨copied, [], []⟩ ⟨installed, [], []⟩ :=
    forM_changes (fun _ _ _ _ _ => makeGroup_changes) hcopied h.group
  have hgrouped := hgroup.sound hcopied
  rcases installs_progress hfresh hearlier hexpanded hstart h.install id t plan ht hplan with
    hwaits | ⟨job, hjob, -⟩ | hinstalled
  · rw [installs_plan? h.install id (mem_buildOrder h.ordered ht)] at hwaits
    cases hwaits
  · cases hjob
  · exact (hinstalled.mono (by decide) hgroup hcopied).mono (by decide)
      (expandCommands_changes hgrouped hparts.finish) hgrouped

/-- Install targets are complete, and they come to an end. Where plans name targets that are
declared earlier, each target with a plan has, in the end, one copy for each node that its
sources stand for, in order and without repetition, at the node's place at the destination
(`Destination.place`), where a target among the sources stands for the outputs that it has in
the end. In any project, also where plans name each other in a circle, a target is installed by
installing those that its plan names in the same way; the depth to which they are followed is
never reached, whatever would be done there. -/
theorem installs_complete :
    (∀ {p q : Project} {exist : Path → Bool} {u : Unit}, p.Fresh → p.NamesEarlier →
      Yields (Project.resolve exist) p u q → ∀ id t plan, p.target? id = some t →
        t.pending = some plan → ∃ found, List.Forall₂ (Finds q) plan.sources found ∧
          List.Forall₂ (Copies q.graph t.env plan.destination) found.flatten.eraseDups
            (q.outputsOf id) ∧
          (q.outputsOf id).Nodup) ∧
      ∀ (p : Project) (id : TargetId),
        (install id).run.run p = (installNext install id).run.run p ∧
          ∀ (stop : Build Unit) (depth : Nat), p.targets.size < depth →
            (installOr stop depth id).run.run p = (install id).run.run p := by
  refine ⟨fun hfresh hearlier h id t plan ht hplan => ?_, fun p id => ⟨run_install p id, ?_⟩⟩
  · obtain ⟨order, _, _, _, _, hruns⟩ := yields_resolveAll_iff.mp (resolve_inv h)
    obtain ⟨found, hfound, hcopies⟩ := (hruns.installed hfresh hearlier ht hplan).carried
    exact ⟨found, hfound, hcopies, nodup_of_copies hcopies (nodup_eraseDups _)⟩
  · exact fun stop depth hdepth => run_installOr_eq_install stop id hdepth

/-- The first target copies `a` and `b` into `x`. The second one copies `a`, and what the first
one has copied, which it names twice, into `y`. -/
def nesting : Project :=
  let p : Project := { name := "nesting", environments := #[copyTools] }
  let docs : Target :=
    { name := "docs", type := .install, env := some ⟨0⟩,
      pending := some
        { sources := [.node ⟨0⟩, .path ⟨"b"⟩], destination := .directory ⟨"x"⟩ } }
  let all : Target :=
    { name := "all", type := .install, env := some ⟨0⟩,
      pending := some
        { sources := [.node ⟨0⟩, .target ⟨0⟩, .target ⟨0⟩], destination := .directory ⟨"y"⟩ } }
  { (p.file ⟨"a"⟩).2 with targets := #[docs, all] }

/-- The project that resolving `nesting` leaves. -/
def nested : Project := ((Project.resolve fun _ => true).run.run nesting).2

theorem fresh_nesting : nesting.Fresh := by
  have hnew : Fresh { name := "nesting", environments := #[copyTools] } :=
    (fresh_new "nesting" ⟨"."⟩ ⟨"build"⟩ false).withEnvironments _
  refine Fresh.withTargets (hnew.file ⟨"a"⟩) fun t ht => ?_
  simp only [List.mem_toArray, List.mem_cons, List.not_mem_nil, or_false] at ht
  have hnodes : ∀ node ∈ t.nodes, node = ⟨0⟩ := by
    rcases ht with rfl | rfl <;> simp [Target.nodes, InstallPlan.nodes]
  refine ⟨?_, ?_, ?_, ?_, fun node hnode => ?_⟩
  · rcases ht with rfl | rfl <;> rfl
  · rcases ht with rfl | rfl <;> rfl
  · rcases ht with rfl | rfl <;> rfl
  · rcases ht with rfl | rfl <;> exact fun _ => rfl
  · rw [hnodes node hnode]
    cbv

theorem namesEarlier_nesting : nesting.NamesEarlier := by
  rintro ⟨i⟩ plan dep hplan hdep
  match i with
  | 0 =>
      cases hplan
      simp at hdep
  | 1 =>
      cases hplan
      obtain rfl : dep = ⟨0⟩ := by simpa using hdep
      exact Nat.zero_lt_one
  | i + 2 => cases hplan

/-- No two copies share a node, also where they take one place. -/
theorem installs_complete_nesting :
    nesting.Fresh ∧ nesting.NamesEarlier ∧
      Yields (Project.resolve fun _ => true) nesting () nested ∧
      (∃ t plan, nesting.target? ⟨1⟩ = some t ∧ t.pending = some plan ∧
        ∃ found, List.Forall₂ (Finds nested) plan.sources found ∧
          List.Forall₂ (Copies nested.graph t.env plan.destination) found.flatten.eraseDups
            (nested.outputsOf ⟨1⟩) ∧
          (nested.outputsOf ⟨1⟩).Nodup) ∧
      (nested.outputsOf ⟨1⟩).map nested.graph.name = ["y/a", "y/a", "y/b"] := by
  have hyields : Yields (Project.resolve fun _ => true) nesting () nested :=
    Prod.ext (by cbv) rfl
  refine ⟨fresh_nesting, namesEarlier_nesting, hyields, ⟨_, _, rfl, rfl, ?_⟩, by cbv⟩
  exact installs_complete.1 fresh_nesting namesEarlier_nesting hyields ⟨1⟩ _ _ rfl rfl

end Resolve

end BuildPlan
