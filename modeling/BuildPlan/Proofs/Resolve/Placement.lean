import BuildPlan.Proofs.Project.Declared
import BuildPlan.Proofs.Resolve.Run

/-!
# BuildPlan.Proofs.Resolve.Placement

Where resolution puts what the targets make. Libraries and programs go where their
names say, and copies where the plan of their install target says. Each of these
products belongs to one target, and no two objects share a path.
-/

namespace BuildPlan

/-- The plan that a target was declared with. -/
def Project.plan? (p : Project) (id : TargetId) : Option InstallPlan :=
  (p.target? id).bind Target.pending

theorem Project.Fresh.type_of_plan? {p : Project} {id : TargetId} {plan : InstallPlan}
    (h : p.Fresh) (hplan : p.plan? id = some plan) :
    ∃ t, p.target? id = some t ∧ t.pending = some plan ∧ t.type = .install := by
  obtain ⟨t, ht, hpending⟩ := Option.bind_eq_some_iff.mp hplan
  refine ⟨t, ht, hpending, (h.targets id t ht).plan ?_⟩
  rw [hpending]
  simp

namespace Resolve

variable {p : Project} {phase : Phase} {s s' : Stage} {id other : TargetId}

/-! ### What stays as it was declared -/

/-- The build directory, the environments and the declarations of the targets are
as they were. -/
structure Fixed (p : Project) (s : Stage) : Prop where
  buildDir : s.project.buildDir = p.buildDir
  environments : s.project.environments = p.environments
  targets : ∀ id, (s.project.target? id).map Target.declared = (p.target? id).map Target.declared

theorem Fixed.declared (h : Fixed p s) {t' : Target} (ht' : s.project.target? id = some t') :
    ∃ t, p.target? id = some t ∧ t'.declared = t.declared := by
  have htarget := h.targets id
  rw [ht', Option.map_some, eq_comm, Option.map_eq_some_iff] at htarget
  obtain ⟨t, ht, hdeclared⟩ := htarget
  exact ⟨t, ht, hdeclared.symm⟩

theorem Fixed.exists_target (h : Fixed p s) {t : Target} (ht : p.target? id = some t) :
    ∃ t', s.project.target? id = some t' ∧ t'.declared = t.declared := by
  have htarget := h.targets id
  rw [ht, Option.map_some, Option.map_eq_some_iff] at htarget
  exact htarget

theorem map_declared_modifyTarget {f : Target → Target} (hf : ∀ t, (f t).declared = t.declared)
    (p : Project) (id other : TargetId) :
    ((p.modifyTarget id f).target? other).map Target.declared =
      (p.target? other).map Target.declared := by
  rw [Project.target?_modifyTarget]
  split
  · next heq =>
      rw [heq]
      cases p.target? id <;> simp [hf]
  · rfl

theorem Change.fixed (hchange : Change phase s s') (h : Fixed p s) : Fixed p s' := by
  refine ⟨?_, ?_, fun id => ?_⟩
  · cases hchange <;> exact h.buildDir
  · cases hchange <;> exact h.environments
  · cases hchange with
    | note hnotes =>
        exact (map_declared_modifyTarget (fun t => (hnotes t).declared) _ _ _).trans (h.targets id)
    | finish hdeclared => exact (map_declared_modifyTarget hdeclared _ _ _).trans (h.targets id)
    | take =>
        refine (map_declared_modifyTarget ?_ _ _ _).trans (h.targets id)
        exact fun _ => rfl
    | object | start | output | file | copy | group | command => exact h.targets id

theorem Changes.fixed (hchanges : Changes phase s s') : Fixed s.project s' := by
  induction hchanges with
  | refl => exact ⟨rfl, rfl, fun _ => rfl⟩
  | tail _ hchange ih => exact hchange.fixed ih

theorem Fixed.targetEnvironment? (h : Fixed p s) (id : TargetId) :
    s.project.targetEnvironment? id = p.targetEnvironment? id := by
  have henv : ∀ o : Option Target, o.bind Target.env = (o.map Target.declared).bind Target.env := by
    intro o
    cases o <;> rfl
  rw [Project.targetEnvironment?, Project.targetEnvironment?, henv, h.targets id, ← henv,
    Project.environment?_congr h.environments]

theorem Fixed.outputPath (h : Fixed p s) {t t' : Target} (ht' : t'.declared = t.declared) :
    outputPath s.project id t' = outputPath p id t := by
  rw [outputPath_congr ht', Resolve.outputPath, Resolve.outputPath, primaryToolchain,
    primaryToolchain, h.buildDir, h.targetEnvironment?]

/-! ### Every target has one turn -/

/-- A target without its turn has no outputs. A plan is kept until its turn comes,
and the jobs under way are those of different targets. -/
structure Turns (p : Project) (s : Stage) : Prop where
  waiting : ∀ id t, s.project.target? id = some t → t.resolved = false → t.outputs = []
  pending : ∀ id t plan, s.project.target? id = some t → t.pending = some plan →
    t.resolved = false ∧ p.plan? id = some plan
  nodup : (s.jobs.map Job.target).Nodup
  jobs : ∀ job ∈ s.jobs, job.plan = p.plan? job.target ∧
    ∀ t, s.project.target? job.target = some t → t.resolved = false ∧ t.pending = none

theorem Turns.note {q : Project} {made : List NodeId} {jobs : List Job} {f : Target → Target}
    (hnotes : ∀ t, Notes t (f t)) (h : Turns p ⟨q, made, jobs⟩) :
    Turns p ⟨q.modifyTarget id f, made, jobs⟩ := by
  have hold : ∀ other t', (q.modifyTarget id f).target? other = some t' →
      ∃ t, q.target? other = some t ∧ t'.resolved = t.resolved ∧ t'.outputs = t.outputs ∧
        t'.pending = t.pending := by
    intro other t' ht'
    obtain ⟨t, ht, rfl⟩ := Project.exists_target_of_modifyTarget ht'
    refine ⟨t, ht, ?_⟩
    split
    · exact ⟨(hnotes t).resolved, (hnotes t).outputs, (hnotes t).pending⟩
    · exact ⟨rfl, rfl, rfl⟩
  refine ⟨fun other t' ht' hopen => ?_, fun other t' plan ht' hplan => ?_, h.nodup,
    fun job hjob => ⟨(h.jobs job hjob).1, fun t' ht' => ?_⟩⟩
  · obtain ⟨t, ht, hresolved, houtputs, -⟩ := hold other t' ht'
    rw [houtputs]
    exact h.waiting other t ht (hresolved ▸ hopen)
  · obtain ⟨t, ht, hresolved, -, hpending⟩ := hold other t' ht'
    rw [hresolved]
    exact h.pending other t plan ht (hpending ▸ hplan)
  · obtain ⟨t, ht, hresolved, -, hpending⟩ := hold _ t' ht'
    rw [hresolved, hpending]
    exact (h.jobs job hjob).2 t ht

theorem Turns.finish {q : Project} {made : List NodeId} {job : Job} {jobs : List Job}
    {f : Target → Target} (hpending : ∀ t, (f t).pending = t.pending)
    (hresolved : ∀ t, (f t).resolved = true) (h : Turns p ⟨q, made, job :: jobs⟩) :
    Turns p ⟨q.modifyTarget job.target f, [], jobs⟩ := by
  obtain ⟨hnot, hnodup⟩ := List.nodup_cons.mp h.nodup
  refine ⟨fun other t' ht' hopen => ?_, fun other t' plan ht' hplan => ?_, hnodup,
    fun other hother => ?_⟩
  · obtain ⟨t, ht, rfl⟩ := Project.exists_target_of_modifyTarget ht'
    split at hopen
    · -- the finished target no longer waits
      rw [hresolved] at hopen
      cases hopen
    · next hne =>
        rw [if_neg hne]
        exact h.waiting other t ht hopen
  · obtain ⟨t, ht, rfl⟩ := Project.exists_target_of_modifyTarget ht'
    split at hplan
    · next heq =>
        -- a target that has its turn has no plan any more
        rw [hpending, ((h.jobs job List.mem_cons_self).2 t (heq ▸ ht)).2] at hplan
        cases hplan
    · next hne =>
        rw [if_neg hne]
        exact h.pending other t plan ht hplan
  · have hold := h.jobs other (List.mem_cons_of_mem _ hother)
    refine ⟨hold.1, fun t' ht' => ?_⟩
    have hne : other.target ≠ job.target := by
      intro heq
      exact hnot (heq ▸ List.mem_map_of_mem hother)
    rw [Project.target?_modifyTarget, if_neg hne] at ht'
    exact hold.2 t' ht'

theorem Turns.take {q : Project} {jobs : List Job} {t : Target} {plan : InstallPlan}
    (htarget : q.target? id = some t) (hplan : t.pending = some plan) (h : Turns p ⟨q, [], jobs⟩) :
    Turns p
      ⟨q.modifyTarget id fun t => { t with pending := none }, [], ⟨id, some plan⟩ :: jobs⟩ := by
  obtain ⟨hopen, hdeclared⟩ := h.pending id t plan htarget hplan
  -- the targets under way have no plan left, so the one that is taken is none of them
  have hnew : ∀ job ∈ jobs, job.target ≠ id := by
    rintro job hjob rfl
    rw [((h.jobs job hjob).2 t htarget).2] at hplan
    cases hplan
  refine ⟨fun other t' ht' hwaiting => ?_, fun other t' plan' ht' hplan' => ?_,
    List.nodup_cons.mpr ⟨?_, h.nodup⟩, fun job hjob => ?_⟩
  · obtain ⟨t₀, ht₀, rfl⟩ := Project.exists_target_of_modifyTarget ht'
    split at hwaiting
    · next heq =>
        rw [if_pos heq]
        exact h.waiting other t₀ ht₀ hwaiting
    · next hne =>
        rw [if_neg hne]
        exact h.waiting other t₀ ht₀ hwaiting
  · obtain ⟨t₀, ht₀, rfl⟩ := Project.exists_target_of_modifyTarget ht'
    split at hplan'
    · cases hplan'
    · next hne =>
        rw [if_neg hne]
        exact h.pending other t₀ plan' ht₀ hplan'
  · rintro hmem
    obtain ⟨job, hjob, heq⟩ := List.mem_map.mp hmem
    exact hnew job hjob heq
  · rcases List.mem_cons.mp hjob with rfl | hjob
    · refine ⟨hdeclared.symm, fun t' ht' => ?_⟩
      rw [Project.target?_modifyTarget, if_pos rfl, htarget] at ht'
      cases ht'
      exact ⟨hopen, rfl⟩
    · refine ⟨(h.jobs job hjob).1, fun t' ht' => ?_⟩
      rw [Project.target?_modifyTarget, if_neg (hnew job hjob)] at ht'
      exact (h.jobs job hjob).2 t' ht'

theorem Change.turns (hfresh : p.Fresh) (hfixed : Fixed p s) (hchange : Change phase s s')
    (h : Turns p s) : Turns p s' := by
  cases hchange with
  | note hnotes => exact h.note hnotes
  | finish _ hpending _ hresolved => exact h.finish hpending hresolved
  | take htarget hplan => exact h.take htarget hplan
  | @start q id t htarget hresolved htype =>
      -- only install targets have plans, and those do not compile
      have hnone : p.plan? id = none := by
        refine Option.eq_none_iff_forall_ne_some.mpr fun plan hplan => htype ?_
        obtain ⟨t₀, ht₀, -, hinstall⟩ := hfresh.type_of_plan? hplan
        obtain ⟨t₁, ht₁, hdeclared⟩ := hfixed.declared htarget
        rw [ht₀] at ht₁
        cases ht₁
        rw [Target.type_of_declared hdeclared, hinstall]
      refine ⟨h.waiting, h.pending, by simp, fun job hjob => ?_⟩
      obtain rfl := List.mem_singleton.mp hjob
      refine ⟨hnone.symm, fun t' ht' => ?_⟩
      rw [htarget] at ht'
      cases ht'
      refine ⟨hresolved, Option.eq_none_iff_forall_ne_some.mpr fun plan hplan => ?_⟩
      rw [(h.pending id t plan htarget hplan).2] at hnone
      cases hnone
  | object | output | file | copy | group | command =>
      exact ⟨h.waiting, h.pending, h.nodup, h.jobs⟩

/-! ### Where a product is put -/

/-- The declarations put `node`, which `id` makes, at a place: the output of a
library or program by its name, and a copy by the plan of its install target. -/
inductive Puts (p : Project) (graph : NodeGraph) (id : TargetId) (node : NodeId) : Path → Prop
  | output {t : Target} {path : Path} {step : BuildStep} (htarget : p.target? id = some t)
      (htype : t.type.makesOutput = true) (hplan : p.plan? id = none)
      (hmade : graph.made? node = some (path, step))
      (hkind : step.kind = .archive ∨ step.kind = .link) :
      Puts p graph id node (outputPath p id t)
  | copy {plan : InstallPlan} {path : Path} {step : BuildStep} {source : NodeId}
      (hplan : p.plan? id = some plan) (hmade : graph.made? node = some (path, step))
      (hkind : step.kind = .copy) (hsources : step.sources = [source])
      (hsource : source.index < graph.size) :
      Puts p graph id node (plan.destination.place graph source)

/-- The node stands at the place where the declarations put it. -/
def Stands (p : Project) (graph : NodeGraph) (id : TargetId) (node : NodeId) : Prop :=
  ∃ place path step, Puts p graph id node place ∧ graph.made? node = some (path, step) ∧
    place.same path = true

/-- The target makes the node, which is no object. -/
def Makes (p : Project) (id : TargetId) (node : NodeId) : Prop :=
  ∃ t, p.target? id = some t ∧ t.type.makesOutput = true ∧ node ∈ t.outputs

section Puts

variable {graph graph' : NodeGraph} {node source : NodeId} {place place' : Path}

theorem place_congr (h : graph'.name source = graph.name source) (destination : Destination) :
    destination.place graph' source = destination.place graph source := by
  cases destination with
  | file path => rfl
  | directory dir => rw [Destination.place, Destination.place, copiedName, copiedName, h]

/-- A node is put at one place only. -/
theorem Puts.unique (h : Puts p graph id node place) (h' : Puts p graph id node place') :
    place = place' := by
  cases h with
  | output htarget _ hplan =>
      cases h' with
      | output htarget' =>
          rw [htarget] at htarget'
          cases htarget'
          rfl
      | copy hplan' =>
          rw [hplan] at hplan'
          cases hplan'
  | copy hplan hmade _ hsources =>
      cases h' with
      | output _ _ hplan' =>
          rw [hplan] at hplan'
          cases hplan'
      | copy hplan' hmade' _ hsources' =>
          rw [hplan] at hplan'
          cases hplan'
          rw [hmade] at hmade'
          cases hmade'
          rw [hsources] at hsources'
          cases hsources'
          rfl

/-- Only targets that make outputs put nodes anywhere. -/
theorem Puts.makesOutput (hfresh : p.Fresh) (h : Puts p graph id node place) :
    ∃ t, p.target? id = some t ∧ t.type.makesOutput = true := by
  cases h with
  | output htarget htype => exact ⟨_, htarget, htype⟩
  | copy hplan =>
      obtain ⟨t, ht, -, hinstall⟩ := hfresh.type_of_plan? hplan
      exact ⟨t, ht, by rw [hinstall]; rfl⟩

theorem Puts.kind {path : Path} {step : BuildStep} (h : Puts p graph id node place)
    (hnode : graph.made? node = some (path, step)) : step.kind ≠ .compile := by
  cases h with
  | output _ _ _ hmade hkind =>
      rw [hmade] at hnode
      cases hnode
      exact (kind_of_output hkind).1
  | copy _ hmade hkind =>
      rw [hmade] at hnode
      cases hnode
      rw [hkind]
      decide

/-- A product stays where it is when other nodes are made. -/
theorem Stands.mono (hmade : graph'.made? node = graph.made? node)
    (hnames : ∀ other, other.index < graph.size → graph'.name other = graph.name other)
    (hsize : graph.size ≤ graph'.size) (h : Stands p graph id node) : Stands p graph' id node := by
  obtain ⟨place, path, step, hputs, hnode, hsame⟩ := h
  refine ⟨place, path, step, ?_, hmade.trans hnode, hsame⟩
  cases hputs with
  | output htarget htype hplan hnode hkind =>
      exact .output htarget htype hplan (hmade.trans hnode) hkind
  | @copy plan _ _ source hplan hnode hkind hsources hsource =>
      rw [← place_congr (hnames source hsource)]
      exact .copy hplan (hmade.trans hnode) hkind hsources (Nat.lt_of_lt_of_le hsource hsize)

end Puts

/-! ### Every product stands at its place -/

/-- Every product but the objects belongs to one target, or has been made for the
target that has its turn, and stands at its place. Objects have paths of their own. -/
structure Placed (p : Project) (s : Stage) : Prop where
  owner : ∀ node path step, s.project.graph.made? node = some (path, step) → step.kind ≠ .compile →
    node ∈ s.made ∨ ∃ id, Makes s.project id node
  outputs : ∀ id node, Makes s.project id node →
    node ∉ s.made ∧ Stands p s.project.graph id node
  unique : ∀ id other node, Makes s.project id node → Makes s.project other node → id = other
  made : ∀ job rest, s.jobs = job :: rest → ∀ node ∈ s.made,
    Stands p s.project.graph job.target node
  objects : ∀ i j path path' step step', s.project.graph.made? i = some (path, step) →
    s.project.graph.made? j = some (path', step') → step.kind = .compile → step'.kind = .compile →
      path.same path' = true → i = j

section Placed

variable {q : Project} {made made' : List NodeId} {jobs : List Job} {graph : NodeGraph}

/-- Making no product changes nothing. -/
theorem Placed.keeps (hkeeps : q.graph.Keeps graph) (h : Placed p ⟨q, made, jobs⟩) :
    Placed p ⟨{ q with graph }, made, jobs⟩ := by
  have hmono : ∀ {id node}, Stands p q.graph id node → Stands p graph id node :=
    fun {id node} => Stands.mono (hkeeps.made node) hkeeps.names hkeeps.size
  refine ⟨fun node path step hnode => ?_, fun id node hmakes => ?_, h.unique,
    fun job rest hjobs node hnode => hmono (h.made job rest hjobs node hnode),
    fun i j path path' step step' hi hj => ?_⟩
  · exact h.owner node path step ((hkeeps.made node).symm.trans hnode)
  · exact ⟨(h.outputs id node hmakes).1, hmono (h.outputs id node hmakes).2⟩
  · exact h.objects i j path path' step step' ((hkeeps.made i).symm.trans hi)
      ((hkeeps.made j).symm.trans hj)

/-- A product is made for the target that has its turn. An object is left to no
target, but its path is new. -/
theorem Placed.product {path : Path} {step : BuildStep} {node : NodeId}
    (hproduct : q.graph.Product path step node graph) (hcommand : step.command = none)
    (hmade : ∀ other, other ∈ made' ↔ other ∈ made ∨ other = node ∧ step.kind ≠ .compile)
    (hstands : step.kind ≠ .compile → ∀ job rest, jobs = job :: rest →
      Stands p graph job.target node)
    (hobject : step.kind = .compile → ∀ other known made, q.graph.made? other = some (known, made) →
      path.same known = false)
    (h : Placed p ⟨q, made, jobs⟩) : Placed p ⟨{ q with graph }, made', jobs⟩ := by
  obtain ⟨known, hsame, hnew, hmades⟩ := hproduct.made?_eq hcommand
  have hsize := (size_le_of_product hproduct).1
  -- what stood somewhere was made before, so it is not the new product
  have hmono : ∀ {id other}, Stands p q.graph id other →
      other ≠ node ∧ Stands p graph id other := by
    rintro id other hold
    have hne : other ≠ node := by
      rintro rfl
      obtain ⟨_, _, _, -, hother, -⟩ := hold
      rw [hnew] at hother
      cases hother
    exact ⟨hne, hold.mono ((hmades other).trans (if_neg hne)) hproduct.names hsize⟩
  have hobjects : ∀ other path' step', graph.made? other = some (path', step') → other ≠ node →
      q.graph.made? other = some (path', step') := by
    intro other path' step' hother hne
    rwa [hmades, if_neg hne] at hother
  have hnode : graph.made? node = some (known, step) := (hmades node).trans (if_pos rfl)
  refine ⟨fun other path' step' hother hkind => ?_, fun id other hmakes => ?_, h.unique,
    fun job rest hjobs other hother => ?_, fun i j path₁ path₂ step₁ step₂ hi hj hki hkj hij => ?_⟩
  · by_cases heq : other = node
    · rw [heq, hnode] at hother
      cases hother
      exact .inl ((hmade other).mpr (.inr ⟨heq, hkind⟩))
    · refine (h.owner other path' step' (hobjects other path' step' hother heq) hkind).imp_left ?_
      exact fun hold => (hmade other).mpr (.inl hold)
  · obtain ⟨hnot, hold⟩ := h.outputs id other hmakes
    obtain ⟨hne, hstill⟩ := hmono hold
    refine ⟨fun hmem => ?_, hstill⟩
    rcases (hmade other).mp hmem with hmem | ⟨heq, -⟩
    · exact hnot hmem
    · exact hne heq
  · rcases (hmade other).mp hother with hold | ⟨rfl, hkind⟩
    · exact (hmono (h.made job rest hjobs other hold)).2
    · exact hstands hkind job rest hjobs
  · -- an object that is new has a path that no step made before
    have hapart : ∀ other path' step', step.kind = .compile →
        graph.made? other = some (path', step') → other ≠ node → known.same path' = false := by
      intro other path' step' hkind hother hne
      have hfalse := hobject hkind other path' step' (hobjects other path' step' hother hne)
      rw [Path.same_iff] at hsame
      rwa [Path.same, ← hsame]
    by_cases hine : i = node <;> by_cases hjne : j = node
    · rw [hine, hjne]
    · rw [hine, hnode] at hi
      cases hi
      rw [hapart j path₂ step₂ hki hj hjne] at hij
      cases hij
    · rw [hjne, hnode] at hj
      cases hj
      rw [Path.same_comm, hapart i path₁ step₁ hkj hi hine] at hij
      cases hij
    · exact h.objects i j path₁ path₂ step₁ step₂ (hobjects i path₁ step₁ hi hine)
        (hobjects j path₂ step₂ hj hjne) hki hkj hij

theorem makes_modifyTarget {f : Target → Target} (htype : ∀ t, (f t).type = t.type)
    (houtputs : ∀ t, (f t).outputs = t.outputs) {node : NodeId} :
    Makes (q.modifyTarget id f) other node ↔ Makes q other node := by
  unfold Makes
  rw [Project.target?_modifyTarget]
  split
  · next heq =>
      rw [heq]
      cases q.target? id <;> simp [htype, houtputs]
  · rfl

/-- What the targets make stays the same, whatever else is noted of them. -/
theorem Placed.of_makes {q' : Project} {jobs' : List Job} (h : Placed p ⟨q, made, jobs⟩)
    (hgraph : q'.graph = q.graph) (hmakes : ∀ id node, Makes q' id node ↔ Makes q id node)
    (hjobs : jobs' = jobs ∨ made = []) : Placed p ⟨q', made, jobs'⟩ := by
  refine ⟨fun node path step hnode hkind => ?_, fun id node hnode => ?_,
    fun id other node hid hother => ?_, fun job rest hrest node hnode => ?_, ?_⟩
  · refine (h.owner node path step (hgraph ▸ hnode) hkind).imp_right ?_
    exact fun hid => hid.imp fun id => (hmakes id node).mpr
  · dsimp only
    rw [hgraph]
    exact h.outputs id node ((hmakes id node).mp hnode)
  · exact h.unique id other node ((hmakes id node).mp hid) ((hmakes other node).mp hother)
  · dsimp only
    rw [hgraph]
    rcases hjobs with rfl | rfl
    · exact h.made job rest hrest node hnode
    · cases hnode
  · dsimp only
    rw [hgraph]
    exact h.objects

/-- A finished target makes what has been made for it. -/
theorem makes_finish {job : Job} {f : Target → Target} (hturns : Turns p ⟨q, made, job :: jobs⟩)
    (hdeclared : ∀ t, (f t).declared = t.declared)
    (houtputs : ∀ t, q.target? job.target = some t → HandsOut t made (f t).outputs)
    (id : TargetId) (node : NodeId) :
    Makes (q.modifyTarget job.target f) id node ↔
      if id = job.target then
        node ∈ made ∧ ∃ t, q.target? id = some t ∧ t.type.makesOutput = true
      else Makes q id node := by
  unfold Makes
  rw [Project.target?_modifyTarget]
  split
  · next heq =>
      subst heq
      have hout : ∀ t, q.target? job.target = some t → t.type.makesOutput = true →
          (f t).outputs = made := by
        intro t ht htype
        have hnothing := hturns.waiting _ t ht ((hturns.jobs job List.mem_cons_self).2 t ht).1
        -- without products a target keeps its outputs, and it had none
        rcases houtputs t ht with heq | ⟨hmade, heq | ⟨hobject, -⟩⟩
        · exact heq
        · rw [heq, hnothing, hmade]
        · rw [hobject] at htype
          cases htype
      constructor
      · rintro ⟨t', ht', htype, hnode⟩
        obtain ⟨t, ht, rfl⟩ := Option.map_eq_some_iff.mp ht'
        rw [Target.type_of_declared (hdeclared t)] at htype
        exact ⟨hout t ht htype ▸ hnode, t, ht, htype⟩
      · rintro ⟨hnode, t, ht, htype⟩
        refine ⟨f t, by rw [ht, Option.map_some], ?_, ?_⟩
        · rwa [Target.type_of_declared (hdeclared t)]
        · rwa [hout t ht htype]
  · rfl

theorem Placed.finish {job : Job} {f : Target → Target} (hfresh : p.Fresh)
    (hfixed : Fixed p ⟨q, made, job :: jobs⟩) (hturns : Turns p ⟨q, made, job :: jobs⟩)
    (hdeclared : ∀ t, (f t).declared = t.declared)
    (houtputs : ∀ t, q.target? job.target = some t → HandsOut t made (f t).outputs)
    (h : Placed p ⟨q, made, job :: jobs⟩) :
    Placed p ⟨q.modifyTarget job.target f, [], jobs⟩ := by
  have hmakes := makes_finish hturns hdeclared houtputs
  -- until now the target had no outputs that could get lost
  have hnothing : ∀ node, ¬ Makes q job.target node := by
    rintro node ⟨t, ht, -, hnode⟩
    rw [hturns.waiting _ t ht ((hturns.jobs job List.mem_cons_self).2 t ht).1] at hnode
    cases hnode
  refine ⟨fun node path step hnode hkind => ?_, fun id node hid => ⟨List.not_mem_nil, ?_⟩,
    fun id other node hid hother => ?_, fun _ _ _ node hnode => ?_, h.objects⟩
  · rcases h.owner node path step hnode hkind with hmem | ⟨id, hid⟩
    · obtain ⟨_, _, _, hputs, -⟩ := h.made job jobs rfl node hmem
      obtain ⟨t, ht, htype⟩ := hputs.makesOutput hfresh
      obtain ⟨t', ht', hdeclared'⟩ := hfixed.exists_target ht
      refine .inr ⟨job.target, (hmakes _ _).mpr ?_⟩
      rw [if_pos rfl]
      exact ⟨hmem, t', ht', by rwa [Target.type_of_declared hdeclared']⟩
    · refine .inr ⟨id, (hmakes _ _).mpr ?_⟩
      rw [if_neg]
      · exact hid
      · rintro rfl
        exact hnothing node hid
  · have hcase := (hmakes id node).mp hid
    split at hcase
    · next heq => exact heq ▸ h.made job jobs rfl node hcase.1
    · exact (h.outputs id node hcase).2
  · have hcase := (hmakes id node).mp hid
    have hcase' := (hmakes other node).mp hother
    split at hcase <;> split at hcase'
    · next heq heq' => rw [heq, heq']
    · exact absurd hcase.1 (h.outputs other node hcase').1
    · exact absurd hcase'.1 (h.outputs id node hcase).1
    · exact h.unique id other node hcase hcase'
  · cases hnode

end Placed

/-! ### The run -/

/-- All that resolution preserves of where its products are put. -/
structure Ledger (p : Project) (s : Stage) : Prop where
  sound : Sound s
  fixed : Fixed p s
  turns : Turns p s
  placed : Placed p s

theorem Change.placed (hfresh : p.Fresh) (hchange : Change phase s s') (h : Ledger p s) :
    Placed p s' := by
  obtain ⟨hsound, hfixed, hturns, hplaced⟩ := h
  cases hchange with
  | note hnotes =>
      refine hplaced.of_makes rfl (fun id node => ?_) (.inl rfl)
      exact makes_modifyTarget (fun t => Target.type_of_declared (hnotes t).declared)
        fun t => (hnotes t).outputs
  | start => exact hplaced.of_makes rfl (fun _ _ => Iff.rfl) (.inr rfl)
  | take =>
      refine hplaced.of_makes rfl (fun id node => makes_modifyTarget ?_ ?_) (.inr rfl)
      · exact fun _ => rfl
      · exact fun _ => rfl
  | finish hdeclared _ _ _ houtputs =>
      exact hplaced.finish hfresh hfixed hturns hdeclared houtputs
  | file path => exact hplaced.keeps (NodeGraph.keeps_file _ path)
  | group name hchange =>
      refine hplaced.keeps ((NodeGraph.keeps_group _ name).trans ?_)
      exact NodeGraph.keeps_modify _ _ hchange
  | command hid => exact hplaced.keeps (NodeGraph.keeps_setCommand hid)
  | object hmade hkind hcommand hnew =>
      -- the index was asked for the path before the object was made
      obtain ⟨hproduct, -⟩ := hmade.product hsound.indexed
      refine hplaced.product hproduct hcommand (fun other => ?_) (fun hnot => absurd hkind hnot)
        fun _ other known made hother => ?_
      · exact ⟨.inl, fun hor => hor.resolve_right fun hnot => hnot.2 hkind⟩
      · obtain ⟨path, step, hkind?, heq⟩ := NodeGraph.made?_eq_some_iff.mp hother
        cases heq
        exact hsound.indexed.not_same hnew hkind?
  | @output q jobs id t step node graph htarget htype hmade hkind hcommand =>
      obtain ⟨hproduct, -⟩ := hmade.product hsound.indexed
      have hcompile := (kind_of_output hkind).1
      refine hplaced.product hproduct hcommand (fun other => ?_) (fun _ job rest hjobs => ?_)
        fun hnot => absurd hnot hcompile
      · rw [List.mem_singleton]
        exact ⟨fun heq => .inr ⟨heq, hcompile⟩, fun hor => (hor.resolve_left List.not_mem_nil).1⟩
      · cases hjobs
        obtain ⟨known, hsame, -, hmades⟩ := hproduct.made?_eq hcommand
        obtain ⟨t₀, ht₀, hdeclared⟩ := hfixed.declared htarget
        have hnode : graph.made? node = some (known, step) := (hmades node).trans (if_pos rfl)
        refine ⟨outputPath p id t₀, known, step, .output ht₀ ?_ ?_ hnode hkind, hnode, ?_⟩
        · rwa [← Target.type_of_declared hdeclared]
        · exact (hturns.jobs _ List.mem_cons_self).1.symm
        · rwa [← hfixed.outputPath hdeclared]
  | @copy q made jobs id plan env source node graph hsource hmade =>
      obtain ⟨hproduct, -⟩ := hmade.product hsound.indexed
      have hcompile : (copyStep env source).kind ≠ .compile := by simp [copyStep]
      refine hplaced.product hproduct rfl (fun other => ?_) (fun _ job rest hjobs => ?_)
        fun hnot => absurd hnot hcompile
      · rw [List.mem_append, List.mem_singleton]
        exact or_congr_right ⟨fun heq => ⟨heq, hcompile⟩, And.left⟩
      · cases hjobs
        obtain ⟨known, hsame, -, hmades⟩ := hproduct.made?_eq rfl
        have hnode : graph.made? node = some (known, copyStep env source) :=
          (hmades node).trans (if_pos rfl)
        have hsize := (size_le_of_product hproduct).1
        refine ⟨plan.destination.place graph source, known, copyStep env source,
          .copy ?_ hnode rfl rfl (Nat.lt_of_lt_of_le hsource hsize), hnode, ?_⟩
        · exact (hturns.jobs _ List.mem_cons_self).1.symm
        · rwa [place_congr (hproduct.names source hsource)]

theorem Turns.of_fresh (hfresh : p.Fresh) : Turns p ⟨p, [], []⟩ := by
  refine ⟨fun id t ht _ => (hfresh.targets id t ht).outputs, fun id t plan ht hplan => ?_,
    List.nodup_nil, fun job hjob => ?_⟩
  · refine ⟨(hfresh.targets id t ht).unresolved, ?_⟩
    rw [Project.plan?, ht]
    exact hplan
  · cases hjob

theorem Placed.of_fresh (hfresh : p.Fresh) : Placed p ⟨p, [], []⟩ := by
  have hnothing : ∀ id node, ¬ Makes p id node := by
    rintro id node ⟨t, ht, -, hnode⟩
    rw [(hfresh.targets id t ht).outputs] at hnode
    cases hnode
  have hunmade : ∀ node entry, p.graph.made? node ≠ some entry := by
    intro node entry hnode
    obtain ⟨path, step, hkind, -⟩ := NodeGraph.made?_eq_some_iff.mp hnode
    exact hfresh.not_made hkind
  refine ⟨fun node path step hnode => ?_, fun id node hid => ?_, fun id other node hid => ?_,
    fun job rest hjobs node hnode => ?_, fun i j path path' step step' hi => ?_⟩
  · exact absurd hnode (hunmade node _)
  · exact absurd hid (hnothing id node)
  · exact absurd hid (hnothing id node)
  · cases hnode
  · exact absurd hi (hunmade i _)

theorem Ledger.of_fresh (hfresh : p.Fresh) : Ledger p ⟨p, [], []⟩ :=
  ⟨hfresh.sound, ⟨rfl, rfl, fun _ => rfl⟩, .of_fresh hfresh, .of_fresh hfresh⟩

theorem Changes.ledger (hfresh : p.Fresh) (hchanges : Changes phase s s') (h : Ledger p s) :
    Ledger p s' := by
  induction hchanges with
  | refl => exact h
  | tail _ hchange ih =>
      exact ⟨hchange.sound ih.sound, hchange.fixed ih.fixed, hchange.turns hfresh ih.fixed ih.turns,
        hchange.placed hfresh ih⟩

theorem Parts.ledger {compiled expanded installed q : Project}
    (h : Parts p compiled expanded installed q) (hfresh : p.Fresh) : Ledger p ⟨q, [], []⟩ := by
  have hcompiled := Changes.ledger hfresh h.compile (.of_fresh hfresh)
  have hexpanded :=
    Changes.ledger hfresh (expandCommands_changes hcompiled.sound h.expand) hcompiled
  have hinstalled := Changes.ledger hfresh h.install hexpanded
  exact Changes.ledger hfresh (expandCommands_changes hinstalled.sound h.finish) hinstalled

end Resolve

end BuildPlan
