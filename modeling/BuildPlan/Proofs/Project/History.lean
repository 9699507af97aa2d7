import BuildPlan.Proofs.Resolve.Advance
import BuildPlan.Toolchain.Gcc

/-!
# BuildPlan.Proofs.Project.History

What is collected for a target after any history of operations on its project.
Requirements that are kept with a target stay as they were collected until a target is
edited or linked, and what they were gathered from cannot change in the meantime: the
targets that were reached are still there, with the same requirements and links, and no
new target is reached. Only the flags that take an argument can change, since they come
from the toolchains of an environment.

An edit discards what is kept before it puts the new target in place. A target that is put
in with requirements of its own, such as a copy of one that they were collected for, keeps
them, so histories in which that happens are left aside.
-/

namespace BuildPlan

open BuildPlan.Graph

namespace Project

variable {p q : Project} {id : TargetId} {reqs : Requirements}

/-! ### Operations -/

/-- An operation on a project. -/
inductive Operation
  | setStrict (strict : Bool)
  | file (path : Path)
  | editGraph (change : NodeGraph → NodeGraph)
  | addEnvironment (env : Environment)
  | editEnvironment (id : EnvironmentId) (change : Environment → Environment)
  | addTarget (t : Target)
  | declareCompiled (name : String) (type : TargetType) (env : EnvironmentId) (sources : List Path)
  | declareInterface (name : String) (includeDirs : List Path)
  | declareInstall (name : String) (env : EnvironmentId) (sources : List InstallSource)
      (destination : Destination)
  | editTarget (id : TargetId) (change : Target → Target)
  | link (id dependency : TargetId)
  | setDefault (id : TargetId)
  | addGroup (name : String) (targets : List TargetId)
  | collect (id : TargetId)
  | effective (id : TargetId) (scope : RequirementScope)
  /-- Resolve, with what is on disk given by a predicate. -/
  | resolve (exist : Path → Bool)

namespace Operation

/-- What an operation leaves. One that fails leaves what it has changed before. -/
def run : Operation → Project → Project
  | setStrict strict, p => { p with strict }
  | file path, p => (p.file path).2
  | editGraph change, p => { p with graph := change p.graph }
  | addEnvironment env, p => (p.addEnvironment env).2
  | editEnvironment id change, p => p.editEnvironment id change
  | addTarget t, p => ((Project.addTarget t).run.run p).2
  | declareCompiled name type env sources, p =>
    ((Project.declareCompiled name type env sources).run.run p).2
  | declareInterface name includeDirs, p =>
    ((Project.declareInterface name includeDirs).run.run p).2
  | declareInstall name env sources destination, p =>
    ((Project.declareInstall name env sources destination).run.run p).2
  | editTarget id change, p => p.editTarget id change
  | link id dependency, p => ((Project.link id dependency).run.run p).2
  | setDefault id, p => p.setDefault id
  | addGroup name targets, p => p.addGroup name targets
  | collect id, p => ((collectRequirements id).run p).2
  | effective id scope, p => ((effectiveRequirements id scope).run p).2
  | resolve exist, p => ((Project.resolve exist).run.run p).2

/-- The target is linked to targets of the project, and comes without requirements that were
collected before. -/
def Admits (p : Project) (t : Target) : Prop :=
  t.collected = none ∧ ∀ dep ∈ t.dependencies, dep.index < p.targets.size

/-- The project admits the target that the operation puts in, if there is one. -/
def Admissible (p : Project) : Operation → Prop
  | addTarget t => Admits p t
  | editTarget id change =>
    ∀ t, p.target? id = some t → Admits p (change { t with collected := none })
  | _ => True

/-- The operation makes no environment and leaves the toolchains of all environments. -/
def KeepsToolchains : Operation → Prop
  | addEnvironment _ => False
  | editEnvironment _ change => ∀ env, (change env).toolchains = env.toolchains
  | _ => True

end Operation

/-- What some operations leave, one after the other. -/
def history (ops : List Operation) (p : Project) : Project := ops.foldl (fun p op => op.run p) p

theorem history_append (before after : List Operation) (p : Project) :
    history (before ++ after) p = history after (history before p) :=
  List.foldl_append

/-- Something holds of each of some operations and the project that it is run on. -/
def Along (holds : Project → Operation → Prop) : List Operation → Project → Prop
  | [], _ => True
  | op :: rest, p => holds p op ∧ Along holds rest (op.run p)

theorem along_append {holds : Project → Operation → Prop} {before after : List Operation} :
    Along holds (before ++ after) p ↔
      Along holds before p ∧ Along holds after (history before p) := by
  induction before generalizing p with
  | nil => exact (and_iff_right trivial).symm
  | cons op rest ih =>
      rw [List.cons_append, Along, Along, ih, and_assoc]
      rfl

/-- After each of some operations, requirements are kept with a target. -/
def KeptAlong (id : TargetId) : List Operation → Project → Prop :=
  Along fun p op => (op.run p).memo? id ≠ none

/-- Targets that some operations put in are admitted. -/
def AdmissibleAlong : List Operation → Project → Prop := Along Operation.Admissible

/-! ### What requirements are gathered from -/

/-- The requirements of a target, collected from the graph while the given flags take an
argument. -/
def gatherWith (p : Project) (flags : SeparatedFlags) (id : TargetId) : Requirements :=
  (p.reachedTargets id).foldl (fun reqs dep => reqs.merge flags (p.publicReqs dep))
    (p.privateReqs id)

/-- Targets are linked to targets that have been declared. -/
def LinksExist (p : Project) : Prop :=
  ∀ id t, p.target? id = some t → ∀ dep ∈ t.dependencies, dep.index < p.targets.size

/-- The targets of one project are among those of the other, where their requirements are
gathered from the same. -/
structure Extends (p q : Project) : Prop where
  size : p.targets.size ≤ q.targets.size
  wishes : ∀ id, id.index < p.targets.size →
    (q.target? id).map Target.wishes = (p.target? id).map Target.wishes

theorem LinksExist.lt_size (h : p.LinksExist) {dep : TargetId} (hdep : dep ∈ p.dependenciesOf id) :
    dep.index < p.targets.size := by
  rw [dependenciesOf] at hdep
  cases ht : p.target? id with
  | none => simp [ht] at hdep
  | some t => exact h id t ht dep (by simpa [ht] using hdep)

theorem lt_size_of_reached {dep : TargetId} (h : dep ∈ p.reachedTargets id) :
    dep.index < p.targets.size := by
  have hedge : dep ∈ p.targetIds := by
    cases (mem_reachedTargets.mp h).2 with
    | single hedge => exact hedge.2.1
    | tail _ hedge => exact hedge.2.1
  exact mem_targetIds.mp hedge

/-- Targets that are declared later have no part in what is gathered for the others. -/
theorem gatherWith_of_extends (h : Extends p q) (hlinks : p.LinksExist)
    (hid : id.index < p.targets.size) (flags : SeparatedFlags) :
    q.gatherWith flags id = p.gatherWith flags id := by
  have hdeps : ∀ dep : TargetId, dep.index < p.targets.size →
      q.dependenciesOf dep = p.dependenciesOf dep :=
    fun dep hdep => (reads_of_wishes (h.wishes dep hdep)).2.2.1
  -- the search stays among the targets of `p`, since their links do
  have hreached : q.reachedTargets id = p.reachedTargets id := by
    rw [reachedTargets, reachedTargets, hdeps id hid]
    refine preorder_congr ((nodup_targetIds p).erase id) ((nodup_targetIds q).erase id)
      (fun dep => hlinks.lt_size) (fun _ _ dep => hlinks.lt_size) hdeps fun dep hdep => ?_
    rw [(nodup_targetIds q).mem_erase_iff, (nodup_targetIds p).mem_erase_iff, mem_targetIds,
      mem_targetIds]
    exact and_congr_right fun _ => ⟨fun _ => hdep, fun _ => Nat.lt_of_lt_of_le hdep h.size⟩
  rw [gatherWith, gatherWith, hreached, (reads_of_wishes (h.wishes id hid)).2.1]
  refine List.foldl_ext _ _ _ fun reqs dep hdep => ?_
  rw [(reads_of_wishes (h.wishes dep (lt_size_of_reached hdep))).1]

/-! ### Single operations -/

/-- What an operation does to the targets: nothing, or a target is declared, or one is
edited and nothing is kept any more, or nothing is taken back that was there. -/
inductive Step (p q : Project) : Prop
  | idle (htargets : q.targets = p.targets)
  | declare {t : Target} (htargets : q.targets = p.targets.push t)
      (hlinks : ∀ dep ∈ t.dependencies, dep.index < p.targets.size)
      (hcollected : t.collected = none)
  | edit {id : TargetId} {change : Target → Target} (hedit : q = p.editTarget id change)
      (hlinks : ∀ t, p.target? id = some t →
        ∀ dep ∈ (change { t with collected := none }).dependencies,
          dep ∈ t.dependencies ∨ dep.index < p.targets.size)
      (hcollected : ∀ t, p.target? id = some t →
        (change { t with collected := none }).collected = none)
  | advance (h : Resolve.Advances p q)

/-- A target is declared, or nothing happens. -/
theorem left_addTarget (t : Target) (p : Project) :
    ((addTarget t).run.run p).2 = p ∨
      ((addTarget t).run.run p).2 = { p with targets := p.targets.push t } := by
  rcases Build.yields_or_fails (addTarget t) p with ⟨id, q, h⟩ | ⟨e, q, h⟩
  · rw [h]
    exact .inr (yields_addTarget.mp h).2.2
  · rw [h]
    exact .inl (fails_addTarget h).2.2

/-- A target that exists is linked to one that exists, or nothing happens. -/
theorem left_link (id dep : TargetId) (p : Project) :
    ((link id dep).run.run p).2 = p ∨ dep.index < p.targets.size ∧
      ((link id dep).run.run p).2 =
        p.editTarget id fun t => { t with dependencies := t.dependencies ++ [dep] } := by
  rcases Build.yields_or_fails (link id dep) p with ⟨u, q, h⟩ | ⟨e, q, h⟩
  · rw [h]
    obtain ⟨hdep, t, -, rfl⟩ := link_inv h
    split
    · exact .inl rfl
    · exact .inr ⟨by simpa [target?] using hdep, rfl⟩
  · rw [h]
    exact .inl (fails_link h).2

theorem step_addTarget {t : Target} (hgraph : ∃ graph, q = { p with graph })
    (hlinks : ∀ dep ∈ t.dependencies, dep.index < p.targets.size)
    (hcollected : t.collected = none) : Step p ((addTarget t).run.run q).2 := by
  obtain ⟨graph, rfl⟩ := hgraph
  rcases left_addTarget t { p with graph } with hidle | hpush
  · rw [hidle]
    exact .idle rfl
  · rw [hpush]
    exact .declare rfl hlinks hcollected

theorem step_link (id dep : TargetId) (p : Project) : Step p ((link id dep).run.run p).2 := by
  rcases left_link id dep p with hidle | ⟨hdep, hedit⟩
  · rw [hidle]
    exact .idle rfl
  · rw [hedit]
    refine .edit rfl (fun t _ other hother => ?_) fun _ _ => rfl
    rcases List.mem_append.mp hother with hold | hnew
    · exact .inl hold
    · exact .inr (List.mem_singleton.mp hnew ▸ hdep)

theorem Operation.step {op : Operation} (h : op.Admissible p) : Step p (op.run p) := by
  cases op with
  | setStrict | file | editGraph | addEnvironment | editEnvironment | setDefault | addGroup =>
      exact .idle rfl
  | addTarget t => exact step_addTarget ⟨p.graph, rfl⟩ h.2 h.1
  | declareCompiled name type env sources =>
      exact step_addTarget (exists_graph_files p sources) (by simp) rfl
  | declareInterface | declareInstall => exact step_addTarget ⟨p.graph, rfl⟩ (by simp) rfl
  | editTarget id change =>
      exact .edit rfl (fun t ht dep hdep => .inr ((h t ht).2 dep hdep)) fun t ht => (h t ht).1
  | link id dep => exact step_link id dep p
  | collect id => exact .advance (Resolve.advances_collectRequirements id p)
  | effective id scope => exact .advance (Resolve.advances_effectiveRequirements id scope p)
  | resolve exist => exact .advance (Resolve.advances_resolve exist p)

/-! ### Requirements that are kept -/

theorem memo?_forgetRequirements (p : Project) (id : TargetId) :
    p.forgetRequirements.memo? id = none := by
  rw [memo?, target?, forgetRequirements, Array.getElem?_map]
  cases p.targets[id.index]? <;> rfl

theorem memo?_editTarget {change : Target → Target}
    (h : ∀ t, p.target? id = some t → (change { t with collected := none }).collected = none)
    (other : TargetId) : (p.editTarget id change).memo? other = none := by
  cases ht : (p.editTarget id change).target? other with
  | none => rw [memo?, ht, Option.bind_none]
  | some t' =>
      obtain ⟨t, hat, rfl⟩ := exists_target_of_editTarget ht
      rw [memo?, ht, Option.bind_some]
      split
      · next heq => exact h t (heq ▸ hat)
      · rfl

theorem requirementsOf_of_memo? (h : p.memo? id = some reqs) : p.requirementsOf id = reqs :=
  (congrArg (·.getD (p.gatherRequirements id)) h).trans (Option.getD_some ..)

theorem requirementsOf_of_unkept (h : p.memo? id = none) :
    p.requirementsOf id = p.gatherRequirements id :=
  congrArg (·.getD (p.gatherRequirements id)) h

theorem lt_size_of_memo? (h : p.memo? id = some reqs) : id.index < p.targets.size := by
  obtain ⟨t, ht, -⟩ := Option.bind_eq_some_iff.mp h
  exact (Array.getElem?_eq_some_iff.mp ht).1

theorem memo?_of_targets (h : q.targets = p.targets) : q.memo? = p.memo? := by
  funext id
  rw [memo?, target?, h, ← target?, ← memo?]

/-- Nothing is kept with a target that is new. -/
theorem memo?_of_push {t : Target} (h : q.targets = p.targets.push t) (ht : t.collected = none) :
    q.memo? = p.memo? := by
  funext id
  rw [memo?, memo?, target?, target?, h, Array.getElem?_push]
  split
  · next heq =>
      rw [heq, Array.getElem?_eq_none (Nat.le_refl _)]
      exact ht
  · rfl

theorem extends_of_targets (h : q.targets = p.targets) : Extends p q :=
  ⟨Nat.le_of_eq (congrArg Array.size h.symm), fun id _ => by rw [target?, target?, h]⟩

theorem extends_of_push {t : Target} (h : q.targets = p.targets.push t) : Extends p q := by
  refine ⟨?_, fun id hid => ?_⟩
  · rw [h, Array.size_push]
    exact Nat.le_succ _
  · rw [target?, target?, h, Array.getElem?_push_lt hid, Array.getElem?_eq_getElem hid]

theorem extends_of_advances (h : Resolve.Advances p q) : Extends p q :=
  ⟨Nat.le_of_eq h.fixed.size.symm, fun id _ => h.fixed.map (fun _ => rfl) id⟩

/-- The requirements that are kept after an operation are those that would have been
collected before it, and targets have been added at most. -/
theorem Step.kept (h : Step p q) (hkept : q.memo? id ≠ none) :
    Extends p q ∧ id.index < p.targets.size ∧ q.requirementsOf id = p.requirementsOf id := by
  obtain ⟨reqs, hmemo⟩ := Option.ne_none_iff_exists'.mp hkept
  have hreqs : q.requirementsOf id = reqs := requirementsOf_of_memo? hmemo
  cases h with
  | idle htargets =>
      rw [memo?_of_targets htargets] at hmemo
      refine ⟨extends_of_targets htargets, lt_size_of_memo? hmemo, ?_⟩
      rw [hreqs, requirementsOf_of_memo? hmemo]
  | declare htargets _ hcollected =>
      rw [memo?_of_push htargets hcollected] at hmemo
      refine ⟨extends_of_push htargets, lt_size_of_memo? hmemo, ?_⟩
      rw [hreqs, requirementsOf_of_memo? hmemo]
  | edit hedit _ hcollected =>
      -- an edit has discarded everything
      rw [hedit, memo?_editTarget hcollected] at hmemo
      cases hmemo
  | advance hadvance =>
      refine ⟨extends_of_advances hadvance, hadvance.fixed.size ▸ lt_size_of_memo? hmemo, ?_⟩
      rcases hadvance.memos id with hsame | ⟨hnone, hgathered⟩
      · rw [hreqs, requirementsOf_of_memo? (hsame ▸ hmemo)]
      · rw [requirementsOf_of_memo? hgathered, requirementsOf_of_unkept hnone]

theorem LinksExist.step (h : p.LinksExist) (hstep : Step p q) : q.LinksExist := by
  intro id t ht dep hdep
  cases hstep with
  | idle htargets =>
      rw [target?, htargets] at ht
      rw [htargets]
      exact h id t ht dep hdep
  | declare htargets hlinks =>
      rw [target?, htargets, Array.getElem?_push] at ht
      rw [htargets, Array.size_push]
      split at ht
      · cases ht
        exact Nat.lt_succ_of_lt (hlinks dep hdep)
      · exact Nat.lt_succ_of_lt (h id t ht dep hdep)
  | @edit other change hedit hlinks =>
      subst hedit
      have hsize : (p.editTarget other change).targets.size = p.targets.size := by
        simp [editTarget, modifyTarget, forgetRequirements]
      rw [hsize]
      obtain ⟨old, hold, rfl⟩ := exists_target_of_editTarget ht
      split at hdep
      · next heq =>
          exact (hlinks old (heq ▸ hold) dep hdep).elim (h id old hold dep) fun hexists => hexists
      · exact h id old hold dep hdep
  | advance hadvance =>
      obtain ⟨old, hold, hdeclared⟩ := hadvance.fixed.declared ht
      have hsame : t.declared.dependencies = old.declared.dependencies :=
        congrArg Target.dependencies hdeclared
      rw [hadvance.fixed.size]
      exact h id old hold dep (hsame ▸ hdep)

/-! ### The flags that take an argument -/

theorem separatedFlags_congr (h : (q.targetEnvironment? id).map Environment.toolchains =
      (p.targetEnvironment? id).map Environment.toolchains) :
    q.separatedFlags id = p.separatedFlags id := by
  rw [separatedFlags, separatedFlags]
  cases hp : p.targetEnvironment? id with
  | none =>
      rw [hp, Option.map_none, Option.map_eq_none_iff] at h
      rw [h]
  | some env =>
      rw [hp, Option.map_some, Option.map_eq_some_iff] at h
      obtain ⟨env', hq, htoolchains⟩ := h
      simp only [hq, htoolchains]

theorem environments_addTarget (t : Target) (p : Project) :
    ((addTarget t).run.run p).2.environments = p.environments := by
  rcases left_addTarget t p with hidle | hpush
  · rw [hidle]
  · rw [hpush]

theorem environments_link (id dep : TargetId) (p : Project) :
    ((link id dep).run.run p).2.environments = p.environments := by
  rcases left_link id dep p with hidle | ⟨-, hedit⟩
  · rw [hidle]
  · rw [hedit]
    rfl

theorem toolchains_run {op : Operation} (hop : op.KeepsToolchains) (p : Project)
    (id : EnvironmentId) :
    ((op.run p).environment? id).map Environment.toolchains =
      (p.environment? id).map Environment.toolchains := by
  have hsame : ∀ {q : Project}, q.environments = p.environments →
      (q.environment? id).map Environment.toolchains =
        (p.environment? id).map Environment.toolchains := by
    intro q h
    rw [environment?_congr h]
  cases op with
  | setStrict | file | editGraph | editTarget | setDefault | addGroup => rfl
  | addEnvironment env => exact hop.elim
  | editEnvironment other change =>
      rw [Operation.run, editEnvironment, environment?, environment?, Array.getElem?_modify]
      split
      · rw [Option.map_map]
        exact congrArg (Option.map · _) (funext hop)
      · rfl
  | addTarget t => exact hsame (environments_addTarget _ p)
  | declareCompiled name type env sources =>
      obtain ⟨graph, hfiles⟩ := exists_graph_files p sources
      refine hsame ((environments_addTarget _ (p.files sources).2).trans ?_)
      rw [hfiles]
  | declareInterface | declareInstall => exact hsame (environments_addTarget _ p)
  | link other dep => exact hsame (environments_link other dep p)
  | collect other => exact hsame (Resolve.advances_collectRequirements other p).fixed.environments
  | effective other scope =>
      exact hsame (Resolve.advances_effectiveRequirements other scope p).fixed.environments
  | resolve exist => exact hsame (Resolve.advances_resolve exist p).fixed.environments

/-- While requirements are kept with a target, it has the same environment. -/
theorem separatedFlags_run {op : Operation} (hadmissible : op.Admissible p)
    (hop : op.KeepsToolchains) (hkept : (op.run p).memo? id ≠ none) :
    (op.run p).separatedFlags id = p.separatedFlags id := by
  obtain ⟨hextends, hid, -⟩ := (Operation.step hadmissible).kept hkept
  have henv := (reads_of_wishes (hextends.wishes id hid)).2.2.2
  refine separatedFlags_congr ?_
  rw [targetEnvironment?, targetEnvironment?, henv]
  cases (p.target? id).bind Target.env with
  | none => rfl
  | some env => exact toolchains_run hop p env

/-! ### Histories -/

variable {ops : List Operation}

theorem separatedFlags_history (hadmissible : AdmissibleAlong ops p)
    (hops : ∀ op ∈ ops, op.KeepsToolchains) (hkept : KeptAlong id ops p) :
    (history ops p).separatedFlags id = p.separatedFlags id := by
  induction ops generalizing p with
  | nil => rfl
  | cons op rest ih =>
      obtain ⟨hop, hrest⟩ := List.forall_mem_cons.mp hops
      exact (ih hadmissible.2 hrest hkept.2).trans (separatedFlags_run hadmissible.1 hop hkept.1)

theorem LinksExist.history (h : p.LinksExist) (hadmissible : AdmissibleAlong ops p) :
    (history ops p).LinksExist := by
  induction ops generalizing p with
  | nil => exact h
  | cons op rest ih => exact ih (h.step (Operation.step hadmissible.1)) hadmissible.2

/-- While requirements are kept, they are what would be gathered again under the flags
that they were gathered under. -/
theorem requirementsOf_history {flags : SeparatedFlags} (hlinks : p.LinksExist)
    (hadmissible : AdmissibleAlong ops p) (hkept : KeptAlong id ops p)
    (h : p.requirementsOf id = p.gatherWith flags id) :
    (history ops p).requirementsOf id = (history ops p).gatherWith flags id := by
  induction ops generalizing p with
  | nil => exact h
  | cons op rest ih =>
      have hstep := Operation.step hadmissible.1
      obtain ⟨hextends, hid, hsame⟩ := hstep.kept hkept.1
      refine ih (hlinks.step hstep) hadmissible.2 hkept.2 ?_
      rw [hsame, h, gatherWith_of_extends hextends hlinks hid]

/-- There is a last time when nothing is kept with a target. -/
theorem exists_keptAlong (hnone : p.memo? id = none) (ops : List Operation) :
    ∃ before after, before ++ after = ops ∧ (history before p).memo? id = none ∧
      KeptAlong id after (history before p) := by
  induction ops using List.reverseRecOn with
  | nil => exact ⟨[], [], rfl, hnone, trivial⟩
  | append_singleton ops op ih =>
      have hrun : history (ops ++ [op]) p = op.run (history ops p) := history_append ops [op] p
      -- either nothing is kept now, or the last time was an earlier one
      by_cases hkept : (op.run (history ops p)).memo? id = none
      · exact ⟨ops ++ [op], [], List.append_nil _, hrun ▸ hkept, trivial⟩
      · obtain ⟨before, after, rfl, hunkept, halong⟩ := ih
        refine ⟨before, after ++ [op], (List.append_assoc ..).symm, hunkept, ?_⟩
        rw [history_append] at hkept
        exact along_append.mpr ⟨halong, hkept, trivial⟩

/-- What is collected if everything that has been collected is discarded first. -/
theorem collectRequirements_forgetRequirements (p : Project) (id : TargetId) :
    ((collectRequirements id).run p.forgetRequirements).1 =
      p.gatherWith (p.separatedFlags id) id := by
  rw [(collectRequirements_run id _).1, requirementsOf_of_unkept (memo?_forgetRequirements p id)]
  have hgather : p.forgetRequirements.gatherRequirements = p.gatherRequirements := by
    refine gatherRequirements_congr rfl (Array.size_map ..) fun other => ?_
    rw [target?, forgetRequirements, Array.getElem?_map, Option.map_map]
    rfl
  exact congrFun hgather id

/-- What is collected for a target after a history of operations that put in admitted targets
only, whatever was collected on the way: its requirements and those of the targets that are
reached now, merged under the flags that took an argument when nothing was kept with the target
for the last time. If these flags are those that take an argument now, it is what would be
collected if all collected requirements were discarded first. They are if no environment has
been made since and no toolchain has been added to one. -/
theorem collectRequirements_transparent (name : String) (rootDir buildDir : Path)
    (ops : List Operation) (id : TargetId)
    (hadmissible : AdmissibleAlong ops { name, rootDir, buildDir }) :
    let start : Project := { name, rootDir, buildDir }
    let now := history ops start
    ∃ before after, before ++ after = ops ∧
      let last := history before start
      last.memo? id = none ∧ KeptAlong id after last ∧
      ((collectRequirements id).run now).1 = now.gatherWith (last.separatedFlags id) id ∧
      (last.separatedFlags id = now.separatedFlags id →
        ((collectRequirements id).run now).1 =
          ((collectRequirements id).run now.forgetRequirements).1) ∧
      ((∀ op ∈ after, op.KeepsToolchains) →
        last.separatedFlags id = now.separatedFlags id) := by
  intro start now
  have hempty : ∀ id, start.target? id = none := fun id => rfl
  have hlinks : start.LinksExist := by
    intro id t ht
    rw [hempty] at ht
    cases ht
  have hnone : start.memo? id = none := rfl
  obtain ⟨before, after, hsplit, hunkept, hkept⟩ := exists_keptAlong hnone ops
  rw [← hsplit] at hadmissible
  obtain ⟨hbefore, hafter⟩ := along_append.mp hadmissible
  have hnow : now = history after (history before start) := by
    rw [← history_append, hsplit]
  have hcollects : ((collectRequirements id).run now).1 =
      now.gatherWith ((history before start).separatedFlags id) id := by
    rw [(collectRequirements_run id now).1, hnow]
    exact requirementsOf_history (hlinks.history hbefore) hafter hkept
      (requirementsOf_of_unkept hunkept)
  refine ⟨before, after, hsplit, hunkept, hkept, hcollects, fun hflags => ?_, fun hops => ?_⟩
  · rw [hcollects, hflags, collectRequirements_forgetRequirements]
  · rw [hnow, separatedFlags_history hafter hops hkept]

/-- The requirements of `a` are collected, and then its environment is given a toolchain
whose flag `-framework` takes an argument. -/
def lateToolchain : List Operation := [
  .addEnvironment .initial,
  .declareCompiled "a" .object ⟨0⟩ [⟨"a.c"⟩],
  .addTarget { name := "b", type := .interface },
  .link ⟨0⟩ ⟨1⟩,
  .editTarget ⟨1⟩ fun t =>
    { t with publicReqs := { linkFlags := ["-framework", "A", "-framework", "B"] } },
  .collect ⟨0⟩,
  .editEnvironment ⟨0⟩ fun env => ((Environment.addToolchain (.unix .gcc .linux)).run.run env).2]

theorem admissibleAlong_lateToolchain : AdmissibleAlong lateToolchain { name := "late" } := by
  refine ⟨trivial, trivial, ⟨rfl, by simp⟩, trivial, fun t ht => ?_, trivial, trivial, trivial⟩
  have hlinked : ((history (lateToolchain.take 4) { name := "late" }).target? ⟨1⟩).map
      Target.dependencies = some [] := by
    cbv
  have hdependencies : t.dependencies = [] :=
    Option.some.inj ((congrArg (Option.map Target.dependencies) ht).symm.trans hlinked)
  exact ⟨rfl, by simp [hdependencies]⟩

theorem collectRequirements_transparent_lateToolchain :
    let start : Project := { name := "late" }
    let now := history lateToolchain start
    AdmissibleAlong lateToolchain start ∧
      ∃ before after, before ++ after = lateToolchain ∧
        let last := history before start
        last.memo? ⟨0⟩ = none ∧ KeptAlong ⟨0⟩ after last ∧
        ((collectRequirements ⟨0⟩).run now).1 = now.gatherWith (last.separatedFlags ⟨0⟩) ⟨0⟩ := by
  refine ⟨admissibleAlong_lateToolchain, ?_⟩
  obtain ⟨before, after, hsplit, hnone, hkept, hcollects, -⟩ :=
    collectRequirements_transparent "late" ⟨"."⟩ ⟨"build"⟩ lateToolchain ⟨0⟩
      admissibleAlong_lateToolchain
  exact ⟨before, after, hsplit, hnone, hkept, hcollects⟩

/-- The requirements of `b` are collected, and a copy of `b` that is changed takes its place. -/
def storedCopy : List Operation :=
  let declared := [.addTarget { name := "b", type := .interface }, .collect ⟨0⟩]
  let copied := ((history declared { name := "stored" }).target? ⟨0⟩).map fun t =>
    { t with privateReqs := { defines := ["X"] } }
  declared ++ [.editTarget ⟨0⟩ copied.getD]

/-- After a late toolchain, what is kept has lost the second `-framework`, which is now the
first word of a pair. A copy that is stored brings back what was kept before it was changed. -/
theorem not_forall_collectRequirements_transparent :
    (¬ ∀ (name : String) (rootDir buildDir : Path) (ops : List Operation) (id : TargetId),
      AdmissibleAlong ops { name, rootDir, buildDir } →
      let now := history ops { name, rootDir, buildDir }
      ((collectRequirements id).run now).1 =
        ((collectRequirements id).run now.forgetRequirements).1) ∧
    ¬ ∀ (name : String) (rootDir buildDir : Path) (ops : List Operation) (id : TargetId),
      (∀ op ∈ ops, op.KeepsToolchains) →
      let now := history ops { name, rootDir, buildDir }
      ((collectRequirements id).run now).1 =
        ((collectRequirements id).run now.forgetRequirements).1 := by
  constructor
  · intro h
    have hsame := congrArg Requirements.linkFlags
      (h "late" ⟨"."⟩ ⟨"build"⟩ lateToolchain ⟨0⟩ admissibleAlong_lateToolchain)
    have hkept : ((collectRequirements ⟨0⟩).run
        (history lateToolchain { name := "late" })).1.linkFlags = ["-framework", "A", "B"] := by
      cbv
    have hfresh : ((collectRequirements ⟨0⟩).run
        (history lateToolchain { name := "late" }).forgetRequirements).1.linkFlags =
          ["-framework", "A", "-framework", "B"] := by
      cbv
    exact absurd (hkept.symm.trans (hsame.trans hfresh)) (by decide)
  · intro h
    have hkeeps : ∀ op ∈ storedCopy, op.KeepsToolchains := by
      simp [storedCopy, Operation.KeepsToolchains]
    have hsame := congrArg Requirements.defines
      (h "stored" ⟨"."⟩ ⟨"build"⟩ storedCopy ⟨0⟩ hkeeps)
    have hkept : ((collectRequirements ⟨0⟩).run
        (history storedCopy { name := "stored" })).1.defines = [] := by
      cbv
    have hfresh : ((collectRequirements ⟨0⟩).run
        (history storedCopy { name := "stored" }).forgetRequirements).1.defines = ["X"] := by
      cbv
    exact absurd (hkept.symm.trans (hsame.trans hfresh)) (by decide)

end Project

end BuildPlan
