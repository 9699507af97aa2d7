import BuildPlan.Proofs.Resolve.Collision
import BuildPlan.Proofs.Resolve.Stability

/-!
# BuildPlan.Proofs.Resolve.Retry

Resolution that has failed, when it is repeated. A cycle is reported again. A
collision is met again, but it is reported of the first source that the target
compiles. A command that cannot be expanded is reported again unless one that the
first run left out comes before it. An install target that has too many sources is
not reported again: its plan has been taken.
-/

namespace BuildPlan

open Resolve

namespace Project

/-- A project that can be resolved: its ids are valid, and its targets have names of
their own. -/
structure WellFormed (p : Project) : Prop where
  sound : Sound ⟨p, [], []⟩
  grouped : p.graph.Grouped
  names : (p.targets.toList.map Target.name).Nodup

/-- A declared project can be resolved. -/
theorem Declared.wellFormed {p : Project} (h : Declared p)
    (hnames : (p.targets.toList.map Target.name).Nodup) : p.WellFormed :=
  ⟨h.fresh.sound, h.grouped, hnames⟩

/-- Is the report of a failed run made again by the next one? -/
def Persists (q : Project) : BuildError → Prop
  | .dependencyCycle _ => True
  | .target name (.sharedObject _ source _) =>
    ∃ id first, q.targetName id = name ∧ (q.compiledSources id).head? = some first ∧
      source = ⟨q.graph.name first⟩
  | .target _ _ => False
  | .validation _ _ => q.firstCommandError? = none
  | e => q.firstCommandError? = some e

theorem persists_iff_of_ofTemplate {q : Project} {e : BuildError} (h : e.OfTemplate) :
    q.Persists e ↔ q.firstCommandError? = some e := by
  cases e with
  | missingVariable | circularReference | substitution => exact Iff.rfl
  | dependencyCycle | missingSource | toolNotFound | target | duplicateTarget | unknownTarget
  | validation | manifest => exact h.elim

theorem WellFormed.target_unique {p : Project} {id id' : TargetId} {t t' : Target}
    (h : p.WellFormed) (ht : p.target? id = some t) (ht' : p.target? id' = some t')
    (hname : t.name = t'.name) : id = id' := by
  have hread : ∀ {id : TargetId} {t : Target}, p.target? id = some t →
      (p.targets.toList.map Target.name)[id.index]? = some t.name := by
    intro id t ht
    rw [List.getElem?_map, Array.getElem?_toList]
    exact Option.map_eq_some_iff.mpr ⟨t, ht, rfl⟩
  have hindex : id.index = id'.index := by
    refine (List.getElem?_inj (List.getElem?_eq_some_iff.mp (hread ht)).1 h.names).mp ?_
    rw [hread ht, hread ht', hname]
  cases id
  cases id'
  cases hindex
  rfl

theorem WellFormed.same_id {p q : Project} (hp : p.WellFormed) (hfixed : Fixed p ⟨q, [], []⟩)
    {id id' : TargetId} {t t' : Target} (ht : q.target? id = some t)
    (ht' : q.target? id' = some t') (hname : q.targetName id = q.targetName id') : id = id' := by
  have hdeclared : ∀ {t t₀ : Target}, t.declared = t₀.declared → t.name = t₀.name := by
    intro t t₀ h
    have hname := congrArg Target.name h
    exact hname
  obtain ⟨t₀, ht₀, hsame⟩ := hfixed.declared ht
  obtain ⟨t₀', ht₀', hsame'⟩ := hfixed.declared ht'
  rw [targetName, targetName, ht, ht'] at hname
  refine hp.target_unique ht₀ ht₀' ?_
  rw [← hdeclared hsame, ← hdeclared hsame']
  exact hname

end Project

namespace Resolve

open Build NodeGraph Project

variable {p q r compiled expanded copied installed : Project} {phase : Phase}
  {order : List TargetId} {exist : Path → Bool} {e : BuildError} {u : Unit}

/-! ### Where resolution fails -/

/-- A failed run of resolution, by the part that fails. -/
inductive Stops (exist : Path → Bool) (p : Project) (e : BuildError) : Project → Prop
  | order (hcycle : p.buildOrder = .error e) : Stops exist p e p
  | compile {order : List TargetId} {q : Project} (hordered : p.buildOrder = .ok order)
      (hfails : Fails (order.forM resolveTarget) p e q) : Stops exist p e q
  | expand {order : List TargetId} {compiled q : Project} (hordered : p.buildOrder = .ok order)
      (hcompile : Yields (order.forM resolveTarget) p ⟨⟩ compiled)
      (hfails : Fails (expandCommands 0) compiled e q) : Stops exist p e q
  | install {order : List TargetId} {compiled expanded q : Project}
      (hordered : p.buildOrder = .ok order)
      (hcompile : Yields (order.forM resolveTarget) p ⟨⟩ compiled)
      (hexpand : Yields (expandCommands 0) compiled () expanded)
      (hfails : Fails (order.forM install) expanded e q) : Stops exist p e q
  | finish {order : List TargetId} {compiled expanded copied installed q : Project}
      (hordered : p.buildOrder = .ok order)
      (hcompile : Yields (order.forM resolveTarget) p ⟨⟩ compiled)
      (hexpand : Yields (expandCommands 0) compiled () expanded)
      (hinstall : Yields (order.forM install) expanded ⟨⟩ copied)
      (hgroup : Yields (copied.groups.forM fun (label, targets) => makeGroup label targets) copied
        ⟨⟩ installed)
      (hfails : Fails (expandCommands expanded.graph.size) installed e q) : Stops exist p e q
  | validate {q : Project} {first : BuildError} {rest : List BuildError}
      (hall : Yields resolveAll p () q) (hstrict : q.strict = true)
      (hproblems : q.validate exist = first :: rest)
      (he : e = .validation first (first :: rest).length) : Stops exist p e q

theorem not_fails_makeGroups {groups : List (String × List TargetId)} :
    ¬ Fails (groups.forM fun (label, targets) => makeGroup label targets) p e q := by
  intro hfails
  obtain ⟨_, ⟨label, targets⟩, _, r, -, -, hmake⟩ := fails_forM.mp hfails
  change Fails (makeGroup label targets) r e q at hmake
  rw [makeGroup, fails_get_bind] at hmake
  exact not_fails_set hmake

theorem fails_enforce_iff : Fails (enforce exist) p e q ↔
    q = p ∧ p.strict = true ∧ ∃ first rest, p.validate exist = first :: rest ∧
      e = .validation first (first :: rest).length := by
  rw [enforce, fails_get_bind]
  cases hproblems : p.validate exist with
  | nil => simp
  | cons first rest =>
      cases hstrict : p.strict with
      | false => simp
      | true =>
          simp only [if_true, fails_throw]
          constructor
          · rintro ⟨rfl, rfl⟩
            exact ⟨rfl, trivial, first, rest, rfl, rfl⟩
          · rintro ⟨rfl, -, _, _, heq, rfl⟩
            cases heq
            exact ⟨rfl, rfl⟩

theorem fails_resolveAll (h : Fails resolveAll p e q) : Stops exist p e q := by
  rw [resolveAll, fails_get_bind] at h
  rcases fails_bind.mp h with hcycle | ⟨order, _, hordered, hturns⟩
  · obtain ⟨hcycle, rfl⟩ := fails_liftExcept.mp hcycle
    exact .order hcycle
  obtain ⟨hordered, rfl⟩ := yields_liftExcept.mp hordered
  rcases fails_bind.mp hturns with hfails | ⟨_, compiled, hcompile, hcommands⟩
  · exact .compile hordered hfails
  rcases fails_bind.mp hcommands with hfails | ⟨_, expanded, hexpand, hinstalls⟩
  · exact .expand hordered hcompile hfails
  rw [fails_get_bind] at hinstalls
  rcases fails_bind.mp hinstalls with hfails | ⟨_, copied, hinstall, hgroups⟩
  · exact .install hordered hcompile hexpand hfails
  rw [fails_get_bind] at hgroups
  rcases fails_bind.mp hgroups with hfails | ⟨_, installed, hgroup, hfails⟩
  · exact absurd hfails not_fails_makeGroups
  · exact .finish hordered hcompile hexpand hinstall hgroup hfails

theorem fails_resolve (h : Fails (Project.resolve exist) p e q) : Stops exist p e q := by
  rcases fails_bind.mp h with hall | ⟨_, r, hall, hfails⟩
  · exact fails_resolveAll hall
  · obtain ⟨rfl, hstrict, first, rest, hproblems, he⟩ := fails_enforce_iff.mp hfails
    exact .validate hall hstrict hproblems he

/-! ### A project whose targets have had their turns -/

/-- The targets of `p` have had their turns. -/
structure PastTurns (p : Project) (order : List TargetId) (q : Project) : Prop where
  ordered : q.buildOrder = .ok order
  sound : Sound ⟨q, [], []⟩
  fixed : Fixed p ⟨q, [], []⟩
  settled : ∀ id ∈ order, Settled q id

theorem pastTurns_of_compiled (hsound : Sound ⟨p, [], []⟩) (hordered : p.buildOrder = .ok order)
    (hcompile : Yields (order.forM resolveTarget) p ⟨⟩ compiled) : PastTurns p order compiled := by
  have hchanges := resolveTargets_changes hsound hcompile
  exact ⟨hchanges.fixed.buildOrder.trans hordered, hchanges.sound hsound, hchanges.fixed,
    resolveTargets_settled hcompile⟩

theorem Sound.between {made : List NodeId} {jobs : List Job} (h : Sound ⟨p, made, jobs⟩) :
    Sound ⟨p, [], []⟩ :=
  ⟨h.indexed, h.targets, by simp⟩

theorem PastTurns.later {made : List NodeId} {jobs : List Job} (h : PastTurns p order r)
    (hchanges : Changes phase ⟨r, [], []⟩ ⟨q, made, jobs⟩) : PastTurns p order q := by
  have hfixed := hchanges.fixed
  refine ⟨hfixed.buildOrder.trans h.ordered, (hchanges.sound h.sound).between,
    ⟨hfixed.buildDir.trans h.fixed.buildDir, hfixed.environments.trans h.fixed.environments,
      fun id => (hfixed.targets id).trans (h.fixed.targets id)⟩,
    fun id hid => hchanges.settled (h.settled id hid)⟩

theorem PastTurns.expand {start : Nat} (h : PastTurns p order r)
    (hexpand : Yields (expandCommands start) r () q) : PastTurns p order q :=
  h.later (expandCommands_changes h.sound hexpand)

theorem PastTurns.install {ids : List TargetId} (h : PastTurns p order r)
    (hinstall : Yields (ids.forM install) r ⟨⟩ q) : PastTurns p order q :=
  h.later (forM_changes (fun _ _ _ _ hs => install_changes hs) h.sound hinstall)

theorem PastTurns.group {groups : List (String × List TargetId)} (h : PastTurns p order r)
    (hgroup : Yields (groups.forM fun (label, targets) => makeGroup label targets) r ⟨⟩ q) :
    PastTurns p order q :=
  h.later (forM_changes (fun _ _ _ _ _ => makeGroup_changes) h.sound hgroup)

theorem PastTurns.turns (h : PastTurns p order q) : Yields (order.forM resolveTarget) q ⟨⟩ q :=
  turns_idle h.settled

/-- A command that cannot be expanded is what the next run reports. -/
theorem PastTurns.fails_of_commandError (h : PastTurns p order q)
    (herror : q.firstCommandError? = some e) (exist : Path → Bool) :
    ∃ q', Fails (Project.resolve exist) q e q' := by
  have hall : (q.graph.ids.drop 0).findSome? q.commandError? = some e := herror
  obtain ⟨q', hfails⟩ := exists_fails_expandCommands hall
  refine ⟨q', fails_bind.mpr (.inl ?_)⟩
  rw [resolveAll, fails_get_bind]
  refine fails_bind.mpr (.inr ⟨order, q, yields_liftExcept.mpr ⟨h.ordered, rfl⟩, ?_⟩)
  exact fails_bind.mpr (.inr ⟨⟨⟩, q, h.turns, fails_bind.mpr (.inl hfails)⟩)

theorem PastTurns.fails_iff_of_commandError (h : PastTurns p order q) {e' : BuildError}
    (herror : q.firstCommandError? = some e') :
    (∃ q', Fails (Project.resolve exist) q e q') ↔ e = e' := by
  obtain ⟨r, hfails'⟩ := h.fails_of_commandError herror exist
  constructor
  · rintro ⟨q', hfails⟩
    exact (hfails'.unique hfails).1
  · rintro rfl
    exact ⟨r, hfails'⟩

/-! ### A project that has been resolved -/

/-- Everything has been done, unless commands are left. -/
structure Finished (p : Project) (order : List TargetId) (q : Project) : Prop
    extends PastTurns p order q, Complete order q

theorem Runs.finished (hp : p.WellFormed)
    (h : Runs p order compiled expanded copied installed q) : Finished p order q := by
  have hcompiled := pastTurns_of_compiled hp.sound h.ordered h.compile
  have hinstalled := ((hcompiled.expand h.expand).install h.install).group h.group
  have hcomplete := h.complete hp.grouped.known
  exact ⟨hinstalled.expand h.finish, hcomplete.plans, hcomplete.groups⟩

/-- Problems that validation finds are found again. -/
theorem Finished.fails_enforce (h : Finished p order q) (hnone : q.firstCommandError? = none)
    (hfails : Fails (enforce exist) q e q) : ∃ q', Fails (Project.resolve exist) q e q' := by
  obtain ⟨q', hall, hgains⟩ := h.toComplete.again hnone
  have hsame := hgains.same
  obtain ⟨-, hstrict, first, rest, hproblems, he⟩ := fails_enforce_iff.mp hfails
  refine ⟨q', fails_bind.mpr (.inr ⟨(), q', hall, fails_enforce_iff.mpr ⟨rfl, ?_, first, rest,
    (hsame.validate exist).trans hproblems, he⟩⟩)⟩
  rw [hsame.project]
  exact hstrict

/-! ### The next run -/

/-- A collision is reported again if it is reported of the source that is compiled
first. -/
theorem collision_persists_iff (hp : p.WellFormed) (hordered : p.buildOrder = .ok order)
    (hfails : Fails (order.forM resolveTarget) p e q) (exist : Path → Bool) :
    ((∃ q', Fails (Project.resolve exist) q e q') ↔ q.Persists e) ∧
      ∃ e' q', Fails (Project.resolve exist) q e' q' ∧
        ∃ id first, (q.compiledSources id).head? = some first ∧ Blames q id first e' := by
  obtain ⟨id, t, env, a, done, c, source, hat⟩ := exists_failsAt hp.sound hfails
  obtain ⟨first, e', hfirst, ⟨other', place', he'⟩, hsame, r, hagain⟩ :=
    hat.again hp.sound hordered exist
  obtain ⟨hlater, _, _, _, _, -⟩ := hat.blocked hp.sound
  obtain ⟨_, _, -, hbefore⟩ := hat.turn
  have hchanges : Changes .compile ⟨p, [], []⟩ ⟨q, [], []⟩ :=
    (resolveTargets_changes hp.sound hbefore).trans hlater
  obtain ⟨other, place, he⟩ := hat.collides.blames
  refine ⟨⟨?_, ?_⟩, e', r, hagain, id, first, hfirst, other', place', he'⟩
  · rintro ⟨q', hfails'⟩
    obtain ⟨heq, -⟩ := hagain.unique hfails'
    rw [← heq, he] at he'
    have hproblem := (BuildError.target.inj he').2
    rw [he]
    exact ⟨id, first, rfl, hfirst, (TargetProblem.sharedObject.inj hproblem).2.1⟩
  · intro hpersists
    rw [he] at hpersists
    obtain ⟨id', first', hname, hfirst', hsource⟩ := hpersists
    have hid : id' = id := by
      obtain ⟨_, _, _, ht', -⟩ := mem_compiledSources.mp (List.mem_of_head? hfirst')
      obtain ⟨_, _, _, ht, -⟩ := mem_compiledSources.mp (List.mem_of_head? hfirst)
      exact hp.same_id hchanges.fixed ht' ht hname
    subst hid
    rw [hfirst] at hfirst'
    cases hfirst'
    rw [← hsame (by simpa using hsource)]
    exact ⟨r, hagain⟩

/-- A target that was refused has no plan left, so it is not refused again. -/
theorem refusal_not_again {expanded : Project} (hp : p.WellFormed)
    (hpast : PastTurns p order expanded) (hfails : Fails (order.forM install) expanded e q)
    (exist : Path → Bool) :
    (∃ name count, e = .target name (.tooManySources count)) ∧
      ¬ ∃ q', Fails (Project.resolve exist) q e q' := by
  obtain ⟨id, count, rfl, ⟨plan, hplan⟩, htaken, made, jobs, hchanges⟩ :=
    fails_installs hpast.sound hfails
  have hlater := hpast.later hchanges
  refine ⟨⟨_, count, rfl⟩, ?_⟩
  rintro ⟨q', hagain⟩
  have hfixed := hchanges.fixed
  cases fails_resolve hagain with
  | order hcycle =>
      rw [hlater.ordered] at hcycle
      cases hcycle
  | compile hordered hfails =>
      rw [hlater.ordered] at hordered
      cases hordered
      exact hlater.turns.not_fails hfails
  | expand _ _ hfails => exact ofTemplate_of_fails hfails
  | finish _ _ _ _ _ hfails => exact ofTemplate_of_fails hfails
  | validate _ _ _ he => cases he
  | install hordered hcompile hexpand hfails =>
      rw [hlater.ordered] at hordered
      cases hordered
      have hcompiled := hlater.turns
      rw [Yields, hcompile] at hcompiled
      cases hcompiled
      have hcommands := expandCommands_changes hlater.sound hexpand
      obtain ⟨id', count', he, ⟨plan', hplan'⟩, -⟩ :=
        fails_installs (hlater.expand hexpand).sound hfails
      -- the target that is refused now had a plan left, and another name
      have hwaiting := hcommands.plan? hplan'
      obtain ⟨t, ht, -⟩ := Option.bind_eq_some_iff.mp hplan
      obtain ⟨t₁, ht₁, -⟩ := hfixed.exists_target ht
      obtain ⟨t₂, ht₂, -⟩ := Option.bind_eq_some_iff.mp hwaiting
      have hname : q.targetName id = q.targetName id' := by
        have heq := (BuildError.target.inj he).1
        rw [hcommands.fixed.targetName] at heq
        rw [hfixed.targetName] at heq ⊢
        exact heq
      have hid := hp.same_id hlater.fixed ht₁ ht₂ hname
      rw [← hid, htaken] at hwaiting
      cases hwaiting

/-- What the run after a failed one reports, which left `q` and reported `e`: the same, or
a command that cannot be expanded, or a collision of the source that its target compiles
first. -/
def Follows (q : Project) (e e' : BuildError) : Prop :=
  e' = e ∨ q.firstCommandError? = some e' ∨
    ∃ id first, (q.compiledSources id).head? = some first ∧ Blames q id first e'

/-- After its turns a run has a command that cannot be expanded. The next one ends at the
first such command. -/
theorem PastTurns.command_persists_iff (h : PastTurns p order q) {first : BuildError}
    (herror : q.firstCommandError? = some first) (htemplate : e.OfTemplate)
    (exist : Path → Bool) :
    ((∃ q', Fails (Project.resolve exist) q e q') ↔ q.Persists e) ∧
      ∃ e' q', Fails (Project.resolve exist) q e' q' ∧ Follows q e e' := by
  obtain ⟨q', hfails⟩ := h.fails_of_commandError herror exist
  refine ⟨?_, first, q', hfails, .inr (.inl herror)⟩
  rw [h.fails_iff_of_commandError herror, persists_iff_of_ofTemplate htemplate, herror,
    Option.some.injEq, eq_comm]

/-- What validation finds is found again, unless the next run ends at a command before. -/
theorem Finished.validation_persists_iff (h : Finished p order q)
    {first : BuildError} {rest : List BuildError} (hstrict : q.strict = true)
    (hproblems : q.validate exist = first :: rest)
    (he : e = .validation first (first :: rest).length) :
    ((∃ q', Fails (Project.resolve exist) q e q') ↔ q.Persists e) ∧
      ∃ e' q', Fails (Project.resolve exist) q e' q' ∧ Follows q e e' := by
  have hpersists : q.Persists e ↔ q.firstCommandError? = none := by
    rw [he]
    exact Iff.rfl
  cases hfirst : q.firstCommandError? with
  | none =>
      obtain ⟨q', hagain⟩ := h.fails_enforce hfirst
        (fails_enforce_iff.mpr ⟨rfl, hstrict, first, rest, hproblems, he⟩)
      exact ⟨iff_of_true ⟨q', hagain⟩ (hpersists.mpr hfirst), e, q', hagain, .inl rfl⟩
  | some e' =>
      obtain ⟨q', hagain⟩ := h.fails_of_commandError hfirst exist
      refine ⟨?_, e', q', hagain, .inr (.inl hfirst)⟩
      rw [h.fails_iff_of_commandError hfirst, hpersists, hfirst]
      refine iff_of_false ?_ (Option.some_ne_none e')
      rintro rfl
      have htemplate := ofTemplate_of_firstCommandError? hfirst
      rw [he] at htemplate
      exact htemplate

/-- A run that fails is followed by one that fails alike exactly if its report persists:
a cycle always, a collision if it is reported of the source that its target compiles
first, a template if no node before its own has a command that cannot be expanded, what
validation finds if there is no such node, and too many sources never. In every other
case than the last the next run fails, too. -/
theorem fails_again_iff_persists (hp : p.WellFormed) (h : Fails (Project.resolve exist) p e q) :
    ((∃ q', Fails (Project.resolve exist) q e q') ↔ q.Persists e) ∧
      ((∀ name count, e ≠ .target name (.tooManySources count)) →
        ∃ e' q', Fails (Project.resolve exist) q e' q' ∧ Follows q e e') := by
  cases fails_resolve h with
  | order hcycle =>
      obtain ⟨_, -, rfl⟩ := buildOrder_error hcycle
      exact ⟨iff_of_true ⟨p, h⟩ trivial, fun _ => ⟨_, p, h, .inl rfl⟩⟩
  | compile hordered hfails =>
      obtain ⟨hiff, e', q', hagain, hblames⟩ := collision_persists_iff hp hordered hfails exist
      exact ⟨hiff, fun _ => ⟨e', q', hagain, .inr (.inr hblames)⟩⟩
  | expand hordered hcompile hfails =>
      have hcompiled := pastTurns_of_compiled hp.sound hordered hcompile
      obtain ⟨herror, hsame, hchanges⟩ := fails_expandCommands hfails
      have hfirst : q.firstCommandError? = some e := hsame.first.trans herror
      have hpast := hcompiled.later (hchanges hcompiled.sound)
      obtain ⟨hiff, hagain⟩ :=
        hpast.command_persists_iff hfirst (ofTemplate_of_firstCommandError? hfirst) exist
      exact ⟨hiff, fun _ => hagain⟩
  | install hordered hcompile hexpand hfails =>
      have hexpanded := (pastTurns_of_compiled hp.sound hordered hcompile).expand hexpand
      obtain ⟨⟨name, count, rfl⟩, hnot⟩ := refusal_not_again hp hexpanded hfails exist
      exact ⟨iff_of_false hnot id, fun hne => absurd rfl (hne name count)⟩
  | finish hordered hcompile hexpand hinstall hgroup hfails =>
      have hinstalled := (((pastTurns_of_compiled hp.sound hordered hcompile).expand
        hexpand).install hinstall).group hgroup
      obtain ⟨-, -, hchanges⟩ := fails_expandCommands hfails
      obtain ⟨id, hid, herror⟩ := exists_commandError_of_fails hfails
      -- the node that stopped this run stops the next one, if none before it does
      obtain ⟨first, hfirst⟩ := exists_firstCommandError? hid herror
      have hpast := hinstalled.later (hchanges hinstalled.sound)
      obtain ⟨hiff, hagain⟩ :=
        hpast.command_persists_iff hfirst (ofTemplate_of_commandError? herror) exist
      exact ⟨hiff, fun _ => hagain⟩
  | validate hall hstrict hproblems he =>
      obtain ⟨order, _, _, _, _, hruns⟩ := yields_resolveAll_iff.mp hall
      obtain ⟨hiff, hagain⟩ := (hruns.finished hp).validation_persists_iff hstrict hproblems he
      exact ⟨hiff, fun _ => hagain⟩

/-! ### A target that is refused once -/

/-- A target that copies two files to one place. -/
def crowdedTarget : Target where
  name := "t"
  type := .install
  env := some ⟨0⟩
  pending := some { sources := [.node ⟨0⟩, .node ⟨1⟩], destination := .file ⟨"c"⟩ }

/-- The files `a` and `b`, which can be copied. -/
def twoFiles : Project :=
  let p : Project := { name := "crowded" }
  (((p.addEnvironment copyTools).2.file ⟨"a"⟩).2.file ⟨"b"⟩).2

def crowded : Project := { twoFiles with targets := #[crowdedTarget] }

/-- The project that the failed run leaves. -/
def refused : Project := ((Project.resolve fun _ => true).run.run crowded).2

theorem declared_crowded : Declared crowded := by
  have hfiles : Declared twoFiles :=
    (((Declared.new "crowded" ⟨"."⟩ ⟨"build"⟩ false).environment copyTools).file ⟨"a"⟩).file ⟨"b"⟩
  have hsize : twoFiles.graph.size = 2 := by cbv
  have hfresh : crowdedTarget.Fresh twoFiles.graph := by
    refine ⟨rfl, rfl, rfl, fun _ => rfl, fun node hnode => ?_⟩
    have hcases : node = ⟨0⟩ ∨ node = ⟨1⟩ := by
      simpa [crowdedTarget, Target.nodes, InstallPlan.nodes] using hnode
    rcases hcases with rfl | rfl <;> simp [hsize]
  have hadd : Yields (addTarget crowdedTarget) twoFiles ⟨0⟩ crowded := by
    unfold Yields
    cbv
  exact hfiles.target hfresh hadd

theorem wellFormed_crowded : crowded.WellFormed :=
  declared_crowded.wellFormed (List.nodup_singleton "t")

theorem fails_crowded :
    Fails (Project.resolve fun _ => true) crowded (.target "t" (.tooManySources 2)) refused :=
  Prod.ext (by cbv) rfl

theorem yields_refused : ∃ q, Yields (Project.resolve fun _ => true) refused () q :=
  ⟨((Project.resolve fun _ => true).run.run refused).2, Prod.ext (by cbv) rfl⟩

/-- A target that was refused is not refused again. -/
theorem fails_again_iff_persists_refused :
    crowded.WellFormed ∧
      Fails (Project.resolve fun _ => true) crowded (.target "t" (.tooManySources 2)) refused ∧
      ¬ ∃ q, Fails (Project.resolve fun _ => true) refused (.target "t" (.tooManySources 2)) q :=
  ⟨wellFormed_crowded, fails_crowded,
    (fails_again_iff_persists wellFormed_crowded fails_crowded).1.not.mpr id⟩

/-- The next run may even succeed. -/
theorem not_forall_fails_again : ¬ ∀ (p q : Project) (exist : Path → Bool) (e : BuildError),
    Declared p → Fails (Project.resolve exist) p e q →
      ∃ q', Fails (Project.resolve exist) q e q' := by
  intro hall
  obtain ⟨q', hfails⟩ := hall crowded refused _ _ declared_crowded fails_crowded
  obtain ⟨q, hyields⟩ := yields_refused
  exact hyields.not_fails hfails

end Resolve

end BuildPlan
