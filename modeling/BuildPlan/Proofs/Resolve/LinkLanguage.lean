import BuildPlan.Proofs.Resolve.CompileSteps
import BuildPlan.Proofs.Resolve.OrderingEdges

/-!
# BuildPlan.Proofs.Resolve.LinkLanguage

The language of a link step. In its turn a target notes the languages of the handlers that
compile its sources. When its output is made, all that it depends on has had its turn. So a
step links as C++ exactly if the target or something that it reaches compiles C++ or
Objective-C++.
-/

namespace BuildPlan

open Resolve

/-- The language as which the sources at a path are compiled. -/
def Environment.languageOf? (env : Environment) (path : Path) : Option String :=
  (findHandler env path.suffix).map fun (_, handler) => handler.language

namespace Target

variable {language other : String} {known extra : List String}

theorem mem_insertLanguage :
    other ∈ insertLanguage language known ↔ other = language ∨ other ∈ known := by
  induction known with
  | nil => simp [insertLanguage]
  | cons first rest ih =>
      rw [insertLanguage]
      split
      · next heq => simp [heq]
      · split
        · simp
        · simp [ih, or_left_comm]

theorem mem_mergeLanguages :
    other ∈ mergeLanguages known extra ↔ other ∈ known ∨ other ∈ extra := by
  induction extra generalizing known with
  | nil => simp [mergeLanguages]
  | cons first rest ih =>
      have hstep : mergeLanguages known (first :: rest) =
          mergeLanguages (insertLanguage first known) rest := rfl
      rw [hstep, ih, mem_insertLanguage, List.mem_cons, or_comm (a := other = first), or_assoc]

end Target

namespace Project

variable {p q : Project} {id owner : TargetId} {language : String}

/-- The languages that a target has noted. -/
def languagesOf (p : Project) (id : TargetId) : List String :=
  ((p.target? id).map Target.languages).getD []

/-- A source of the target is compiled in the language. -/
def Speaks (p : Project) (id : TargetId) (language : String) : Prop :=
  ∃ env, p.targetEnvironment? id = some env ∧
    ∃ source ∈ p.compiledSources id, env.languageOf? ⟨p.graph.name source⟩ = some language

/-- The target or one that it depends on compiles a source as C++ or Objective-C++. -/
def SpeaksCxx (p : Project) (id : TargetId) : Prop :=
  ∃ owner, (owner = id ∨ p.Reaches id owner) ∧ (p.Speaks owner "cxx" ∨ p.Speaks owner "objcxx")

theorem mem_allLanguages : language ∈ p.allLanguages id ↔
    ∃ owner, (owner = id ∨ owner ∈ p.transitiveDependencies id) ∧
      language ∈ p.languagesOf owner := by
  have hfold : ∀ (ids : List TargetId) (known : List String),
      language ∈ ids.foldl (fun known id => Target.mergeLanguages known (p.languagesOf id)) known ↔
        language ∈ known ∨ ∃ owner ∈ ids, language ∈ p.languagesOf owner := by
    intro ids
    induction ids with
    | nil => simp
    | cons first rest ih =>
        intro known
        rw [List.foldl_cons, ih, Target.mem_mergeLanguages]
        simp [or_assoc]
  refine (hfold _ _).trans ?_
  simp

end Project

namespace Resolve

open Build NodeGraph Project

variable {p q r a b : Project} {id : TargetId} {envId : EnvironmentId} {env : Environment}
  {source node : NodeId} {sources done : List NodeId} {c c' : Compilation} {graph : NodeGraph}
  {reqs : EffectiveRequirements} {step : BuildStep} {t : Target} {order : List TargetId}
  {language : String} {u : Unit}

/-! ### The languages of sources -/

theorem languages_compileSource (henvId : p.environment? envId = some env)
    (h : Yields (compileSource id envId reqs c source) p c' q) :
    language ∈ c'.languages ↔ language ∈ c.languages ∨
      env.Compiles ⟨p.graph.name source⟩ ∧
        env.languageOf? ⟨p.graph.name source⟩ = some language := by
  have hcompiles : env.Compiles ⟨p.graph.name source⟩ ↔ _ := Environment.compiles_iff
  rw [compileSource, yields_get_bind] at h
  simp only [henvId] at h
  split at h
  · -- a linker flag
    next handler hfound =>
      obtain ⟨rfl, -⟩ := yields_pure.mp h
      simp [hcompiles, hfound]
  next hnoflag =>
  split at h
  · next hnone =>
      obtain ⟨rfl, -⟩ := yields_pure.mp h
      split <;> simp [Compilation.addObject, hcompiles, hnone]
  next tc handler hhandler =>
  have hlanguages : c'.languages = Target.insertLanguage handler.language c.languages := by
    split at h
    · obtain ⟨rfl, -⟩ := yields_pure.mp h
      rfl
    · obtain ⟨object, r, -, h⟩ := yields_bind.mp h
      obtain ⟨rfl, -⟩ := yields_pure.mp h
      rfl
  have hnone := Option.eq_none_iff_forall_ne_some.mpr hnoflag
  rw [hlanguages, Target.mem_insertLanguage, or_comm, hcompiles, Environment.languageOf?, hhandler]
  simp [hnone, eq_comm]

/-- Compiling sources notes the languages of those that are compiled. -/
theorem languages_compileSources (h : Caching p id env done c graph)
    (hsources : ∀ source ∈ sources, source.index < p.graph.size)
    (henvId : p.environment? envId = some env) (henv : p.targetEnvironment? id = some env)
    (hrun : Yields (sources.foldlM (compileSource id envId reqs) c) { p with graph } c' q) :
    language ∈ c'.languages ↔ language ∈ c.languages ∨
      ∃ source ∈ p.compiledBy env sources,
        env.languageOf? ⟨p.graph.name source⟩ = some language := by
  induction sources generalizing done c graph with
  | nil =>
      obtain ⟨rfl, -⟩ := yields_pure.mp hrun
      simp [compiledBy]
  | cons source rest ih =>
      rw [List.foldlM_cons, yields_bind] at hrun
      obtain ⟨c₁, r, hfirst, hrest⟩ := hrun
      obtain ⟨hsource, hothers⟩ := List.forall_mem_cons.mp hsources
      have hname : graph.name source = p.graph.name source := h.keeps.names source hsource
      have hlanguages : language ∈ c₁.languages ↔ language ∈ c.languages ∨
          env.Compiles ⟨p.graph.name source⟩ ∧
            env.languageOf? ⟨p.graph.name source⟩ = some language :=
        hname ▸ languages_compileSource (p := { p with graph }) henvId hfirst
      obtain ⟨graph₁, rfl, h₁⟩ := compileSource_caching h hsource henvId henv hfirst
      rw [ih h₁ hothers hrest, hlanguages, or_assoc]
      simp [mem_compiledBy, or_and_right, exists_or, and_assoc]

/-- Without its environment a target compiles nothing. -/
theorem compileSources_of_none (henvId : p.environment? envId = none)
    (h : Yields (sources.foldlM (compileSource id envId reqs) c) p c' q) : c' = c := by
  induction sources with
  | nil => exact (yields_pure.mp h).1
  | cons source rest ih =>
      rw [List.foldlM_cons, compileSource, yields_bind] at h
      obtain ⟨c₁, r, hfirst, hrest⟩ := h
      rw [yields_get_bind, henvId] at hfirst
      obtain ⟨rfl, rfl⟩ := yields_pure.mp hfirst
      exact ih hrest

/-! ### The languages of targets -/

theorem not_speaks_of_settled (hfresh : p.Fresh) (h : Settled p id) : ¬ p.Speaks id language := by
  rintro ⟨env, -, source, hsource, -⟩
  obtain ⟨t, envId, -, ht, htype, henvId, -⟩ := mem_compiledSources.mp hsource
  rcases h t ht with hresolved | hinstall | ⟨-, hnone⟩
  · rw [(hfresh.targets id t ht).unresolved] at hresolved
    cases hresolved
  · rw [hinstall] at htype
    cases htype
  · rw [hnone] at henvId
    cases henvId

/-- After its turn a target has noted the languages of the sources that it compiles. -/
theorem Turn.mem_languagesOf (hfresh : p.Fresh) (hnodup : order.Nodup)
    (hnone : p.languagesOf id = []) (h : Turn order p id a b q) :
    language ∈ q.languagesOf id ↔ p.Speaks id language := by
  have hwaiting := h.waiting hnodup
  have hkept : q.languagesOf id = b.languagesOf id := by
    rw [languagesOf, languagesOf, h.kept hnodup]
  have hdeclared : a.languagesOf id = [] := by rw [← hnone, languagesOf, languagesOf, hwaiting]
  have hrun := h.turn
  rcases settled_or_open a id with hsettled | ⟨t, ht, hopen, htype | ⟨envId, htype, henvId⟩⟩
  · -- nothing happens, and there is nothing to compile
    rw [Yields, hsettled.yields] at hrun
    cases hrun
    rw [hkept, hdeclared, iff_false_left List.not_mem_nil]
    refine not_speaks_of_settled hfresh ?_
    rwa [Settled, ← hwaiting]
  · rw [Yields, run_resolveTarget_interface ht hopen htype] at hrun
    have hnothing : b.languagesOf id = [] := by
      rw [← hdeclared, yields_modify.mp hrun, languagesOf, languagesOf, target?_modifyTarget,
        if_pos rfl, ht]
      rfl
    rw [hkept, hnothing, iff_false_left List.not_mem_nil]
    rintro ⟨env, -, source, hsource, -⟩
    obtain ⟨t', _, _, ht', htype', -⟩ := mem_compiledSources.mp hsource
    rw [← hwaiting, ht] at ht'
    cases ht'
    rw [htype] at htype'
    cases htype'
  · rw [hwaiting] at ht
    obtain ⟨begun, c, graph, hin⟩ := h.compiledIn hfresh hnodup ht htype henvId
    obtain ⟨t', ht', -, hlanguages⟩ := hin.notes
    have hpreset : t.languages = [] := by rwa [languagesOf, ht] at hnone
    have htarget : p.targetEnvironment? id = p.environment? envId := by
      rw [targetEnvironment?, ht, Option.bind_some, henvId, Option.bind_some]
    have hnoted : q.languagesOf id = Target.mergeLanguages [] c.languages := by
      rw [hkept, languagesOf, ht', ← hpreset, ← hlanguages]
      rfl
    rw [hnoted, Target.mem_mergeLanguages, or_iff_right List.not_mem_nil]
    have hsame : begun.environment? envId = p.environment? envId := by
      rw [environment?_congr hin.same.fixed.environments]
    cases henv : p.environment? envId with
    | none =>
        rw [henv] at hsame htarget
        rw [compileSources_of_none hsame hin.compile, iff_false_left List.not_mem_nil]
        rintro ⟨env, hsome, -⟩
        rw [htarget] at hsome
        cases hsome
    | some env =>
        rw [henv] at hsame htarget
        have hcompiled : language ∈ c.languages ↔ _ :=
          languages_compileSources (.start hin.indexed) hin.within hsame
            ((hin.same.targetEnvironment? id).trans htarget) hin.compile
        rw [hcompiled, or_iff_right List.not_mem_nil, hin.same.compiledBy ht env,
          ← compiledSources_eq ht htype htarget]
        have hname : ∀ source ∈ p.compiledSources id,
            begun.graph.name source = p.graph.name source := by
          intro source hsource
          rw [compiledSources_eq ht htype htarget] at hsource
          exact hin.same.names id t ht source (mem_compiledBy.mp hsource).1
        constructor
        · rintro ⟨source, hsource, hlanguage⟩
          exact ⟨env, htarget, source, hsource, hname source hsource ▸ hlanguage⟩
        · rintro ⟨env', htarget', source, hsource, hlanguage⟩
          rw [htarget] at htarget'
          cases htarget'
          exact ⟨source, hsource, (hname source hsource).symm ▸ hlanguage⟩

/-- When all targets are compiled, each has noted the languages of its own sources. -/
theorem Runs.mem_languagesOf {compiled expanded copied installed : Project} (hfresh : p.Fresh)
    (hnone : ∀ id, p.languagesOf id = [])
    (h : Runs p order compiled expanded copied installed q) (id : TargetId) :
    language ∈ compiled.languagesOf id ↔ p.Speaks id language := by
  cases ht : p.target? id with
  | none =>
      have hchanges := resolveTargets_changes hfresh.sound h.compile
      have htarget := hchanges.fixed.targets id
      rw [ht, Option.map_none, Option.map_eq_none_iff] at htarget
      rw [languagesOf, htarget, Option.map_none, Option.getD_none, iff_false_left List.not_mem_nil]
      rintro ⟨env, -, source, hsource, -⟩
      obtain ⟨t, _, _, hsome, -⟩ := mem_compiledSources.mp hsource
      rw [ht] at hsome
      cases hsome
  | some t =>
      obtain ⟨a, b, hturn⟩ := exists_turn h.compile (mem_buildOrder h.ordered ht)
      exact hturn.mem_languagesOf hfresh (nodup_buildOrder h.ordered) (hnone id)

/-! ### The language of a link step -/

theorem linkLanguage_eq (p : Project) (id : TargetId) : linkLanguage p id =
    if "cxx" ∈ p.allLanguages id ∨ "objcxx" ∈ p.allLanguages id then "cxx" else "c" := by
  simp [linkLanguage]

/-- The node is the output of the target, a program or shared library. -/
def LinkedFor (p : Project) (id : TargetId) (node : NodeId) : Prop :=
  ∃ t, p.target? id = some t ∧ (t.type = .program ∨ t.type = .sharedLibrary) ∧ node ∈ t.outputs

/-- When its output is made, a target knows the languages of all that it reaches. -/
theorem MadeInTurn.mem_allLanguages {compiled expanded copied installed : Project}
    (hfresh : p.Fresh) (hnone : ∀ id, p.languagesOf id = [])
    (h : Runs p order compiled expanded copied installed q) (ht : compiled.target? id = some t)
    (hturn : MadeInTurn p compiled id t node r b) :
    language ∈ r.allLanguages id ↔
      ∃ owner, (owner = id ∨ p.Reaches id owner) ∧ p.Speaks owner language := by
  have hfixed := (Changes.ledger hfresh hturn.before (.of_fresh hfresh)).fixed
  obtain ⟨env, reqs, hmade⟩ := hturn.made
  have hown : r.languagesOf id = compiled.languagesOf id := by
    rw [languagesOf, languagesOf, hmade.languages, ht, Option.map_some]
  have hdeps : ∀ owner, p.Reaches id owner → r.languagesOf owner = compiled.languagesOf owner := by
    intro owner hpath
    rw [languagesOf, languagesOf, hturn.deps owner hpath]
  rw [Project.mem_allLanguages, hfixed.transitiveDependencies]
  simp only [← h.mem_languagesOf hfresh hnone]
  constructor
  · rintro ⟨owner, rfl | hmem, hlanguage⟩
    · exact ⟨owner, .inl rfl, hown ▸ hlanguage⟩
    · have hpath := (mem_transitiveDependencies.mp hmem).2
      exact ⟨owner, .inr hpath, hdeps owner hpath ▸ hlanguage⟩
  · rintro ⟨owner, howner, hlanguage⟩
    by_cases heq : owner = id
    · subst heq
      exact ⟨owner, .inl rfl, hown.symm ▸ hlanguage⟩
    · have hpath := howner.resolve_left heq
      exact ⟨owner, .inr (mem_transitiveDependencies.mpr ⟨heq, hpath⟩),
        (hdeps owner hpath).symm ▸ hlanguage⟩

/-- A link step was made in the turn of a program or shared library, and the step is what it
was then, up to its command. -/
structure LinkedIn (p compiled q : Project) (node : NodeId) (step : BuildStep) (id : TargetId)
    (t : Target) (r b : Project) : Prop where
  target : q.target? id = some t
  before : compiled.target? id = some t
  type : t.type = .program ∨ t.type = .sharedLibrary
  output : node ∈ t.outputs
  turn : MadeInTurn p compiled id t node r b
  made : ∃ env reqs, t.env = some env ∧ linkStep r id t env reqs = { step with command := none }

/-- Every link step was made for a program or shared library. -/
theorem Runs.exists_linkedIn {compiled expanded copied installed : Project} (hfresh : p.Fresh)
    (h : Runs p order compiled expanded copied installed q)
    (hstep : q.graph.step? node = some step) (hkind : step.kind = .link) :
    ∃ id t r b, LinkedIn p compiled q node step id t r b := by
  obtain ⟨path, hnode⟩ := step?_eq_some_iff.mp hstep
  obtain ⟨hearlier, -⟩ := (h.continues hfresh).steps node path step hnode (by simp [hkind])
  have hmade : compiled.graph.made? node = some (path, { step with command := none }) :=
    made?_eq_some_iff.mpr ⟨path, _, hearlier, rfl⟩
  have hledger : Ledger p ⟨compiled, [], []⟩ :=
    Changes.ledger hfresh (resolveTargets_changes hfresh.sound h.compile) (.of_fresh hfresh)
  rcases hledger.placed.owner node path _ hmade (by simp [hkind]) with
    hmem | ⟨id, t, ht, hmakes, hout⟩
  · cases hmem
  obtain ⟨t₀, ht₀, hdeclared⟩ := hledger.fixed.declared ht
  have htype := Target.type_of_declared hdeclared
  -- install targets have nothing yet
  have hinstall : t.type ≠ .install := by
    intro hinstall
    have hwaits := h.install_waits ht₀ (htype.symm.trans hinstall)
    rw [ht] at hwaits
    cases hwaits
    rw [(hfresh.targets id t ht₀).outputs] at hout
    cases hout
  have htarget : q.target? id = some t := by
    rw [h.target? hfresh fun t' ht' => ?_, ht]
    rw [ht₀] at ht'
    cases ht'
    rwa [← htype]
  have hcompiles : t.type.compiles = true := by
    cases hcase : t.type with
    | install => exact absurd hcase hinstall
    | interface | object =>
        rw [hcase] at hmakes
        cases hmakes
    | staticLibrary | sharedLibrary | program => rfl
  obtain ⟨r, b, hturn⟩ := h.madeInTurn hfresh htarget hcompiles hmakes hout
  obtain ⟨step', env, reqs, hstep', henv, heq⟩ :=
    hturn.step? hfresh (h.parts hfresh.sound).after.made
  rw [hstep] at hstep'
  cases hstep'
  have hlinks : t.type = .program ∨ t.type = .sharedLibrary := by
    have hlink := (congrArg BuildStep.kind heq).trans hkind
    cases hcase : t.type with
    | install => exact absurd hcase hinstall
    | interface | object =>
        rw [hcase] at hmakes
        cases hmakes
    | staticLibrary => simp [outputStep, hcase, archiveStep] at hlink
    | sharedLibrary => exact .inr rfl
    | program => exact .inl rfl
  have hlink : outputStep r id t env reqs = linkStep r id t env reqs := by
    rcases hlinks with hcase | hcase <;> simp [outputStep, hcase]
  exact ⟨id, t, r, b, htarget, ht, hlinks, hout, hturn, env, reqs, henv, hlink ▸ heq⟩

/-- No node is the output of two targets. -/
theorem LinkedFor.unique {compiled expanded copied installed : Project} (hfresh : p.Fresh)
    (h : Runs p order compiled expanded copied installed q) {other : TargetId}
    (hid : LinkedFor q id node) (hother : LinkedFor q other node) : other = id := by
  have hmakes : ∀ id, LinkedFor q id node → Makes q id node := by
    rintro id ⟨t, ht, htype, hnode⟩
    exact ⟨t, ht, by rcases htype with h | h <;> rw [h] <;> rfl, hnode⟩
  have hplaced := ((h.parts hfresh.sound).ledger hfresh).placed
  exact hplaced.unique other id node (hmakes other hother) (hmakes id hid)

/-- A step links as C++ exactly if its target or one that it reaches compiles C++ or
Objective-C++. -/
theorem LinkedIn.language_iff {compiled expanded copied installed : Project} (hfresh : p.Fresh)
    (hnone : ∀ id, p.languagesOf id = [])
    (h : Runs p order compiled expanded copied installed q)
    (hlinked : LinkedIn p compiled q node step id t r b) :
    (step.language = some "cxx" ↔ p.SpeaksCxx id) ∧
      (¬ p.SpeaksCxx id → step.language = some "c") := by
  obtain ⟨env, reqs, -, heq⟩ := hlinked.made
  have hlanguage : some (linkLanguage r id) = step.language := congrArg BuildStep.language heq
  have hspeaks : ("cxx" ∈ r.allLanguages id ∨ "objcxx" ∈ r.allLanguages id) ↔ p.SpeaksCxx id := by
    rw [hlinked.turn.mem_allLanguages hfresh hnone h hlinked.before,
      hlinked.turn.mem_allLanguages hfresh hnone h hlinked.before, SpeaksCxx]
    simp only [and_or_left, exists_or]
  rw [← hlanguage, linkLanguage_eq, ← hspeaks]
  constructor
  · split <;> simp_all
  · intro hnot
    rw [if_neg hnot]

end Resolve

end BuildPlan
