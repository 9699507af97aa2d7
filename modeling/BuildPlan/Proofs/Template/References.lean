import BuildPlan.Proofs.Template.Stack
import Mathlib.Data.List.Chain
import Mathlib.Logic.Relation

/-!
# BuildPlan.Proofs.Template.References

When a template can be expanded, in terms of the references among variables. An
expansion that succeeds has looked at every variable that can be reached from the
template, and one that fails has followed a path of references to the one that
it fails at.
-/

namespace BuildPlan.Template

variable {ns : Namespace} {chain : List String} {name text template : String} {ps : List Piece}
  {e : BuildError}

/-! ### References among variables -/

/-- The variables that pieces of a template refer to, from left to right. -/
def references (ps : List Piece) : List String :=
  ps.filterMap fun
    | .reference name _ => some name
    | .char _ | .dollar => none

/-- The variable has a value, and the value has a text. -/
def Renders (ns : Namespace) (name text : String) : Prop :=
  ∃ value, ns.get name = some value ∧ value.render = .ok text

/-- The text of one variable refers to another. -/
def Refers (ns : Namespace) (name other : String) : Prop :=
  ∃ text, Renders ns name text ∧ other ∈ references (pieces text.toList)

/-- A variable that a template refers to, directly or through other variables. -/
def Reachable (ns : Namespace) (template name : String) : Prop :=
  ∃ first ∈ references (pieces template.toList), Relation.ReflTransGen (Refers ns) first name

theorem Refers.mem {other : String} (h : Refers ns name other) (hname : Renders ns name text) :
    other ∈ references (pieces text.toList) := by
  obtain ⟨text', ⟨value', hget', htext'⟩, hother⟩ := h
  obtain ⟨value, hget, htext⟩ := hname
  rw [hget'] at hget
  cases hget
  rw [htext'] at htext
  cases htext
  exact hother

theorem referenceText_eq_ok_iff :
    referenceText ns chain name = .ok text ↔ name ∉ chain ∧ Renders ns name text := by
  unfold referenceText Renders
  by_cases hname : name ∈ chain
  · simp [hname]
  · rw [if_neg hname]
    cases hget : ns.get name with
    | none => simp
    | some value => cases value <;> simp [hname, Value.render]

mutual

/-- A value without a text has a namespace in it. -/
theorem render_error {v : Value} (h : v.render = .error e) : e = .substitution .namespaceText := by
  match v with
  | .text _ | .int _ | .bool _ | .marker _ => cases h
  | .scope _ => exact (Except.error.inj h).symm
  | .list items =>
      rw [Value.render, bind_eq_error_iff] at h
      rcases h with h | ⟨_, _, h⟩
      · exact renderItems_error h
      · cases h

theorem renderItems_error {items : List Value} (h : Value.renderItems items = .error e) :
    e = .substitution .namespaceText := by
  match items with
  | [] => cases h
  | v :: rest =>
      rw [Value.renderItems, bind_eq_error_iff] at h
      rcases h with h | ⟨_, _, h⟩
      · exact render_error h
      · rcases bind_eq_error_iff.mp h with h | ⟨_, _, h⟩
        · exact renderItems_error h
        · cases h

end

/-- Why a reference fails: it is circular, or the variable is not bound, or its
value has a namespace in it. -/
theorem referenceText_error (h : referenceText ns chain name = .error e) :
    (name ∈ chain ∧ e = .circularReference (chain ++ [name])) ∨
      (ns.get name = none ∧ e = .missingVariable name) ∨
      ∃ value, ns.get name = some value ∧ value.render = .error (.substitution .namespaceText) ∧
        (e = .substitution .namespaceText ∨ e = .substitution (.namespaceReference name)) := by
  unfold referenceText at h
  split at h
  · next hname => exact .inl ⟨hname, (Except.error.inj h).symm⟩
  · split at h
    · next hget => exact .inr (.inl ⟨hget, (Except.error.inj h).symm⟩)
    · next hget => exact .inr (.inr ⟨_, hget, rfl, .inr (Except.error.inj h).symm⟩)
    · next value _ hget =>
        obtain rfl := render_error h
        exact .inr (.inr ⟨value, hget, h, .inl rfl⟩)

/-! ### Expansions that succeed -/

/-- Whatever an expansion that succeeds comes across has a text, is not under way
already, and does not lead back to itself. -/
theorem of_expandPieces_eq_ok (h : expandPieces ns chain ps = .ok text) :
    ∀ first ∈ references ps, ∀ name, Relation.ReflTransGen (Refers ns) first name →
      name ∉ chain ∧ (∃ text, Renders ns name text) ∧
        ¬ Relation.TransGen (Refers ns) name name := by
  fun_induction expandPieces ns chain ps generalizing text with
  | case1 => simp [references]
  | case2 chain c rest ih =>
      obtain ⟨_, hrest, -⟩ := bind_eq_ok_iff.mp h
      exact ih hrest
  | case3 chain rest ih =>
      obtain ⟨_, hrest, -⟩ := bind_eq_ok_iff.mp h
      exact ih hrest
  | case4 => cases h
  | case5 chain var braced rest value hfound ihvalue ihrest =>
      obtain ⟨_, hvalue, h⟩ := bind_eq_ok_iff.mp h
      obtain ⟨_, hrest, -⟩ := bind_eq_ok_iff.mp h
      obtain ⟨hnew, hrenders⟩ := referenceText_eq_ok_iff.mp hfound
      -- what the value of `var` leads to, which is neither `var` nor under way
      have hinner : ∀ next name, Refers ns var next → Relation.ReflTransGen (Refers ns) next name →
          name ∉ chain ++ [var] ∧ (∃ text, Renders ns name text) ∧
            ¬ Relation.TransGen (Refers ns) name name :=
        fun next name hnext hpath => ihvalue hvalue next (hnext.mem hrenders) name hpath
      intro first hfirst name hpath
      rcases List.mem_cons.mp hfirst with rfl | hfirst
      · rcases hpath.cases_head with rfl | ⟨next, hnext, hpath⟩
        · refine ⟨hnew, ⟨value, hrenders⟩, fun hcycle => ?_⟩
          obtain ⟨next, hnext, hback⟩ := Relation.TransGen.head'_iff.mp hcycle
          exact (hinner next _ hnext hback).1 (by simp)
        · obtain ⟨hname, hgood⟩ := hinner next name hnext hpath
          exact ⟨fun hmem => hname (List.mem_append_left _ hmem), hgood⟩
      · exact ihrest hrest first hfirst name hpath

/-! ### Expansions that fail -/

/-- An expansion that fails does so at a reference. A path leads to it through
variables that are all different. -/
theorem exists_failing_reference (h : expandPieces ns chain ps = .error e) (hnodup : chain.Nodup) :
    ∃ path name, referenceText ns (chain ++ path) name = .error e ∧ (chain ++ path).Nodup ∧
      (path ++ [name]).IsChain (Refers ns) ∧
      ∃ first ∈ references ps, (path ++ [name]).head? = some first := by
  fun_induction expandPieces ns chain ps with
  | case1 => cases h
  | case2 chain c rest ih =>
      rcases bind_eq_error_iff.mp h with h | ⟨_, _, h⟩
      · exact ih h hnodup
      · cases h
  | case3 chain rest ih =>
      rcases bind_eq_error_iff.mp h with h | ⟨_, _, h⟩
      · exact ih h hnodup
      · cases h
  | case4 chain var braced rest e' hfound =>
      cases h
      refine ⟨[], var, ?_, ?_, .singleton var, var, List.mem_cons_self, rfl⟩
      · rwa [List.append_nil]
      · rwa [List.append_nil]
  | case5 chain var braced rest value hfound ihvalue ihrest =>
      obtain ⟨hnew, hrenders⟩ := referenceText_eq_ok_iff.mp hfound
      rcases bind_eq_error_iff.mp h with h | ⟨_, _, h⟩
      · -- the path starts at `var`, whose value refers to what follows
        have hnodup' : (chain ++ [var]).Nodup := by simpa using hnodup.concat hnew
        obtain ⟨path, name, hfails, hpath, hchain, first, hfirst, hhead⟩ := ihvalue h hnodup'
        rw [List.append_assoc, List.singleton_append] at hfails hpath
        refine ⟨var :: path, name, hfails, hpath, ?_, var, List.mem_cons_self, rfl⟩
        rw [List.cons_append, List.isChain_cons]
        refine ⟨fun next hnext => ?_, hchain⟩
        rw [hhead] at hnext
        cases hnext
        exact ⟨value, hrenders, hfirst⟩
      · rcases bind_eq_error_iff.mp h with h | ⟨_, _, h⟩
        · obtain ⟨path, name, hfails, hpath, hchain, first, hfirst, hhead⟩ := ihrest h hnodup
          exact ⟨path, name, hfails, hpath, hchain, first, List.mem_cons_of_mem _ hfirst, hhead⟩
        · cases h

/-! ### When a template can be expanded -/

theorem transGen_of_isChain {α : Type} {R : α → α → Prop} {path : List α} {last : α}
    (h : (path ++ [last]).IsChain R) : ∀ a ∈ path, Relation.TransGen R a last := by
  have hpairwise := List.isChain_iff_pairwise.mp (h.imp fun _ _ => Relation.TransGen.single)
  exact fun a ha => (List.pairwise_append.mp hpairwise).2.2 a ha last List.mem_cons_self

/-- The end of a path of references can be reached from where the path starts. -/
theorem reachable_of_isChain {path : List String} {first : String}
    (h : (path ++ [name]).IsChain (Refers ns)) (hhead : (path ++ [name]).head? = some first)
    (hfirst : first ∈ references (pieces template.toList)) : Reachable ns template name := by
  refine ⟨first, hfirst, ?_⟩
  cases path with
  | nil =>
      cases hhead
      exact .refl
  | cons var path =>
      cases hhead
      exact (transGen_of_isChain h first List.mem_cons_self).to_reflTransGen

/-- A path of references from a template that meets itself at its last variable. -/
structure CircularPath (ns : Namespace) (template : String) (chain : List String) : Prop where
  starts : ∃ first ∈ references (pieces template.toList), chain.head? = some first
  linked : chain.IsChain (Refers ns)
  nodup : chain.dropLast.Nodup
  meets : ∃ last ∈ chain.dropLast, chain.getLast? = some last

/-- A template fails at a variable that can be reached from it: on the way back to a
variable, or because the variable is not bound or has a namespace in its value. -/
theorem expand_error (h : expand template ns = .error e) :
    (∃ chain, e = .circularReference chain ∧ CircularPath ns template chain ∧
        ∃ name, Reachable ns template name ∧ Relation.TransGen (Refers ns) name name) ∨
      ∃ name, Reachable ns template name ∧
        ((ns.get name = none ∧ e = .missingVariable name) ∨
          ∃ value, ns.get name = some value ∧
            value.render = .error (.substitution .namespaceText) ∧
            (e = .substitution .namespaceText ∨ e = .substitution (.namespaceReference name))) := by
  rw [expand_eq] at h
  obtain ⟨path, name, hfails, hnodup, hchain, first, hfirst, hhead⟩ :=
    exists_failing_reference h List.nodup_nil
  rw [List.nil_append] at hfails hnodup
  have hreachable : Reachable ns template name := reachable_of_isChain hchain hhead hfirst
  rcases referenceText_error hfails with ⟨hname, rfl⟩ | hother
  · refine .inl ⟨path ++ [name], rfl, ⟨⟨first, hfirst, hhead⟩, hchain, ?_, name, ?_, ?_⟩,
      name, hreachable, transGen_of_isChain hchain name hname⟩
    · rwa [List.dropLast_concat]
    · rwa [List.dropLast_concat]
    · rw [List.getLast?_concat]
  · exact .inr ⟨name, hreachable, hother⟩

theorem subst_eq_error_iff : subst template ns = .error e ↔ expand template ns = .error e := by
  rw [subst, bind_eq_error_iff]
  simp [pure, Except.pure]

/-- A template can be expanded exactly if every variable that can be reached from it
has a text and does not lead back to itself. If expansion meets a circle, the chain
is a path of references from the template that meets itself; a missing variable can
be reached and is not bound; and any other failure is a variable that can be reached
and has a namespace in its value. -/
theorem subst_sound_and_complete (template : String) (ns : Namespace) :
    ((∃ text, subst template ns = .ok text) ↔ ∀ name, Reachable ns template name →
      (∃ text, Renders ns name text) ∧ ¬ Relation.TransGen (Refers ns) name name) ∧
    (∀ chain, subst template ns = .error (.circularReference chain) →
      CircularPath ns template chain) ∧
    (∀ name, subst template ns = .error (.missingVariable name) →
      Reachable ns template name ∧ ns.get name = none) ∧
    ∀ e, subst template ns = .error e →
      (∃ chain, e = .circularReference chain) ∨ (∃ name, e = .missingVariable name) ∨
        ∃ name value, Reachable ns template name ∧ ns.get name = some value ∧
          value.render = .error (.substitution .namespaceText) ∧
          (e = .substitution .namespaceText ∨ e = .substitution (.namespaceReference name)) := by
  simp only [subst_eq_error_iff]
  refine ⟨⟨?_, fun hgood => ?_⟩, fun chain h => ?_, fun name h => ?_, fun e h => ?_⟩
  · rintro ⟨text, h⟩ name hreachable
    obtain ⟨expanded, hexpand, -⟩ := bind_eq_ok_iff.mp h
    rw [expand_eq] at hexpand
    obtain ⟨first, hfirst, hpath⟩ := hreachable
    exact (of_expandPieces_eq_ok hexpand first hfirst name hpath).2
  · cases hexpand : expand template ns with
    | ok expanded => exact ⟨restoreDollars expanded, by rw [subst, hexpand]; rfl⟩
    | error e =>
        -- whatever it fails at can be reached, and is not as it should be
        obtain ⟨_, -, -, name, hreachable, hcycle⟩ | ⟨name, hreachable, hbad⟩ :=
          expand_error hexpand
        · exact absurd hcycle (hgood name hreachable).2
        · obtain ⟨text, value, hget, htext⟩ := (hgood name hreachable).1
          rcases hbad with ⟨hnone, -⟩ | ⟨value', hget', hrender, -⟩
          · rw [hnone] at hget
            cases hget
          · rw [hget] at hget'
            cases hget'
            rw [hrender] at htext
            cases htext
  · obtain ⟨_, heq, hpath, -⟩ | ⟨_, -, ⟨-, heq⟩ | ⟨_, -, -, heq | heq⟩⟩ := expand_error h
    · cases heq
      exact hpath
    all_goals cases heq
  · obtain ⟨_, heq, -⟩ | ⟨_, hreachable, ⟨hnone, heq⟩ | ⟨_, -, -, heq | heq⟩⟩ := expand_error h
    · cases heq
    · cases heq
      exact ⟨hreachable, hnone⟩
    all_goals cases heq
  · obtain ⟨chain, heq, -⟩ | ⟨name, hreachable, ⟨-, heq⟩ | ⟨value, hget, hrender, heq⟩⟩ :=
      expand_error h
    · exact .inl ⟨chain, heq⟩
    · exact .inr (.inl ⟨name, heq⟩)
    · exact .inr (.inr ⟨name, value, hreachable, hget, hrender, heq⟩)

end BuildPlan.Template
