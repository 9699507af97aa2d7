import BuildPlan.Environment
import BuildPlan.Proofs.Template.References

/-!
# BuildPlan.Proofs.Template.Errors

The reports of the template engine. Binding names and expanding templates fail
with nothing but missing variables, circular references and values that stand
where they cannot.
-/

namespace BuildPlan

/-- Is this a report of the template engine? -/
def BuildError.OfTemplate : BuildError → Prop
  | .missingVariable _ | .circularReference _ | .substitution _ => True
  | _ => False

namespace Template

variable {α β : Type} {x : Except BuildError α}

/-- Every failure of the computation is one of the template engine. -/
def Templated (x : Except BuildError α) : Prop := ∀ e, x = .error e → e.OfTemplate

theorem templated_ok (a : α) : Templated (.ok a) := by
  intro e h
  cases h

theorem Templated.bind {f : α → Except BuildError β} (h : Templated x)
    (hf : ∀ a, Templated (f a)) : Templated (x >>= f) := by
  intro e he
  rcases bind_eq_error_iff.mp he with hx | ⟨a, -, ha⟩
  · exact h e hx
  · exact hf a e ha

theorem templated_foldlM {f : β → α → Except BuildError β} (hf : ∀ b a, Templated (f b a))
    (as : List α) (b : β) : Templated (as.foldlM f b) := by
  induction as generalizing b with
  | nil => exact templated_ok b
  | cons a rest ih =>
      rw [List.foldlM_cons]
      exact (hf b a).bind ih

/-! ### Expansion -/

theorem templated_render (v : Value) : Templated v.render := by
  intro e h
  rw [render_error h]
  trivial

theorem templated_expand (template : String) (ns : Namespace) :
    Templated (expand template ns) := by
  intro e h
  rcases expand_error h with ⟨chain, rfl, -⟩ | ⟨name, -, ⟨-, rfl⟩ | ⟨_, -, -, rfl | rfl⟩⟩ <;>
    trivial

theorem templated_subst (template : String) (ns : Namespace) : Templated (subst template ns) := by
  intro e h
  exact templated_expand template ns e (subst_eq_error_iff.mp h)

theorem templated_substArgument (item : Value) (ns : Namespace) :
    Templated (substArgument item ns) :=
  (templated_render item).bind fun _ => (templated_subst _ ns).bind fun _ => templated_ok _

theorem templated_substItem (item : Value) (ns : Namespace) : Templated (substItem item ns) := by
  refine (templated_render item).bind fun text => ?_
  split
  · exact templated_foldlM (fun _ v => (templated_substArgument v ns).bind fun _ => templated_ok _)
      _ _
  · exact templated_substArgument item ns

theorem templated_substTokens (template : Value) (ns : Namespace) :
    Templated (substTokens template ns) := by
  unfold substTokens substWords
  split
  · refine (templated_foldlM (fun _ v => ?_) _ _).bind fun _ => templated_ok _
    exact (templated_substItem v ns).bind fun _ => templated_ok _
  · refine (templated_render _).bind fun _ => Templated.bind ?_ fun _ => templated_ok _
    exact (templated_expand _ ns).bind fun _ => templated_ok _

/-! ### Bindings -/

theorem templated_bindPath (value : Value) (ns : Namespace) (head : String) (rest : List String) :
    Templated (ns.bindPath value head rest) := by
  induction rest generalizing ns head with
  | nil => exact templated_ok _
  | cons next rest ih =>
      rw [Namespace.bindPath]
      split
      · exact (ih _ next).bind fun _ => templated_ok _
      · exact (ih _ next).bind fun _ => templated_ok _
      · intro e h
        cases h
        trivial

theorem templated_insert (ns : Namespace) (name : String) (value : Value) :
    Templated (ns.insert name value) := by
  unfold Namespace.insert
  split
  · exact templated_ok ns
  · exact templated_bindPath value ns _ _

theorem templated_namespaceWith (env : Environment) (overrides : List (String × Value)) :
    Templated (env.namespaceWith overrides) := by
  rw [Environment.namespaceWith, Namespace.layer]
  exact templated_foldlM (fun ns (name, value) => templated_insert ns name value) overrides _

end Template

end BuildPlan
