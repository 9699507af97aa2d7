import BuildPlan.Proofs.Environment
import BuildPlan.Proofs.Template.Insertion

/-!
# BuildPlan.Proofs.Environment.Lookup

What names stand for in an environment and under overrides. An override of one field of a
tool makes a namespace for the tool that has this field only, and hides none of the others:
a name that is not found there is looked up in the environment from its start.
-/

namespace BuildPlan

/-- What the name stands for in a template. -/
def EnvironmentEntry.value : EnvironmentEntry → Value
  | .tool fields => .scope (.ofPairs fields)
  | .var value => value

namespace Environment

open Assoc

variable {env : Environment}

/-! ### Environments without repetition -/

/-- Neither a tool nor a field of a tool nor a variable is bound twice. -/
structure DistinctNames (env : Environment) : Prop extends DistinctTools env where
  vars : Distinct env.vars

theorem distinctNames_initial : initial.DistinctNames where
  toDistinctTools := distinctTools_initial
  vars := by decide

theorem DistinctNames.setVar (h : env.DistinctNames) (name : String) (value : Value) :
    (env.setVar name value).DistinctNames where
  toDistinctTools := h.toDistinctTools.setVar name value
  vars := h.vars.put name value

theorem DistinctNames.setField (h : env.DistinctNames) (tool field : String) (value : Value) :
    (env.setField tool field value).DistinctNames where
  toDistinctTools := h.toDistinctTools.setField tool field value
  vars := h.vars

theorem vars_setUp (env : Environment) (tc : Toolchain) : (env.setUp tc).vars = env.vars := by
  unfold setUp
  induction tc.tools generalizing env with
  | nil => rfl
  | cons entry rest ih => exact ih _

/-- A toolchain that configures an environment leaves it so, also if a tool is missing. -/
theorem DistinctNames.addToolchain (h : env.DistinctNames) (tc : Toolchain) :
    ((Environment.addToolchain tc).run.run env).2.DistinctNames where
  toDistinctTools := h.toDistinctTools.addToolchain tc
  vars := by
    obtain ⟨toolchains, heq⟩ := exists_addToolchain_eq env tc
    rw [heq]
    exact vars_setUp env tc ▸ h.vars

/-! ### Names in templates -/

/-- A name without a dot stands in templates for what it stands for in the environment. -/
theorem DistinctNames.get_toNamespace (h : env.DistinctNames) {name : String}
    (hname : '.' ∉ name.toList) :
    env.toNamespace.get name = (env.lookup name).map EnvironmentEntry.value := by
  rw [Namespace.get, segments_of_not_mem hname, find_toNamespace,
    lookup_reverse_of_distinct h.tools, lookup_reverse_of_distinct h.vars, lookup, tool?, var?]
  cases env.tools.lookup name with
  | some fields =>
      rw [Option.map_some, Option.some_or, Option.bind_some, Namespace.findInside]
      rfl
  | none =>
      cases env.vars.lookup name with
      | none => rfl
      | some value =>
          rw [Option.map_none, Option.none_or, Option.bind_some, Namespace.findInside]
          rfl

/-- Overrides none of which leads through another one can always be layered over an
environment. Each name that is overridden stands for its override, and a name that neither
leads to an override nor into one stands for what it does in the environment. There `t.f`
is field `f` of the tool `t` if there is one, whatever variables there are, and a name
without a dot is the tool or, if there is none, the variable of that name. -/
theorem namespaceWith_exact (h : env.DistinctNames) {overrides : List (String × Value)}
    (hapart : Namespace.AllApart overrides) :
    (∃ ns, env.namespaceWith overrides = .ok ns ∧
      (∀ binding ∈ overrides, ns.get binding.1 = some binding.2) ∧
      ∀ name, (∀ binding ∈ overrides, Apart (segments name) (segments binding.1)) →
        ns.get name = env.toNamespace.get name) ∧
    (∀ tool field fields, '.' ∉ tool.toList → '.' ∉ field.toList →
      env.tool? tool = some fields →
        env.toNamespace.get (tool ++ "." ++ field) = fields.lookup field) ∧
    ∀ name, '.' ∉ name.toList →
      env.toNamespace.get name = (env.lookup name).map EnvironmentEntry.value ∧
        (env.tool? name = none → env.toNamespace.get name = env.var? name) := by
  refine ⟨Namespace.exists_layer env.toNamespace hapart,
    fun _ _ _ htool hfield hfields => h.get_of_tool? htool hfield hfields,
    fun name hname => ⟨h.get_toNamespace hname, fun hnone => ?_⟩⟩
  rw [h.get_toNamespace hname, lookup, hnone]
  cases env.var? name <;> rfl

/-- A compiler that hides a variable of its name, which stands for a namespace itself. -/
def shadowing : Environment :=
  ((initial.setVar "cc" (.scope (.ofPairs [("cmd", .text "none")]))).setField "cc" "cmd"
    (.text "gcc")).setField "cc" "flags" (.text "-O0")

/-- One of the compiler's two fields, and a path. -/
def flagOverrides : List (String × Value) :=
  [("TARGET", .marker .target), ("cc.flags", .text "-O2")]

/-- The field that is overridden does not hide the other one. -/
theorem namespaceWith_exact_shadowing :
    shadowing.DistinctNames ∧ Namespace.AllApart flagOverrides ∧
      ∃ ns, shadowing.namespaceWith flagOverrides = .ok ns ∧
        ns.get "cc.flags" = some (.text "-O2") ∧ ns.get "cc.cmd" = some (.text "gcc") := by
  have hnames : shadowing.DistinctNames :=
    ((distinctNames_initial.setVar _ _).setField _ _ _).setField _ _ _
  have hapart : Namespace.AllApart flagOverrides := by
    simp only [Namespace.AllApart, Apart, flagOverrides]
    decide
  obtain ⟨⟨ns, hns, hbound, hothers⟩, hfields, -⟩ := namespaceWith_exact hnames hapart
  have hcmd : ∀ binding ∈ flagOverrides, Apart (segments "cc.cmd") (segments binding.1) := by
    simp only [Apart, flagOverrides]
    decide
  refine ⟨hnames, hapart, ns, hns, hbound ("cc.flags", _) (by simp [flagOverrides]), ?_⟩
  rw [hothers "cc.cmd" hcmd]
  exact hfields "cc" "cmd" _ (by decide) (by decide) rfl

end Environment

end BuildPlan
