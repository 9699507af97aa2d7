import BuildPlan.Proofs.Resolve.Commands
import BuildPlan.Proofs.Template.Literal
import BuildPlan.Proofs.Template.Namespace

/-!
# BuildPlan.Proofs.Resolve.ListTemplates

What a list template makes of a tool's field that a step extends. The binding of the
field is a list of two lists, the tool's own items and the words of the step, and an
element that refers to it is opened by one level only. So each of the two lists comes
out as one token with blanks in it.
-/

namespace BuildPlan.Resolve

open Template Namespace

variable {p : Project} {env : Environment} {step : BuildStep} {context : StepContext}
  {field key tool : String} {own words : List String} {before after : List Value}
  {tokens new : List Token} {ns : Namespace}

/-! ### The binding of an extended field -/

theorem extendedFields_names (kind : StepKind) : ∀ entry ∈ extendedFields kind,
    '.' ∉ entry.1.toList ∧ entry.1.toList.all isNameChar = true := by
  cases kind <;> decide

theorem nodup_extendedFields (kind : StepKind) : ((extendedFields kind).map Prod.fst).Nodup := by
  cases kind <;> decide

/-- The field has a binding, and those that are made after it are other fields of the tool. -/
theorem exists_contextBindings_eq (env : Environment)
    (hkey : (field, key) ∈ extendedFields step.kind)
    (hwords : context.fieldWords.lookup key = some words) :
    ∃ front back, contextBindings env step context =
        front ++ extendField env step.tool field words :: back ∧
      ∀ binding ∈ back, ∃ other, other ≠ field ∧ '.' ∉ other.toList ∧
        binding.1 = step.tool ++ "." ++ other := by
  obtain ⟨front, back, hfields⟩ := List.append_of_mem hkey
  have hnodup := nodup_extendedFields step.kind
  have hnames := extendedFields_names step.kind
  unfold contextBindings
  rw [hfields] at hnodup hnames ⊢
  have hbound : (context.fieldWords.lookup key).map (extendField env step.tool field) =
      some (extendField env step.tool field words) := by rw [hwords, Option.map_some]
  refine ⟨_, _, List.filterMap_append.trans (congrArg _ (List.filterMap_cons_some hbound)),
    fun binding hbinding => ?_⟩
  obtain ⟨⟨other, otherKey⟩, hother, hnext⟩ := List.mem_filterMap.mp hbinding
  obtain ⟨_, -, rfl⟩ := Option.map_eq_some_iff.mp hnext
  refine ⟨other, ?_, (hnames _ (List.mem_append_right _ (List.mem_cons_of_mem _ hother))).1, rfl⟩
  rintro rfl
  rw [List.map_append, List.map_cons] at hnodup
  exact (List.nodup_cons.mp hnodup.of_append_right).1 (List.mem_map.mpr ⟨_, hother, rfl⟩)

theorem segments_field (htool : '.' ∉ tool.toList) (hfield : '.' ∉ field.toList) :
    segments (tool ++ "." ++ field) = [tool, field] := by
  rw [segments_append, segments_of_not_mem htool, segments_of_not_mem hfield]
  rfl

theorem apart_fields {other : String} (htool : '.' ∉ tool.toList) (hfield : '.' ∉ field.toList)
    (hother : '.' ∉ other.toList) (hne : field ≠ other) :
    Apart (segments (tool ++ "." ++ field)) (segments (tool ++ "." ++ other)) := by
  rw [segments_field htool hfield, segments_field htool hother, apart_cons]
  simp [Apart, hne, Ne.symm hne]

theorem ne_cmd_of_extendedFields {kind : StepKind} (hkey : (field, key) ∈ extendedFields kind) :
    field ≠ "cmd" := by
  have hall : ∀ entry ∈ extendedFields kind, entry.1 ≠ "cmd" := by cases kind <;> decide
  exact hall _ hkey

/-- What a step binds last: the command of its tool, if another compiler drives it. -/
def driverBindings (env : Environment) (step : BuildStep) : List (String × Value) :=
  match step.kind with
  | .link => (driverCommand env step).toList.map fun command =>
      (step.tool ++ "." ++ "cmd", command)
  | .compile | .archive | .copy => []

theorem stepBindings_eq (hcontext : step.context = some context) : stepBindings env step =
    markerBindings ++ contextBindings env step context ++ driverBindings env step := by
  rw [stepBindings, driverBindings, hcontext]
  cases step.kind <;> simp [String.append_assoc]

theorem name_of_mem_driverBindings {binding : String × Value}
    (h : binding ∈ driverBindings env step) : binding.1 = step.tool ++ "." ++ "cmd" := by
  unfold driverBindings at h
  cases hkind : step.kind with
  | link =>
      rw [hkind] at h
      obtain ⟨command, -, rfl⟩ := List.mem_map.mp h
      rfl
  | compile | archive | copy =>
      rw [hkind] at h
      cases h

/-- A field of a step's tool that the step extends stands for a list of lists. -/
theorem get_extendedField (hcontext : step.context = some context)
    (hkey : (field, key) ∈ extendedFields step.kind)
    (hwords : context.fieldWords.lookup key = some words) (htool : '.' ∉ step.tool.toList)
    (hns : env.namespaceWith (stepBindings env step) = .ok ns) :
    ns.get (step.tool ++ "." ++ field) =
      some (.list ((env.field? step.tool field).toList ++ [.ofTexts words])) := by
  obtain ⟨front, back, hbindings, hback⟩ := exists_contextBindings_eq env hkey hwords
  have hfield := (extendedFields_names step.kind _ hkey).1
  have hall : stepBindings env step = (markerBindings ++ front) ++
      extendField env step.tool field words :: (back ++ driverBindings env step) := by
    simp [stepBindings_eq hcontext, hbindings]
  rw [hall] at hns
  refine get_layer hns fun binding hbinding => ?_
  rcases List.mem_append.mp hbinding with hbinding | hbinding
  · obtain ⟨other, hne, hother, hname⟩ := hback binding hbinding
    rw [hname]
    exact apart_fields htool hfield hother hne.symm
  · rw [name_of_mem_driverBindings hbinding]
    exact apart_fields htool hfield (by decide) (ne_cmd_of_extendedFields hkey)

/-! ### The tokens of an element -/

/-- A compile step whose tool has a list as its command template. One element refers to a
field of the tool, which has the items `own` or is absent, and to which the step's context
adds `words`. All of these stand for themselves. -/
structure RefersToField (p : Project) (step : BuildStep) (env : Environment) (field : String)
    (own words : List String) (before after : List Value) : Prop where
  environment : step.env.bind p.environment? = some env
  kind : step.kind = .compile
  context : ∃ context key, step.context = some context ∧ (field, key) ∈ extendedFields step.kind ∧
    context.fieldWords.lookup key = some words
  template : env.field? step.tool step.commandVar =
    some (.list (before ++ .text ("$" ++ (step.tool ++ "." ++ field)) :: after))
  items : env.field? step.tool field = none ∧ own = [] ∨
    env.field? step.tool field = some (.ofTexts own)
  nonempty : ∀ text ∈ own, text ≠ ""
  literal : ∀ text ∈ own ++ words, Literal text
  dotless : '.' ∉ step.tool.toList

/-- The element that stands between `before` and `after` in the template contributes `new` to
the step's tokens. -/
def Contributes (env : Environment) (step : BuildStep) (before : List Value) (item : Value)
    (after : List Value) (tokens new : List Token) : Prop :=
  ∃ ns front back, env.namespaceWith (stepBindings env step) = .ok ns ∧
    before.mapM (itemTokens · ns) = .ok front ∧ itemTokens item ns = .ok new ∧
    after.mapM (itemTokens · ns) = .ok back ∧ tokens = front.flatten ++ new ++ back.flatten

/-- Every element of a list template contributes its tokens in its place. -/
theorem exists_contributes {item : Value} (henv : step.env.bind p.environment? = some env)
    (htemplate : env.field? step.tool step.commandVar = some (.list (before ++ item :: after)))
    (hexpand : expandStep p step = .ok (some tokens)) :
    ∃ new, Contributes env step before item after tokens new := by
  obtain ⟨ns, hns, hmatch⟩ := expands_of_expandStep hexpand env _ henv htemplate
  rw [substTokens_list] at hmatch
  split at hmatch
  · next found htokens =>
      cases hmatch
      obtain ⟨parts, hparts, htokens⟩ := bind_eq_ok_iff.mp htokens
      cases htokens
      rw [List.mapM_append] at hparts
      obtain ⟨front, hfront, hparts⟩ := bind_eq_ok_iff.mp hparts
      obtain ⟨rest, hrest, hparts⟩ := bind_eq_ok_iff.mp hparts
      cases hparts
      rw [List.mapM_cons] at hrest
      obtain ⟨new, hnew, hrest⟩ := bind_eq_ok_iff.mp hrest
      obtain ⟨back, hback, hrest⟩ := bind_eq_ok_iff.mp hrest
      cases hrest
      exact ⟨new, ns, front, back, hns, hfront, hnew, hback, by simp⟩
  · cases hmatch
  · exact hmatch.elim

/-- A reference to the field contributes one token for the tool's items and one for the
words of the step. -/
theorem RefersToField.itemTokens_eq (h : RefersToField p step env field own words before after)
    (hname : isName step.tool.toList = true)
    (hns : env.namespaceWith (stepBindings env step) = .ok ns) :
    itemTokens (.text ("$" ++ (step.tool ++ "." ++ field))) ns =
      .ok (joined own ++ joined words) := by
  obtain ⟨context, key, hcontext, hkey, hwords⟩ := h.context
  have hget := get_extendedField hcontext hkey hwords h.dotless hns
  have hchars : (step.tool ++ "." ++ field).toList = step.tool.toList ++ '.' :: field.toList := by
    simp
  have hfield : isName (step.tool ++ "." ++ field).toList = true := by
    rw [hchars]
    exact isName_append hname (by simpa [isNameChar] using (extendedFields_names _ _ hkey).2)
  obtain ⟨lists, hlists, htokens, hmem⟩ : ∃ lists : List (List String),
      (env.field? step.tool field).toList ++ [.ofTexts words] = lists.map Value.ofTexts ∧
        lists.flatMap joined = joined own ++ joined words ∧
        ∀ texts ∈ lists, texts = own ∨ texts = words := by
    rcases h.items with ⟨hnone, rfl⟩ | hsome
    · refine ⟨[words], by rw [hnone]; rfl, ?_, by simp⟩
      rw [joined_nil, List.flatMap_singleton, List.nil_append]
    · exact ⟨[own, words], by rw [hsome]; rfl, by simp, by simp⟩
  have hliteral : ∀ texts ∈ lists, ∀ word ∈ texts, Literal word := by
    intro texts htexts word hword
    refine h.literal word (List.mem_append.mpr ?_)
    rcases hmem texts htexts with rfl | rfl
    · exact .inl hword
    · exact .inr hword
  rw [hlists] at hget
  rw [itemTokens_reference_ofTexts hfield hget hliteral, htokens]

/-- A step that extends a field adds at least one word. -/
theorem RefersToField.words_ne_nil
    (h : RefersToField p step env field own words before after) : words ≠ [] := by
  obtain ⟨context, key, -, -, hwords⟩ := h.context
  obtain ⟨front, back, heq, -⟩ := List.lookup_eq_some_iff.mp hwords
  have hmem : (key, words) ∈ context.fieldWords := heq ▸ List.mem_append_right _ List.mem_cons_self
  simpa using (List.mem_filter.mp hmem).2

/-- One token for each list and one token for each item is the same if the tool has one item
at most and the step adds a single word. -/
theorem joined_append_eq_iff (hown : ∀ text ∈ own, text ≠ "") (hwords : words ≠ []) :
    joined own ++ joined words = (own ++ words).map Token.ofText ↔
      own.length ≤ 1 ∧ ∃ word, words = [word] ∧ word ≠ "" := by
  constructor
  · intro h
    have hlength := congrArg List.length h
    rw [List.length_append, List.length_map, List.length_append] at hlength
    have hpos := List.length_pos_of_ne_nil hwords
    obtain ⟨hle, hone⟩ := length_joined own
    obtain ⟨hle', hone'⟩ := length_joined words
    refine ⟨by omega, ?_⟩
    obtain ⟨word, rfl⟩ := List.length_eq_one_iff.mp (by omega : words.length = 1)
    refine ⟨word, rfl, ?_⟩
    rintro rfl
    rw [show (joined [""]).length = 0 from by decide] at hlength
    simp at hlength
    omega
  · rintro ⟨hle, word, rfl, hword⟩
    rw [joined_singleton hword]
    match own, hle with
    | [], _ => rfl
    | [text], _ => rw [joined_singleton (hown text List.mem_cons_self)]; rfl

/-- Extended fields in list templates. The element `$T.f` of a list template contributes one
token for the tool's items and one for the words that the step adds, each with blanks between
them. These are one token for each item exactly if the tool has one item at most and the step
adds a single word, which is not empty. -/
theorem contributes_joined (h : RefersToField p step env field own words before after)
    (hname : isName step.tool.toList = true)
    (hexpand : expandStep p step = .ok (some tokens)) :
    Contributes env step before (.text ("$" ++ (step.tool ++ "." ++ field))) after tokens
        (joined own ++ joined words) ∧
      (joined own ++ joined words = (own ++ words).map Token.ofText ↔
        own.length ≤ 1 ∧ ∃ word, words = [word] ∧ word ≠ "") := by
  obtain ⟨new, ns, front, back, hns, hfront, hnew, hback, htokens⟩ :=
    exists_contributes h.environment h.template hexpand
  rw [h.itemTokens_eq hname hns] at hnew
  cases hnew
  exact ⟨⟨ns, front, back, hns, hfront, h.itemTokens_eq hname hns, hback, htokens⟩,
    joined_append_eq_iff h.nonempty h.words_ne_nil⟩

/-- A compiler whose template is a list and which has two flags of its own. -/
def listTools : Environment where
  tools := [("cc", [("objcmd", .list [.text "$cc.flags"]), ("flags", .ofTexts ["-a", "-b"])])]

def listProject : Project where
  name := "flags"
  environments := #[listTools]

/-- A source is compiled with a flag of its own. -/
def flagStep : BuildStep where
  tool := "cc"
  commandVar := "objcmd"
  kind := .compile
  context := some { requirements := { compileFlags := ["-c"] }, style := .unix }
  env := some ⟨0⟩

theorem refersToField_flagStep :
    RefersToField listProject flagStep listTools "flags" ["-a", "-b"] ["-c"] [] [] where
  environment := rfl
  kind := rfl
  context := ⟨_, "extra_flags", rfl, by decide, by cbv⟩
  template := by cbv
  items := .inr (by cbv)
  nonempty := by decide
  literal := by decide
  dotless := by decide

theorem expandStep_flagStep :
    expandStep listProject flagStep = .ok (some [.ofText "-a -b", .ofText "-c"]) := by
  cbv

theorem contributes_joined_flagStep :
    RefersToField listProject flagStep listTools "flags" ["-a", "-b"] ["-c"] [] [] ∧
      isName flagStep.tool.toList = true ∧
      expandStep listProject flagStep = .ok (some [.ofText "-a -b", .ofText "-c"]) ∧
      Contributes listTools flagStep [] (.text ("$" ++ (flagStep.tool ++ "." ++ "flags"))) []
        [.ofText "-a -b", .ofText "-c"] (joined ["-a", "-b"] ++ joined ["-c"]) :=
  ⟨refersToField_flagStep, by decide, expandStep_flagStep,
    (contributes_joined refersToField_flagStep (by decide) expandStep_flagStep).1⟩

/-- The two flags of the tool come out as one token. -/
theorem not_forall_contributes_each : ¬ ∀ (p : Project) (step : BuildStep) (env : Environment)
    (field : String) (own words : List String) (before after : List Value) (tokens : List Token),
    RefersToField p step env field own words before after →
    expandStep p step = .ok (some tokens) →
    Contributes env step before (.text ("$" ++ (step.tool ++ "." ++ field))) after tokens
      ((own ++ words).map Token.ofText) := by
  intro hall
  obtain ⟨_, _, _, -, hfront, -, hback, htokens⟩ :=
    hall _ _ _ _ _ _ _ _ _ refersToField_flagStep expandStep_flagStep
  cases hfront
  cases hback
  exact absurd htokens (by decide)

end BuildPlan.Resolve
