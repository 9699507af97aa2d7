import BuildPlan.Template.Expand
import Mathlib.Data.List.Nodup
import Mathlib.Logic.Relation

/-!
# BuildPlan.Proofs.Template.Stack

Expansion with a stack of frames does what expansion by recursion says. A stack
stands for what the recursion has still to do: expand the rest of the innermost
frame, put the result into the frame below, and go on there. No step changes what
a stack stands for, and each step takes something off its cost. The names under
way stay different, since a variable that is under way is not entered again.
-/

namespace BuildPlan.Template

/-! ### Blocks that may fail -/

section Block

variable {ε α β : Type} {x : Except ε α} {f : α → Except ε β}

theorem bind_eq_ok_iff {b : β} : x >>= f = .ok b ↔ ∃ a, x = .ok a ∧ f a = .ok b := by
  cases x <;> simp [bind, Except.bind]

theorem bind_eq_error_iff {e : ε} :
    x >>= f = .error e ↔ x = .error e ∨ ∃ a, x = .ok a ∧ f a = .error e := by
  cases x <;> simp [bind, Except.bind]

end Block

variable {ns : Namespace} {chain : List String} {name text : String} {braced : Bool}
  {rest : List Piece}

/-! ### Expansion by recursion -/

theorem expandPieces_reference (h : referenceText ns chain name = .ok text) :
    expandPieces ns chain (.reference name braced :: rest) = (do
      let inner ← expandPieces ns (chain ++ [name]) (pieces text.toList)
      return inner ++ (← expandPieces ns chain rest)) := by
  rw [expandPieces]
  split
  · next found =>
      rw [h] at found
      cases found
  · next found =>
      rw [h] at found
      cases found
      rfl

theorem expandPieces_reference_error {e : BuildError} (h : referenceText ns chain name = .error e) :
    expandPieces ns chain (.reference name braced :: rest) = .error e := by
  rw [expandPieces]
  split
  · next found =>
      rw [h] at found
      cases found
      rfl
  · next found =>
      rw [h] at found
      cases found

/-- A reference that stands alone comes to what the variable's text comes to. -/
theorem expandPieces_alone (h : referenceText ns chain name = .ok text) :
    expandPieces ns chain [.reference name braced] =
      expandPieces ns (chain ++ [name]) (pieces text.toList) := by
  rw [expandPieces_reference h, expandPieces]
  cases expandPieces ns (chain ++ [name]) (pieces text.toList) with
  | error e => rfl
  | ok inner => simp [bind, Except.bind, pure, Except.pure]

/-- A text without dollars has no references. -/
theorem pieces_of_not_mem {text : List Char} (h : '$' ∉ text) : pieces text = text.map .char := by
  induction text with
  | nil => rw [pieces, List.map_nil]
  | cons c rest ih =>
      obtain ⟨hc, hrest⟩ := not_or.mp (mt List.mem_cons.mpr h)
      have hnext : nextPiece c rest = (.char c, rest) := if_neg (Ne.symm hc)
      rw [pieces, hnext, List.map_cons, ih hrest]

theorem expandPieces_char (ns : Namespace) (chain : List String) (text : List Char) :
    expandPieces ns chain (text.map .char) = .ok (.ofList text) := by
  induction text with
  | nil => rw [List.map_nil, expandPieces]
  | cons c rest ih =>
      rw [List.map_cons, expandPieces, ih]
      simp [bind, Except.bind, pure, Except.pure]

/-- So its expansion is the text itself. -/
theorem expandPieces_of_not_mem (ns : Namespace) (chain : List String) (h : '$' ∉ text.toList) :
    expandPieces ns chain (pieces text.toList) = .ok text := by
  rw [pieces_of_not_mem h, expandPieces_char, String.ofList_toList]

/-! ### Single steps -/

/-- A single step of an expansion. The innermost frame comes first in the stack. -/
inductive Step (ns : Namespace) : List Frame → List Frame → Prop
  | char {c : Char} {rest : List Piece} {out : String} {caller : Option String}
      {below : List Frame} :
      Step ns (⟨.char c :: rest, out, caller⟩ :: below) (⟨rest, out.push c, caller⟩ :: below)
  | dollar {rest : List Piece} {out : String} {caller : Option String} {below : List Frame} :
      Step ns (⟨.dollar :: rest, out, caller⟩ :: below)
        (⟨rest, out.push dollarStandIn, caller⟩ :: below)
  /-- A value with dollars in it is expanded in a frame of its own. -/
  | enter {name text out : String} {braced : Bool} {rest : List Piece} {caller : Option String}
      {below : List Frame}
      (hfound : referenceText ns (chainOf (⟨rest, out, caller⟩ :: below)) name = .ok text)
      (hdollar : '$' ∈ text.toList) :
      Step ns (⟨.reference name braced :: rest, out, caller⟩ :: below)
        (⟨pieces text.toList, "", some name⟩ :: ⟨rest, out, caller⟩ :: below)
  /-- A value without dollars is put in as it is. -/
  | insert {name text out : String} {braced : Bool} {rest : List Piece} {caller : Option String}
      {below : List Frame}
      (hfound : referenceText ns (chainOf (⟨rest, out, caller⟩ :: below)) name = .ok text)
      (hdollar : '$' ∉ text.toList) :
      Step ns (⟨.reference name braced :: rest, out, caller⟩ :: below)
        (⟨rest, out ++ text, caller⟩ :: below)
  | leave {text out : String} {rest : List Piece} {name caller : Option String}
      {below : List Frame} :
      Step ns (⟨[], text, name⟩ :: ⟨rest, out, caller⟩ :: below)
        (⟨rest, out ++ text, caller⟩ :: below)

/-- What an expansion comes to that has no step left: the last frame is finished,
or a reference fails. -/
inductive Ends (ns : Namespace) : List Frame → Except BuildError String → Prop
  | done {out : String} {name : Option String} : Ends ns [⟨[], out, name⟩] (.ok out)
  | fail {e : BuildError} {name out : String} {braced : Bool} {rest : List Piece}
      {caller : Option String} {below : List Frame}
      (hfound : referenceText ns (chainOf (⟨rest, out, caller⟩ :: below)) name = .error e) :
      Ends ns (⟨.reference name braced :: rest, out, caller⟩ :: below) (.error e)

/-- A stack of frames that the expansion of a template comes to. -/
def Reaches (ns : Namespace) (template : String) (stack : List Frame) : Prop :=
  Relation.ReflTransGen (Step ns) [⟨pieces template.toList, "", none⟩] stack

variable {stack stack' : List Frame} {result : Except BuildError String}

/-- `run` takes the steps until none is left. -/
theorem exists_ends_run (ns : Namespace) (current : Frame) (below : List Frame) :
    ∃ stack, Relation.ReflTransGen (Step ns) (current :: below) stack ∧
      Ends ns stack (run ns current below) := by
  -- every call in tail position is the step to the stack that it is called on
  have hstep : ∀ {stack stack' : List Frame} {result : Except BuildError String},
      Step ns stack stack' →
      (∃ last, Relation.ReflTransGen (Step ns) stack' last ∧ Ends ns last result) →
      ∃ last, Relation.ReflTransGen (Step ns) stack last ∧ Ends ns last result :=
    fun hfirst ⟨last, hpath, hends⟩ => ⟨last, .head hfirst hpath, hends⟩
  fun_induction run ns current below with
  | case1 current hrest =>
      obtain ⟨_, out, name⟩ := current
      obtain rfl : _ = [] := hrest
      exact ⟨_, .refl, .done⟩
  | case2 current hrest caller deeper ih =>
      obtain ⟨_, out, name⟩ := current
      obtain rfl : _ = [] := hrest
      exact hstep .leave ih
  | case3 current below c rest hrest ih =>
      obtain ⟨_, out, name⟩ := current
      obtain rfl : _ = _ :: _ := hrest
      exact hstep .char ih
  | case4 current below rest hrest ih =>
      obtain ⟨_, out, name⟩ := current
      obtain rfl : _ = _ :: _ := hrest
      exact hstep .dollar ih
  | case5 current below name braced rest hrest e hfound =>
      obtain ⟨_, out, caller⟩ := current
      obtain rfl : _ = _ :: _ := hrest
      exact ⟨_, .refl, .fail hfound⟩
  | case6 current below name braced rest hrest text hfound hdollar ih =>
      obtain ⟨_, out, caller⟩ := current
      obtain rfl : _ = _ :: _ := hrest
      exact hstep (.enter hfound hdollar) ih
  | case7 current below name braced rest hrest text hfound hdollar ih =>
      obtain ⟨_, out, caller⟩ := current
      obtain rfl : _ = _ :: _ := hrest
      exact hstep (.insert hfound hdollar) ih

/-! ### What a stack stands for -/

/-- The expansion of what is left in a stack of frames, once the frame above it
has come to `text`. -/
def resume (ns : Namespace) : List Frame → String → Except BuildError String
  | [], text => .ok text
  | frame :: below, text => do
    let expanded ← expandPieces ns (chainOf (frame :: below)) frame.rest
    resume ns below (frame.out ++ text ++ expanded)

/-- A piece that comes to a text is taken off the frame, and the text is put out. -/
theorem resume_emit {piece : Piece} {out emitted : String} {caller : Option String}
    {below : List Frame}
    (h : expandPieces ns (chainOf below ++ caller.toList) (piece :: rest) = (do
      return emitted ++ (← expandPieces ns (chainOf below ++ caller.toList) rest))) :
    resume ns (⟨piece :: rest, out, caller⟩ :: below) "" =
      resume ns (⟨rest, out ++ emitted, caller⟩ :: below) "" := by
  simp only [resume, chainOf, h]
  cases expandPieces ns (chainOf below ++ caller.toList) rest with
  | error e => rfl
  | ok expanded => simp [bind, Except.bind, pure, Except.pure, String.append_assoc]

theorem resume_of_step (h : Step ns stack stack') : resume ns stack "" = resume ns stack' "" := by
  cases h with
  | char =>
      rw [← String.append_singleton]
      exact resume_emit (by rw [expandPieces])
  | dollar =>
      rw [← String.append_singleton]
      exact resume_emit (by rw [expandPieces])
  | insert hfound hdollar =>
      refine resume_emit ((expandPieces_reference hfound).trans ?_)
      rw [expandPieces_of_not_mem _ _ hdollar]
      rfl
  | @enter name text out braced rest caller below hfound =>
      -- the frame of the value is expanded first, and then the rest of its caller
      simp only [chainOf] at hfound
      simp only [resume, chainOf, expandPieces_reference hfound, Option.toList_some]
      cases expandPieces ns (chainOf below ++ caller.toList ++ [name]) (pieces text.toList) with
      | error e => rfl
      | ok inner =>
          cases expandPieces ns (chainOf below ++ caller.toList) rest with
          | error e => rfl
          | ok expanded => simp [bind, Except.bind, pure, Except.pure, String.append_assoc]
  | leave => simp [resume, expandPieces, chainOf, bind, Except.bind]

theorem resume_of_ends (h : Ends ns stack result) : resume ns stack "" = result := by
  cases h with
  | done => simp [resume, expandPieces, bind, Except.bind]
  | fail hfound =>
      simp only [chainOf] at hfound
      rw [resume, chainOf, expandPieces_reference_error hfound]
      rfl

theorem resume_of_reaches (h : Relation.ReflTransGen (Step ns) stack stack') :
    resume ns stack "" = resume ns stack' "" := by
  induction h with
  | refl => rfl
  | tail _ hstep ih => rw [ih, resume_of_step hstep]

theorem run_eq_resume (ns : Namespace) (current : Frame) (below : List Frame) :
    run ns current below = resume ns (current :: below) "" := by
  obtain ⟨stack, hreaches, hends⟩ := exists_ends_run ns current below
  rw [resume_of_reaches hreaches, resume_of_ends hends]

/-- The stack computes what the recursion says. -/
theorem expand_eq (template : String) (ns : Namespace) :
    expand template ns = expandPieces ns [] (pieces template.toList) := by
  rw [expand, run_eq_resume]
  simp only [resume, chainOf, Option.toList_none, List.append_nil]
  cases expandPieces ns [] (pieces template.toList) with
  | error e => rfl
  | ok expanded => simp [bind, Except.bind]

/-! ### Every expansion ends -/

theorem stackCost_lt_of_step (h : Step ns stack stack') :
    stackCost ns stack' < stackCost ns stack := by
  cases h with
  | char | dollar | leave =>
      simp only [stackCost, chainOf, cost]
      omega
  | enter hfound =>
      simp only [chainOf] at hfound
      simp only [stackCost, chainOf, cost_reference hfound, Option.toList_some]
      omega
  | insert hfound =>
      simp only [chainOf] at hfound
      simp only [stackCost, chainOf, cost_reference hfound]
      omega

theorem wellFounded_step (ns : Namespace) :
    WellFounded fun stack' stack : List Frame => Step ns stack stack' :=
  Subrelation.wf (fun h => stackCost_lt_of_step h) (measure (stackCost ns)).wf

/-! ### The names under way -/

theorem nodup_chainOf_of_step (h : Step ns stack stack') (hnodup : (chainOf stack).Nodup) :
    (chainOf stack').Nodup := by
  cases h with
  | char | dollar | insert => exact hnodup
  | enter hfound =>
      obtain ⟨hnew, -⟩ := get_of_referenceText hfound
      refine List.nodup_append.mpr ⟨hnodup, List.nodup_singleton _, fun other hother _ hname => ?_⟩
      rw [List.mem_singleton.mp hname]
      rintro rfl
      exact hnew hother
  | leave =>
      rw [chainOf] at hnodup
      exact hnodup.of_append_left

theorem nodup_chainOf_of_reaches {template : String} (h : Reaches ns template stack) :
    (chainOf stack).Nodup := by
  induction h with
  | refl => exact List.nodup_nil
  | tail _ hstep ih => exact nodup_chainOf_of_step hstep ih

/-- Expansion with a stack gives the text or the error that expansion by recursion
gives. It comes to a stack at which it ends, and it ends with nothing else; no
stack allows steps without end; and the names under way are always different. -/
theorem expand_refines_expandPieces (template : String) (ns : Namespace) :
    expand template ns = expandPieces ns [] (pieces template.toList) ∧
      (∃ stack, Reaches ns template stack ∧ Ends ns stack (expand template ns)) ∧
      (∀ stack, Reaches ns template stack → (chainOf stack).Nodup ∧
        ∀ result, Ends ns stack result → result = expand template ns) ∧
      WellFounded fun stack' stack : List Frame => Step ns stack stack' := by
  refine ⟨expand_eq template ns, exists_ends_run ns _ [], fun stack hreaches => ?_,
    wellFounded_step ns⟩
  refine ⟨nodup_chainOf_of_reaches hreaches, fun result hends => ?_⟩
  rw [expand, run_eq_resume, resume_of_reaches hreaches, resume_of_ends hends]

end BuildPlan.Template
