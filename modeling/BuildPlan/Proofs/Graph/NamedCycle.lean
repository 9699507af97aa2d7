import BuildPlan.Graph.NamedCycle
import BuildPlan.Proofs.Graph.Walk
import Mathlib.Data.List.TakeWhile
import Mathlib.Data.String.Basic

/-!
# BuildPlan.Proofs.Graph.NamedCycle

A cycle of names is reported as one of its rotations, closed. Of the rotations
the one is chosen that starts at the least name, so two cycles without repeated
names are reported alike exactly if they are rotations of each other.
-/

namespace BuildPlan.Graph

/-! ### The least name -/

theorem leastName_cons (first name : String) (rest : List String) :
    leastName first (name :: rest) = leastName (if name < first then name else first) rest := rfl

theorem leastName_mem (first : String) (rest : List String) :
    leastName first rest ∈ first :: rest := by
  induction rest generalizing first with
  | nil => exact List.mem_singleton_self first
  | cons name rest ih =>
      rw [leastName_cons]
      have h := ih (if name < first then name else first)
      split at h <;> grind

theorem leastName_le {first name : String} {rest : List String} (h : name ∈ first :: rest) :
    leastName first rest ≤ name := by
  induction rest generalizing first name with
  | nil => exact (List.mem_singleton.mp h).ge
  | cons other rest ih =>
      rw [leastName_cons]
      have hmin : leastName (if other < first then other else first) rest ≤
          if other < first then other else first := ih List.mem_cons_self
      have hle : (if other < first then other else first) ≤ first ∧
          (if other < first then other else first) ≤ other := by
        split
        · next hlt => exact ⟨hlt.le, le_rfl⟩
        · next hge => exact ⟨le_rfl, not_lt.mp hge⟩
      rcases List.mem_cons.mp h with rfl | h
      · exact hmin.trans hle.1
      · rcases List.mem_cons.mp h with rfl | h
        · exact hmin.trans hle.2
        · exact ih (List.mem_cons_of_mem _ h)

/-! ### Rotating to it -/

theorem rotateToLeast_isRotated (names : List String) : names ~r rotateToLeast names := by
  cases names with
  | nil => exact .refl []
  | cons first rest =>
      have hsplit : (first :: rest).takeWhile (· ≠ leastName first rest) ++
          (first :: rest).dropWhile (· ≠ leastName first rest) = first :: rest :=
        List.takeWhile_append_dropWhile
      have h : (first :: rest).takeWhile (· ≠ leastName first rest) ++
          (first :: rest).dropWhile (· ≠ leastName first rest) ~r
            rotateToLeast (first :: rest) := List.isRotated_append
      rwa [hsplit] at h

theorem head?_rotateToLeast (first : String) (rest : List String) :
    (rotateToLeast (first :: rest)).head? = some (leastName first rest) := by
  have hne : (first :: rest).dropWhile (· ≠ leastName first rest) ≠ [] := by
    intro hnil
    have hall := List.dropWhile_eq_nil_iff.mp hnil _ (leastName_mem first rest)
    simp at hall
  have hstop : ((first :: rest).dropWhile (· ≠ leastName first rest)).head hne =
      leastName first rest := by
    simpa using List.head_dropWhile_not (· ≠ leastName first rest) hne
  rw [rotateToLeast, List.head?_append_of_ne_nil _ hne, List.head?_eq_some_head hne, hstop]

/-- A list of names starts at the least of them. -/
def StartsAtLeast (names : List String) : Prop :=
  ∀ first, names.head? = some first → ∀ name ∈ names, first ≤ name

theorem startsAtLeast_rotateToLeast (names : List String) :
    StartsAtLeast (rotateToLeast names) := by
  cases names with
  | nil => simp [StartsAtLeast, rotateToLeast]
  | cons first rest =>
      intro head hhead name hname
      have hmem := (rotateToLeast_isRotated (first :: rest)).perm.mem_iff.mpr hname
      obtain rfl : leastName first rest = head :=
        Option.some.inj ((head?_rotateToLeast first rest).symm.trans hhead)
      exact leastName_le hmem

/-- Of the rotations of a list without repetition only one starts at the least name. -/
theorem eq_of_startsAtLeast {names others : List String} (hn : StartsAtLeast names)
    (ho : StartsAtLeast others) (h : names.Nodup) (hr : names ~r others) : names = others := by
  obtain ⟨n, rfl⟩ := hr
  rcases names.eq_nil_or_concat with rfl | hne
  · simp
  have hpos : 0 < names.length := by
    obtain ⟨_, _, rfl⟩ := hne
    simp
  rw [← List.rotate_mod] at ho ⊢
  have hlt : n % names.length < names.length := Nat.mod_lt n hpos
  have hfirst : names.head? = some names[0] := by
    rw [List.head?_eq_getElem?, List.getElem?_eq_getElem hpos]
  have hfirst' : (names.rotate (n % names.length)).head? = some names[n % names.length] := by
    rw [List.head?_rotate hlt, List.getElem?_eq_getElem hlt]
  -- both lists start with their least name, and names are not repeated
  have heq : names[0] = names[n % names.length] := by
    refine le_antisymm (hn _ hfirst _ (List.getElem_mem hlt)) (ho _ hfirst' _ ?_)
    exact List.mem_rotate.mpr (List.getElem_mem hpos)
  rw [← (h.getElem_inj_iff).mp heq, List.rotate_zero]

/-! ### Closing -/

@[simp] theorem close_nil : close [] = [] := rfl

@[simp] theorem close_cons (first : String) (rest : List String) :
    close (first :: rest) = first :: rest ++ [first] := rfl

@[simp] theorem dropLast_close (names : List String) : (close names).dropLast = names := by
  cases names with
  | nil => rfl
  | cons first rest => rw [close_cons, List.dropLast_concat]

@[simp] theorem head?_close (names : List String) : (close names).head? = names.head? := by
  cases names <;> rfl

@[simp] theorem mem_close {names : List String} {name : String} :
    name ∈ close names ↔ name ∈ names := by
  cases names with
  | nil => rfl
  | cons first rest => simp [or_comm]

theorem StartsAtLeast.close {names : List String} (h : StartsAtLeast names) :
    StartsAtLeast (close names) := by
  intro first hfirst name hname
  rw [head?_close] at hfirst
  exact h first hfirst name (mem_close.mp hname)

/-- A cycle of vertices is reported by the names of one of its rotations. -/
theorem exists_rotated_namedCycle {α : Type} (f : α → String) (walk : List α) :
    ∃ walk', walk ~r walk' ∧ StartsAtLeast (walk'.map f) ∧
      namedCycle (walk.map f) = close (walk'.map f) := by
  obtain ⟨n, hn⟩ := rotateToLeast_isRotated (walk.map f)
  refine ⟨walk.rotate n, ⟨n, rfl⟩, ?_, ?_⟩
  · rw [List.map_rotate, hn]
    exact startsAtLeast_rotateToLeast _
  · rw [namedCycle, ← hn, List.map_rotate]

end BuildPlan.Graph
