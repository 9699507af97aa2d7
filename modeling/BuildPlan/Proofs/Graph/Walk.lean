import BuildPlan.Graph.NamedCycle
import Mathlib.Data.List.Rotate
import Mathlib.Data.List.Chain
import Mathlib.Data.Set.Finite.Basic
import Mathlib.Order.WellFoundedSet

/-!
# BuildPlan.Proofs.Graph.Walk

Closed walks in a graph that is given by the successors of each vertex and a
finite domain. A closed walk is a list of vertices in which every vertex leads
to the one after it and the last one leads back to the first; a cycle is a
closed walk without repetition. Which vertex comes first does not matter, so
closed walks are compared up to rotation.
-/

namespace BuildPlan.Graph

variable {α β : Type}

/-- `w` is a successor of `v`, and both lie in the domain. -/
def Edge (next : α → List α) (domain : List α) (v w : α) : Prop :=
  v ∈ domain ∧ w ∈ domain ∧ w ∈ next v

/-- The steps of a closed walk, the last of which leads back to its start. -/
def steps (walk : List α) : List (α × α) := walk.zip (walk.rotate 1)

/-- A walk along edges that leads back to its start. -/
structure ClosedWalk (edge : α → α → Prop) (walk : List α) : Prop where
  nonempty : walk ≠ []
  along : ∀ step ∈ steps walk, edge step.1 step.2

/-- A closed walk that visits no vertex twice. -/
structure SimpleCycle (edge : α → α → Prop) (walk : List α) : Prop
    extends ClosedWalk edge walk where
  nodup : walk.Nodup

/-! ### Steps -/

theorem steps_cons (v : α) (rest : List α) : steps (v :: rest) = (v :: rest).zip (rest ++ [v]) := by
  simp [steps]

theorem steps_rotate (walk : List α) (n : Nat) : steps (walk.rotate n) = (steps walk).rotate n := by
  unfold steps
  rw [List.rotate_rotate, Nat.add_comm, ← List.rotate_rotate]
  exact (List.zipWith_rotate_distrib Prod.mk walk (walk.rotate 1) n (by simp)).symm

theorem mem_steps_of_isRotated {walk other : List α} (h : walk ~r other) (step : α × α) :
    step ∈ steps walk ↔ step ∈ steps other := by
  obtain ⟨n, rfl⟩ := h
  rw [steps_rotate, List.mem_rotate]

theorem mem_of_mem_steps {walk : List α} {step : α × α} (h : step ∈ steps walk) :
    step.1 ∈ walk ∧ step.2 ∈ walk := by
  obtain ⟨h₁, h₂⟩ := List.of_mem_zip h
  exact ⟨h₁, List.mem_rotate.mp h₂⟩

/-- Every vertex of a closed walk is the start of one of its steps. -/
theorem exists_step_from {walk : List α} {v : α} (h : v ∈ walk) : ∃ w, (v, w) ∈ steps walk := by
  obtain ⟨i, hi, rfl⟩ := List.getElem_of_mem h
  have hi' : i < (walk.rotate 1).length := by rwa [List.length_rotate]
  refine ⟨(walk.rotate 1)[i], ?_⟩
  exact List.mem_iff_getElem.mpr ⟨i, by simpa [steps] using hi, by simp [steps]⟩

/-- The last vertex of a closed walk leads back to its first one. -/
theorem getLast_step {walk : List α} {u v : α} (hu : walk.getLast? = some u)
    (hv : walk.head? = some v) : (u, v) ∈ steps walk := by
  obtain ⟨rest, rfl⟩ := List.head?_eq_some_iff.mp hv
  rw [steps_cons]
  refine List.mem_iff_getElem.mpr ⟨rest.length, by simp, ?_⟩
  rw [List.getLast?_eq_getElem?] at hu
  simpa [List.getElem?_eq_some_iff] using hu

/-! ### Closed walks as chains -/

theorem isChain_iff_zip {R : α → α → Prop} (v : α) (rest : List α) :
    (v :: rest).IsChain R ↔ ∀ step ∈ (v :: rest).zip rest, R step.1 step.2 := by
  induction rest generalizing v with
  | nil => simp
  | cons w rest ih =>
      rw [List.isChain_cons_cons, ih w, List.zip_cons_cons, List.forall_mem_cons]

theorem zip_concat (l : List α) {m : List β} (x : α) (h : l.length = m.length) :
    (l ++ [x]).zip m = l.zip m := by
  have happend : (l ++ [x]).zip (m ++ []) = l.zip m ++ [x].zip [] := List.zip_append h
  simpa using happend

/-- A closed walk is a chain once its first vertex is repeated at its end. -/
theorem closedWalk_cons_iff {edge : α → α → Prop} {v : α} {rest : List α} :
    ClosedWalk edge (v :: rest) ↔ (v :: rest ++ [v]).IsChain edge := by
  have hz : (v :: (rest ++ [v])).zip (rest ++ [v]) = steps (v :: rest) := by
    rw [steps_cons, ← zip_concat (v :: rest) v (by simp), List.cons_append]
  constructor
  · intro h
    rw [List.cons_append, isChain_iff_zip, hz]
    exact h.along
  · intro h
    rw [List.cons_append, isChain_iff_zip, hz] at h
    exact ⟨List.cons_ne_nil v rest, h⟩

theorem ClosedWalk.rotated {edge : α → α → Prop} {walk other : List α}
    (h : ClosedWalk edge walk) (hr : walk ~r other) : ClosedWalk edge other := by
  refine ⟨fun hn => h.nonempty ?_, fun step hs => ?_⟩
  · rw [hn] at hr
    exact List.isRotated_nil_iff.mp hr
  · exact h.along step ((mem_steps_of_isRotated hr step).mpr hs)

theorem SimpleCycle.rotated {edge : α → α → Prop} {walk other : List α}
    (h : SimpleCycle edge walk) (hr : walk ~r other) : SimpleCycle edge other :=
  ⟨h.toClosedWalk.rotated hr, hr.nodup_iff.mp h.nodup⟩

/-! ### Acyclic graphs -/

/-- No vertex is reached from itself. -/
def Acyclic (edge : α → α → Prop) : Prop := ∀ v, ¬ Relation.TransGen edge v v

theorem ClosedWalk.transGen {edge : α → α → Prop} {v : α} {rest : List α}
    (h : ClosedWalk edge (v :: rest)) : Relation.TransGen edge v v := by
  have hc := closedWalk_cons_iff.mp h
  cases rest with
  | nil => exact .single (by simpa using hc)
  | cons w rest =>
      rw [List.cons_append, List.cons_append, List.isChain_cons_cons] at hc
      exact .head' hc.1 (List.relationReflTransGen_of_exists_isChain_cons _ hc.2 (by simp))

/-- Each vertex of a closed walk leads to each of its vertices. -/
theorem ClosedWalk.leads {edge : α → α → Prop} {walk : List α} {v w : α}
    (h : ClosedWalk edge walk) (hv : v ∈ walk) (hw : w ∈ walk) : Relation.TransGen edge v w := by
  obtain ⟨front, back, rfl⟩ := List.append_of_mem hv
  -- the walk can be taken from `v` on; in a chain, what follows a vertex is reached from it
  have hr : front ++ v :: back ~r v :: (back ++ front) := List.isRotated_append
  have hc := closedWalk_cons_iff.mp (h.rotated hr)
  have hpairwise := List.isChain_iff_pairwise.mp (hc.imp fun _ _ => Relation.TransGen.single)
  refine List.rel_of_pairwise_cons hpairwise ?_
  show w ∈ back ++ front ++ [v]
  simp only [List.mem_append, List.mem_cons, List.not_mem_nil, or_false] at hw ⊢
  tauto

theorem exists_closedWalk_of_transGen {edge : α → α → Prop} {v : α}
    (h : Relation.TransGen edge v v) : ∃ rest, ClosedWalk edge (v :: rest) := by
  obtain ⟨w, hvw, hwv⟩ := Relation.TransGen.tail'_iff.mp h
  obtain ⟨tail, hchain, hlast⟩ := List.exists_isChain_cons_of_relationReflTransGen hvw
  refine ⟨tail, closedWalk_cons_iff.mpr ?_⟩
  refine List.IsChain.append hchain (List.isChain_singleton v) ?_
  intro x hx y hy
  rw [List.getLast?_eq_getLast_of_ne_nil (List.cons_ne_nil v tail), Option.mem_some_iff] at hx
  simp only [List.head?_cons, Option.mem_some_iff] at hy
  rwa [← hx, ← hy, hlast]

theorem acyclic_iff {edge : α → α → Prop} : Acyclic edge ↔ ∀ walk, ¬ ClosedWalk edge walk := by
  constructor
  · intro h walk hw
    cases walk with
    | nil => exact hw.nonempty rfl
    | cons v rest => exact h v hw.transGen
  · intro h v hv
    obtain ⟨rest, hw⟩ := exists_closedWalk_of_transGen hv
    exact h _ hw

theorem Acyclic.of_map {edge : α → α → Prop} {edge' : β → β → Prop} (h : Acyclic edge') (f : α → β)
    (hmap : ∀ v w, edge v w → edge' (f v) (f w)) : Acyclic edge :=
  fun v hv => h (f v) (hv.lift f hmap)

/-- A graph is acyclic if some measure decreases along its edges. -/
theorem acyclic_of_decreasing {edge : α → α → Prop} (measure : α → Nat)
    (h : ∀ v w, edge v w → measure w < measure v) : Acyclic edge := by
  intro v hv
  have hlt : ∀ w, Relation.TransGen edge v w → measure w < measure v := by
    intro w hw
    induction hw with
    | single he => exact h _ _ he
    | tail _ he ih => exact (h _ _ he).trans ih
  exact Nat.lt_irrefl _ (hlt v hv)

/-- In an acyclic graph, a finite set of vertices that is not empty has a vertex
from which no edge stays in the set. -/
theorem Acyclic.exists_sink {edge : α → α → Prop} (h : Acyclic edge) {s : Set α}
    (hfin : s.Finite) (hne : s.Nonempty) : ∃ v ∈ s, ∀ w ∈ s, ¬ edge v w := by
  have : IsStrictOrder α (flip (Relation.TransGen edge)) :=
    { irrefl := h, trans := fun _ _ _ hxy hyz => hyz.trans hxy }
  -- on a finite set the order of reachability is well founded
  obtain ⟨v₀, hv₀⟩ := hne
  obtain ⟨⟨v, hv⟩, -, hmin⟩ := (hfin.wellFoundedOn (r := flip (Relation.TransGen edge))).has_min
    Set.univ ⟨⟨v₀, hv₀⟩, Set.mem_univ _⟩
  exact ⟨v, hv, fun w hw he => hmin ⟨w, hw⟩ (Set.mem_univ _) (.single he)⟩

end BuildPlan.Graph
