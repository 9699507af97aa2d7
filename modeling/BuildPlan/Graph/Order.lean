/-!
# BuildPlan.Graph.Order

Placing the vertices `0, 1, …, count - 1` of a graph so that each follows the
vertices it depends on. For every vertex the links to vertices that have not
been placed yet are counted. A vertex without such links is ready, and of the
ready vertices the smallest one is placed next.
-/

namespace BuildPlan.Graph

/-- The links among the first `count` vertices: pairs of a vertex and one it
depends on. A dependency that is listed twice makes two links. -/
def links (count : Nat) (next : Nat → List Nat) : List (Nat × Nat) :=
  (List.range count).flatMap fun v => ((next v).filter (· < count)).map (v, ·)

/-- The vertices that depend on `v`, once for every link. -/
def dependents (links : List (Nat × Nat)) (v : Nat) : List Nat :=
  (links.filter (·.2 = v)).map (·.1)

def linkCount (links : List (Nat × Nat)) (v : Nat) : Nat := links.countP (·.1 = v)

/-- Vertices on their way to being placed. -/
structure Queue where
  /-- For every vertex, how many of its links lead to vertices not placed yet. -/
  waiting : List Nat
  ready : List Nat
  deriving DecidableEq, Repr

namespace Queue

/-- All vertices, before the first one is placed. -/
def ofLinks (count : Nat) (links : List (Nat × Nat)) : Queue where
  waiting := (List.range count).map (linkCount links)
  ready := (List.range count).filter (linkCount links · = 0)

/-- A vertex that `v` depends on has been placed. -/
def release (queue : Queue) (v : Nat) : Queue where
  waiting := queue.waiting.modify v (· - 1)
  ready := if queue.waiting[v]? = some 1 then v :: queue.ready else queue.ready

def place (links : List (Nat × Nat)) (queue : Queue) (v : Nat) : Queue :=
  (dependents links v).foldl release { queue with ready := queue.ready.erase v }

/-- Links that are waited for and vertices that are ready. Placing a vertex uses
one up; a release turns a link into at most one vertex. -/
def size (queue : Queue) : Nat := queue.waiting.foldr (· + ·) 0 + queue.ready.length

theorem foldr_modify_pred {counts : List Nat} {v n : Nat} (h : counts[v]? = some (n + 1)) :
    (counts.modify v (· - 1)).foldr (· + ·) 0 + 1 = counts.foldr (· + ·) 0 := by
  induction counts generalizing v with
  | nil => simp at h
  | cons c rest ih =>
      cases v with
      | zero =>
          obtain rfl : c = n + 1 := by simpa using h
          simp [List.modify]
          omega
      | succ v =>
          have := ih (v := v) (by simpa using h)
          simp
          omega

theorem modify_pred_of_zero {counts : List Nat} {v : Nat} (h : ∀ n, counts[v]? ≠ some (n + 1)) :
    counts.modify v (· - 1) = counts := by
  refine List.ext_getElem? fun i => ?_
  rw [List.getElem?_modify]
  by_cases hi : v = i
  · subst hi
    cases hc : counts[v]? with
    | none => simp
    | some c =>
        cases c with
        | zero => simp
        | succ n => exact absurd hc (h n)
  · simp [hi]

theorem size_release_le (queue : Queue) (v : Nat) : (queue.release v).size ≤ queue.size := by
  unfold release size
  by_cases h : ∃ n, queue.waiting[v]? = some (n + 1)
  · obtain ⟨n, hn⟩ := h
    have := foldr_modify_pred hn
    split <;> simp <;> omega
  · have h' : ∀ n, queue.waiting[v]? ≠ some (n + 1) := fun n hn => h ⟨n, hn⟩
    simp [modify_pred_of_zero h', h' 0]

theorem size_foldl_release_le (vertices : List Nat) (queue : Queue) :
    (vertices.foldl release queue).size ≤ queue.size := by
  induction vertices generalizing queue with
  | nil => exact Nat.le_refl _
  | cons v rest ih => exact Nat.le_trans (ih (queue.release v)) (size_release_le queue v)

theorem size_place_lt {links : List (Nat × Nat)} {queue : Queue} {v : Nat}
    (h : v ∈ queue.ready) : (queue.place links v).size < queue.size := by
  refine Nat.lt_of_le_of_lt (size_foldl_release_le _ _) ?_
  have := List.length_erase_of_mem h
  have := List.length_pos_of_mem h
  simp only [size]
  omega

/-- Place vertices for as long as one is ready. -/
def drain (links : List (Nat × Nat)) (queue : Queue) : List Nat :=
  match _least : queue.ready.min? with
  | none => []
  | some v => v :: drain links (queue.place links v)
termination_by queue.size
decreasing_by exact size_place_lt (List.min?_mem _least)

end Queue

/-- The first `count` vertices in the order in which they are placed. Vertices on
a cycle, and those that depend on them, are left out. -/
def order (count : Nat) (next : Nat → List Nat) : List Nat :=
  (Queue.ofLinks count (links count next)).drain (links count next)

end BuildPlan.Graph
