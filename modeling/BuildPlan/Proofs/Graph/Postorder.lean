import BuildPlan.Proofs.Graph.Reachability
import BuildPlan.Proofs.Graph.Traversal

/-!
# BuildPlan.Proofs.Graph.Postorder

The vertices that a depth-first traversal leaves. They are the ones that it enters,
and those that lie on its path already. Each is left after its successors, save those
that lead back to it. `Searches` says the same order by recursion: the traversal with
a list of pending visits leaves what a search by recursion finds.
-/

namespace BuildPlan.Graph

variable {α : Type} {next : α → List α} {domain unseen : List α} {visits : List (Visit α)}

/-! ### Which vertices are left -/

/-- The vertices that are still to be entered. -/
def entries : List (Visit α) → List α
  | [] => []
  | .enter v :: rest => v :: entries rest
  | .leave _ :: rest => entries rest

@[simp] theorem entries_enterAll_append (vertices : List α) (rest : List (Visit α)) :
    entries (enterAll vertices ++ rest) = vertices ++ entries rest := by
  induction vertices with
  | nil => rfl
  | cons v vertices ih => exact congrArg (v :: ·) ih

@[simp] theorem entries_enterAll (vertices : List α) : entries (enterAll vertices) = vertices := by
  simpa [entries] using entries_enterAll_append vertices []

variable [DecidableEq α]

theorem mem_postorder_iff {v : α} :
    v ∈ postorder next unseen visits ↔
      v ∈ leaves visits ∨ v ∈ preorder next unseen (entries visits) := by
  fun_induction postorder next unseen visits with
  | case1 => simp [leaves, entries, preorder]
  | case2 unseen w rest ih =>
      rw [List.mem_cons, ih, leaves, entries, List.mem_cons, or_assoc]
  | case3 unseen w rest hw ih =>
      rw [ih, leaves_enterAll_append, entries_enterAll_append, leaves, leaves, entries, entries,
        preorder, dif_pos hw, List.mem_cons, List.mem_cons, or_assoc]
      exact or_left_comm
  | case4 unseen w rest hw ih =>
      rw [ih, leaves, entries, preorder, dif_neg hw]

/-! ### In which order they are left -/

section Order

variable {roots : List α} {u w : α}

theorem nodup_postorder (next : α → List α) (hdomain : domain.Nodup) (roots : List α) :
    (postorder next domain (enterAll roots)).Nodup := by
  have hstart : Traversing next domain domain [] (enterAll roots) := .start hdomain roots
  exact hstart.nodup_postorder.1

/-- A vertex is left after each of its successors that does not lead back to it. -/
theorem left_before_or_leads_back (hdomain : domain.Nodup)
    (hu : u ∈ postorder next domain (enterAll roots)) (hedge : Edge next domain u w) :
    [w, u].Sublist (postorder next domain (enterAll roots)) ∨
      Relation.TransGen (Edge next domain) w u := by
  have hstart : Traversing next domain domain [] (enterAll roots) := .start hdomain roots
  rcases hstart.settles hedge.2.2 (.inl ⟨hedge.1, hu⟩) with ⟨loop, hloop, hstep⟩ | hsub | ⟨hnew, -⟩
  · -- the edge is a step of a cycle, which goes on to where the edge starts
    obtain ⟨hu, hw⟩ := mem_of_mem_steps hstep
    exact .inr ((simpleCycle_of_mem_cycles hstart hloop).leads hw hu)
  · exact .inl hsub
  · exact absurd hedge.2.1 hnew

end Order

/-! ### The search by recursion -/

/-- A search by recursion through a list of vertices. A vertex that has not been seen is marked
as seen, the search goes through its successors, and then the vertex is found. All parts of a
search share what has been seen; `left` is what a search leaves unseen. -/
inductive Searches (next : α → List α) : List α → List α → List α → List α → Prop
  | done {unseen : List α} : Searches next unseen [] [] unseen
  | pass {unseen vertices found left : List α} {v : α} (hv : v ∉ unseen)
      (hrest : Searches next unseen vertices found left) :
      Searches next unseen (v :: vertices) found left
  | visit {unseen between left vertices below found : List α} {v : α} (hv : v ∈ unseen)
      (hbelow : Searches next (unseen.erase v) (next v) below between)
      (hrest : Searches next between vertices found left) :
      Searches next unseen (v :: vertices) (below ++ v :: found) left

section Search

variable {vertices found left : List α}

theorem Searches.length_le (h : Searches next unseen vertices found left) :
    left.length ≤ unseen.length := by
  induction h with
  | done => exact Nat.le_refl _
  | pass _ _ ih => exact ih
  | visit hv _ _ ihbelow ihrest =>
      have hshorter := length_erase_lt hv
      omega

/-- The search comes to an end: it goes on behind a vertex with no more unseen vertices than
before, and below a vertex with one less. -/
theorem exists_searches (next : α → List α) (unseen vertices : List α) :
    ∃ found left, Searches next unseen vertices found left := by
  match vertices with
  | [] => exact ⟨[], unseen, .done⟩
  | v :: vertices =>
      by_cases hv : v ∈ unseen
      · obtain ⟨below, between, hbelow⟩ := exists_searches next (unseen.erase v) (next v)
        have hfewer := hbelow.length_le
        have hshorter := length_erase_lt hv
        obtain ⟨found, left, hrest⟩ := exists_searches next between vertices
        exact ⟨below ++ v :: found, left, .visit hv hbelow hrest⟩
      · obtain ⟨found, left, hrest⟩ := exists_searches next unseen vertices
        exact ⟨found, left, .pass hv hrest⟩
termination_by (unseen.length, vertices.length)
decreasing_by
  · exact Prod.Lex.left _ _ (length_erase_lt hv)
  · exact Prod.Lex.left _ _ (by omega)
  · exact Prod.Lex.right _ (by simp)

/-- The traversal with pending visits leaves what the search finds, and goes on without it. -/
theorem Searches.postorder_append (h : Searches next unseen vertices found left)
    (rest : List (Visit α)) :
    postorder next unseen (enterAll vertices ++ rest) = found ++ postorder next left rest := by
  induction h generalizing rest with
  | done => rfl
  | @pass unseen vertices found left v hv _ ih =>
      show postorder next unseen (.enter v :: (enterAll vertices ++ rest)) = _
      rw [postorder, dif_neg hv, ih]
  | @visit unseen between left vertices below found v hv _ _ ihbelow ihrest =>
      show postorder next unseen (.enter v :: (enterAll vertices ++ rest)) = _
      rw [postorder, dif_pos hv, ihbelow, postorder, ihrest, List.append_assoc, List.cons_append]

/-- So the search has one outcome. -/
theorem exists_searches_iff :
    (∃ left, Searches next unseen vertices found left) ↔
      found = postorder next unseen (enterAll vertices) := by
  have hfound : ∀ {found left}, Searches next unseen vertices found left →
      found = postorder next unseen (enterAll vertices) := by
    intro found left h
    have happend := h.postorder_append []
    simpa [postorder] using happend.symm
  constructor
  · intro h
    obtain ⟨left, h⟩ := h
    exact hfound h
  · intro h
    obtain ⟨other, left, hother⟩ := exists_searches next unseen vertices
    rw [h, ← hfound hother]
    exact ⟨left, hother⟩

end Search

end BuildPlan.Graph
