import BuildPlan.Graph.Traversal
import BuildPlan.Proofs.Graph.Walk
import Mathlib.Logic.Relation

/-!
# BuildPlan.Proofs.Graph.Reachability

Which vertices a traversal enters, and in which order. `depthFirst` says the order
by recursion: a vertex, all that is new from its successors on, and then what is
still new from the vertices beside it on. The traversal with a list of pending
vertices enters the same vertices in the same order. They are the ones that can be
reached within the domain.
-/

namespace BuildPlan.Graph

variable {α : Type} [DecidableEq α] {next : α → List α} {domain unseen pending : List α}

/-! ### Paths in a domain without one of its vertices -/

theorem Edge.of_erase {u v w : α} (h : Edge next (domain.erase v) u w) : Edge next domain u w :=
  ⟨List.mem_of_mem_erase h.1, List.mem_of_mem_erase h.2.1, h.2.2⟩

theorem Edge.erase {u v w : α} (h : Edge next domain u w) (hu : u ≠ v) (hw : w ≠ v) :
    Edge next (domain.erase v) u w :=
  ⟨(List.mem_erase_of_ne hu).mpr h.1, (List.mem_erase_of_ne hw).mpr h.2.1, h.2.2⟩

theorem reflTransGen_of_erase {v w x : α}
    (h : Relation.ReflTransGen (Edge next (domain.erase v)) w x) :
    Relation.ReflTransGen (Edge next domain) w x :=
  h.lift id fun _ _ => Edge.of_erase

theorem transGen_of_erase {v w x : α} (h : Relation.TransGen (Edge next (domain.erase v)) w x) :
    Relation.TransGen (Edge next domain) w x :=
  h.lift id fun _ _ => Edge.of_erase

omit [DecidableEq α] in
theorem mem_of_path {w x : α} (hw : w ∈ domain)
    (h : Relation.ReflTransGen (Edge next domain) w x) : x ∈ domain := by
  rcases h.cases_tail with rfl | ⟨_, -, hedge⟩
  · exact hw
  · exact hedge.2.1

/-- A path to another vertex than `v` does without `v`, or it does so from a
successor of `v` on. -/
theorem avoids_or_leaves {v w x : α} (h : Relation.ReflTransGen (Edge next domain) w x)
    (hx : x ≠ v) :
    (w ≠ v ∧ Relation.ReflTransGen (Edge next (domain.erase v)) w x) ∨
      ∃ u ∈ next v, u ∈ domain.erase v ∧
        Relation.ReflTransGen (Edge next (domain.erase v)) u x := by
  induction h with
  | refl => exact .inl ⟨hx, .refl⟩
  | @tail y x _ hedge ih =>
      by_cases hy : y = v
      · subst hy
        exact .inr ⟨x, hedge.2.2, (List.mem_erase_of_ne hx).mpr hedge.2.1, .refl⟩
      · have hlast := hedge.erase hy hx
        rcases ih hy with ⟨hw, hpath⟩ | ⟨u, hu, hmem, hpath⟩
        · exact .inl ⟨hw, hpath.tail hlast⟩
        · exact .inr ⟨u, hu, hmem, hpath.tail hlast⟩

/-! ### What is entered -/

/-- The unseen vertices that can be reached from the given ones, in the order in
which a search by recursion enters them. -/
def depthFirst (next : α → List α) (unseen : List α) : List α → List α
  | [] => []
  | v :: rest =>
    if _new : v ∈ unseen then
      let below := depthFirst next (unseen.erase v) (next v)
      v :: below ++ depthFirst next ((unseen.erase v).filter (· ∉ below)) rest
    else depthFirst next unseen rest
termination_by vertices => (unseen.length, vertices.length)
decreasing_by
  · exact Prod.Lex.left _ _ (length_erase_lt _new)
  · exact Prod.Lex.left _ _
      (Nat.lt_of_le_of_lt (List.length_filter_le _ _) (length_erase_lt _new))
  · exact Prod.Lex.right _ (by simp)

/-- Taking out what is entered below `v` and then what is entered after it leaves
what neither `v` nor any of them is. -/
theorem erase_filter_filter {v : α} (h : unseen.Nodup) (below after : List α) :
    ((unseen.erase v).filter (· ∉ below)).filter (· ∉ after) =
      unseen.filter (· ∉ v :: below ++ after) := by
  rw [h.erase_eq_filter, List.filter_filter, List.filter_filter]
  refine List.filter_congr fun w _ => ?_
  by_cases hv : w = v <;> by_cases hb : w ∈ below <;> by_cases ha : w ∈ after <;>
    simp [hv, hb, ha]

/-- With vertices pending behind others, the traversal enters what is reached from
the others, and goes on without it. -/
theorem preorder_append (h : unseen.Nodup) (rest : List α) :
    preorder next unseen (pending ++ rest) =
      depthFirst next unseen pending ++
        preorder next (unseen.filter (· ∉ depthFirst next unseen pending)) rest := by
  fun_induction depthFirst next unseen pending generalizing rest with
  | case1 unseen => simp
  | case2 unseen v vertices hv below ihbelow ihafter =>
      have herase : (unseen.erase v).Nodup := h.erase v
      rw [List.cons_append, preorder, dif_pos hv, ihbelow herase, ihafter (herase.filter _),
        erase_filter_filter h]
      simp only [List.cons_append, List.append_assoc, below]
  | case3 unseen v vertices hv ih =>
      rw [List.cons_append, preorder, dif_neg hv, ih h]

/-- The traversal that keeps its pending vertices in a list is the search by recursion. -/
theorem preorder_eq_depthFirst (h : unseen.Nodup) (pending : List α) :
    preorder next unseen pending = depthFirst next unseen pending := by
  have happend : preorder next unseen (pending ++ []) = _ := preorder_append h []
  simpa [preorder] using happend

/-- The traversal enters exactly what can be reached without leaving the unseen vertices. -/
theorem mem_preorder_iff (h : unseen.Nodup) {x : α} :
    x ∈ preorder next unseen pending ↔
      ∃ w ∈ pending, w ∈ unseen ∧ Relation.ReflTransGen (Edge next unseen) w x := by
  fun_induction preorder next unseen pending with
  | case1 unseen => simp
  | case2 unseen v rest hv ih =>
      rw [List.mem_cons, ih (h.erase v)]
      constructor
      · rintro (rfl | ⟨w, hw, hmem, hpath⟩)
        · exact ⟨x, List.mem_cons_self, hv, .refl⟩
        · have hpath := reflTransGen_of_erase hpath
          have hmem := List.mem_of_mem_erase hmem
          rcases List.mem_append.mp hw with hnext | hrest
          · exact ⟨v, List.mem_cons_self, hv, .head ⟨hv, hmem, hnext⟩ hpath⟩
          · exact ⟨w, List.mem_cons_of_mem v hrest, hmem, hpath⟩
      · rintro ⟨w, hw, hmem, hpath⟩
        by_cases hx : x = v
        · exact .inl hx
        · refine .inr ?_
          rcases avoids_or_leaves hpath hx with ⟨hwv, havoid⟩ | ⟨u, hu, hmem, havoid⟩
          · have hrest : w ∈ rest := (List.mem_cons.mp hw).resolve_left hwv
            exact ⟨w, List.mem_append_right _ hrest, (List.mem_erase_of_ne hwv).mpr hmem, havoid⟩
          · exact ⟨u, List.mem_append_left _ hu, hmem, havoid⟩
  | case3 unseen v rest hv ih =>
      rw [ih h]
      constructor
      · rintro ⟨w, hw, hmem⟩
        exact ⟨w, List.mem_cons_of_mem v hw, hmem⟩
      · rintro ⟨w, hw, hmem, hpath⟩
        have hwv : w ≠ v := fun heq => hv (heq ▸ hmem)
        exact ⟨w, (List.mem_cons.mp hw).resolve_left hwv, hmem, hpath⟩

/-- No vertex is entered twice. -/
theorem nodup_preorder (h : unseen.Nodup) : (preorder next unseen pending).Nodup := by
  fun_induction preorder next unseen pending with
  | case1 => exact List.nodup_nil
  | case2 unseen v rest hv ih =>
      refine List.nodup_cons.mpr ⟨fun hagain => ?_, ih (h.erase v)⟩
      obtain ⟨w, -, hw, hpath⟩ := (mem_preorder_iff (h.erase v)).mp hagain
      exact h.not_mem_erase (mem_of_path hw hpath)
  | case3 unseen v rest _ ih => exact ih h

/-- A traversal that stays among some vertices takes no notice of the others. -/
theorem preorder_congr {next' : α → List α} {unseen' : List α} {within : α → Prop}
    (h : unseen.Nodup) (h' : unseen'.Nodup) (hpending : ∀ v ∈ pending, within v)
    (hclosed : ∀ v, within v → ∀ w ∈ next v, within w)
    (hnext : ∀ v, within v → next' v = next v)
    (hunseen : ∀ v, within v → (v ∈ unseen' ↔ v ∈ unseen)) :
    preorder next' unseen' pending = preorder next unseen pending := by
  fun_induction preorder next unseen pending generalizing unseen' with
  | case1 unseen => rw [preorder]
  | case2 unseen v rest hv ih =>
      obtain ⟨hwithin, hrest⟩ := List.forall_mem_cons.mp hpending
      have hv' : v ∈ unseen' := (hunseen v hwithin).mpr hv
      rw [preorder, dif_pos hv', hnext v hwithin,
        ih (h.erase v) (h'.erase v) (fun w hw => ?_) fun w hw => ?_]
      · exact (List.mem_append.mp hw).elim (hclosed v hwithin w) (hrest w)
      · rw [h'.mem_erase_iff, h.mem_erase_iff, hunseen w hw]
  | case3 unseen v rest hv ih =>
      obtain ⟨hwithin, hrest⟩ := List.forall_mem_cons.mp hpending
      rw [preorder, dif_neg ((hunseen v hwithin).not.mpr hv), ih h h' hrest hunseen]

end BuildPlan.Graph
