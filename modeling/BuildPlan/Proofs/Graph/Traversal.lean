import BuildPlan.Graph.Traversal
import BuildPlan.Proofs.Graph.Walk

/-!
# BuildPlan.Proofs.Graph.Traversal

What depth-first traversals find. The visits still to be made tell where a
traversal stands: the vertices to be left are the path that leads to it, and
each vertex to be entered is a successor of the one that is left next.

* Every loop that `cycles` lists is a cycle of the graph.
* An edge whose end is not left before its start closes one of the loops, so
  every closed walk shares a step with a loop.
-/

namespace BuildPlan.Graph

variable {α : Type}

/-! ### Visits -/

/-- The vertices that are still to be left, the innermost one first. -/
def leaves : List (Visit α) → List α
  | [] => []
  | .enter _ :: rest => leaves rest
  | .leave v :: rest => v :: leaves rest

/-- The edges along which vertices are still to be entered. -/
def pendingEdges : List (Visit α) → List (α × α)
  | [] => []
  | .enter w :: rest => (leaves rest).head?.toList.map (·, w) ++ pendingEdges rest
  | .leave _ :: rest => pendingEdges rest

@[simp] theorem leaves_enterAll_append (vertices : List α) (rest : List (Visit α)) :
    leaves (enterAll vertices ++ rest) = leaves rest := by
  induction vertices with
  | nil => rfl
  | cons v vertices ih => exact ih

@[simp] theorem leaves_enterAll (vertices : List α) : leaves (enterAll vertices) = [] := by
  simpa [leaves] using leaves_enterAll_append vertices []

@[simp] theorem pendingEdges_enterAll (vertices : List α) :
    pendingEdges (enterAll vertices) = [] := by
  induction vertices with
  | nil => rfl
  | cons v vertices ih =>
      change (leaves (enterAll vertices)).head?.toList.map (·, v) ++
        pendingEdges (enterAll vertices) = []
      rw [ih, leaves_enterAll]
      rfl

theorem pendingEdges_entered (vertices : List α) (v : α) (rest : List (Visit α)) :
    pendingEdges (enterAll vertices ++ .leave v :: rest) =
      vertices.map (v, ·) ++ pendingEdges rest := by
  induction vertices with
  | nil => rfl
  | cons w vertices ih =>
      change (leaves (enterAll vertices ++ .leave v :: rest)).head?.toList.map (·, w) ++
        pendingEdges (enterAll vertices ++ .leave v :: rest) = _
      rw [ih, leaves_enterAll_append]
      rfl

theorem mem_leaves_of_pending {u w : α} {visits : List (Visit α)}
    (h : (u, w) ∈ pendingEdges visits) : u ∈ leaves visits := by
  induction visits with
  | nil => simp [pendingEdges] at h
  | cons visit visits ih =>
      cases visit with
      | enter x =>
          rcases List.mem_append.mp h with h | h
          · obtain ⟨_, hu, heq⟩ := List.mem_map.mp h
            obtain ⟨rfl, -⟩ := Prod.mk.inj heq
            exact List.mem_of_head? (Option.mem_toList.mp hu)
          · exact ih h
      | leave x => exact List.mem_cons_of_mem x (ih h)

/-- An edge pending at the next vertex to be entered leads there from the end of
the path; the other pending edges stay pending. -/
theorem pending_enter {u v w : α} {rest : List (Visit α)}
    (h : (u, w) ∈ pendingEdges (.enter v :: rest)) :
    ((leaves rest).head? = some u ∧ w = v) ∨ (u, w) ∈ pendingEdges rest := by
  rcases List.mem_append.mp h with h | h
  · obtain ⟨_, hu, heq⟩ := List.mem_map.mp h
    obtain ⟨rfl, rfl⟩ := Prod.mk.inj heq
    exact .inl ⟨Option.mem_toList.mp hu, rfl⟩
  · exact .inr h

/-! ### The invariant of a traversal -/

variable {next : α → List α} {domain unseen path : List α} {visits rest : List (Visit α)}

/-- A traversal of a domain under way: `unseen` has not been entered, `path` leads
to where it stands and `visits` is still to be done. -/
structure Traversing (next : α → List α) (domain unseen path : List α)
    (visits : List (Visit α)) : Prop where
  leaves_eq : leaves visits = path
  unseen_nodup : unseen.Nodup
  path_nodup : path.Nodup
  disjoint : ∀ v ∈ path, v ∉ unseen
  inside : ∀ v, v ∈ unseen ∨ v ∈ path → v ∈ domain
  pending : ∀ edge ∈ pendingEdges visits, edge.2 ∈ next edge.1
  chain : path.IsChain fun v u => v ∈ next u

theorem Traversing.start (h : domain.Nodup) (vertices : List α) :
    Traversing next domain domain [] (enterAll vertices) where
  leaves_eq := leaves_enterAll vertices
  unseen_nodup := h
  path_nodup := List.nodup_nil
  disjoint := by simp
  inside := by simp
  pending := by simp
  chain := .nil

theorem Traversing.leave {v : α} (h : Traversing next domain unseen path (.leave v :: rest)) :
    path = v :: leaves rest ∧ Traversing next domain unseen path.tail rest := by
  have heq : path = v :: leaves rest := h.leaves_eq.symm
  refine ⟨heq, ?_⟩
  subst heq
  exact {
    leaves_eq := rfl
    unseen_nodup := h.unseen_nodup
    path_nodup := h.path_nodup.tail
    disjoint := fun w hw => h.disjoint w (List.mem_of_mem_tail hw)
    inside := fun w hw => h.inside w (hw.imp_right List.mem_of_mem_tail)
    pending := h.pending
    chain := h.chain.tail }

theorem Traversing.skip {v : α} (h : Traversing next domain unseen path (.enter v :: rest)) :
    Traversing next domain unseen path rest :=
  { h with
    leaves_eq := h.leaves_eq
    pending := fun edge he => h.pending edge (List.mem_append_right _ he) }

/-- The vertex to be entered is a successor of the one that the path ends in. -/
theorem Traversing.head_edge {u v : α} (h : Traversing next domain unseen path (.enter v :: rest))
    (hu : path.head? = some u) : (u, v) ∈ pendingEdges (.enter v :: rest) := by
  have heq : leaves rest = path := h.leaves_eq
  refine List.mem_append_left _ (List.mem_map.mpr ⟨u, ?_, rfl⟩)
  simp [heq, hu]

theorem Traversing.enter [DecidableEq α] {v : α}
    (h : Traversing next domain unseen path (.enter v :: rest))
    (hv : v ∈ unseen) : Traversing next domain (unseen.erase v) (v :: path)
      (enterAll (next v) ++ .leave v :: rest) where
  leaves_eq := by
    rw [leaves_enterAll_append]
    exact congrArg (v :: ·) h.leaves_eq
  unseen_nodup := h.unseen_nodup.erase v
  path_nodup := List.nodup_cons.mpr ⟨fun hp => h.disjoint v hp hv, h.path_nodup⟩
  disjoint := by
    intro w hw hu
    rcases List.mem_cons.mp hw with rfl | hw
    · exact h.unseen_nodup.not_mem_erase hu
    · exact h.disjoint w hw (List.mem_of_mem_erase hu)
  inside := by
    intro w hw
    rcases hw with hw | hw
    · exact h.inside w (.inl (List.mem_of_mem_erase hw))
    · rcases List.mem_cons.mp hw with rfl | hw
      · exact h.inside w (.inl hv)
      · exact h.inside w (.inr hw)
  pending := by
    intro edge he
    rw [pendingEdges_entered] at he
    rcases List.mem_append.mp he with he | he
    · obtain ⟨w, hw, rfl⟩ := List.mem_map.mp he
      exact hw
    · exact h.pending edge (List.mem_append_right _ he)
  chain := List.isChain_cons.mpr
    ⟨fun u hu => h.pending (u, v) (h.head_edge hu), h.chain⟩

/-! ### Every loop is a cycle -/

variable [DecidableEq α]

/-- The part of a path from its end back to `v`. -/
theorem takeWhile_concat_prefix {v : α} {path : List α} (hv : v ∈ path) :
    path.takeWhile (· ≠ v) ++ [v] <+: path := by
  induction path with
  | nil => simp at hv
  | cons u path ih =>
      by_cases hu : u = v
      · simp [hu]
      · have := ih ((List.mem_cons.mp hv).resolve_left (Ne.symm hu))
        simpa [hu, List.cons_prefix_cons] using this

theorem loopFrom_eq (v : α) (path : List α) :
    loopFrom v path = (path.takeWhile (· ≠ v) ++ [v]).reverse := by
  simp [loopFrom]

/-- A path that meets itself closes a cycle, whose last step is the one back. -/
theorem Traversing.loop {v : α} (h : Traversing next domain unseen path (.enter v :: rest))
    (hv : v ∈ path) : SimpleCycle (Edge next domain) (loopFrom v path) ∧
      ∀ u, path.head? = some u → (u, v) ∈ steps (loopFrom v path) := by
  have hpre := takeWhile_concat_prefix hv
  have hhead : ∀ u, (path.takeWhile (· ≠ v) ++ [v]).head? = some u ↔ path.head? = some u := by
    obtain ⟨tail, htail⟩ := hpre
    intro u
    conv_rhs => rw [← htail]
    simp
  have hedge : ∀ u w, u ∈ path → w ∈ path → w ∈ next u → Edge next domain u w :=
    fun u w hu hw hnext => ⟨h.inside u (.inr hu), h.inside w (.inr hw), hnext⟩
  refine ⟨⟨?_, ?_⟩, fun u hu => ?_⟩
  · -- the path is kept from its end back, and the loop runs forwards
    refine closedWalk_cons_iff.mpr ?_
    have hrev : v :: (path.takeWhile (· ≠ v)).reverse ++ [v] =
        (v :: (path.takeWhile (· ≠ v) ++ [v])).reverse := by simp
    rw [hrev, List.isChain_reverse, List.isChain_cons]
    constructor
    · intro u hu
      have hu' : path.head? = some u := (hhead u).mp hu
      exact hedge u v (List.mem_of_head? hu') hv (h.pending (u, v) (h.head_edge hu'))
    · have hchain := List.IsChain.prefix h.chain hpre
      refine hchain.imp_of_mem_imp fun w u hw hu hnext => ?_
      exact hedge u w (hpre.subset hu) (hpre.subset hw) hnext
  · rw [loopFrom_eq, List.nodup_reverse]
    exact h.path_nodup.sublist hpre.sublist
  · refine getLast_step ?_ rfl
    rw [loopFrom_eq, List.getLast?_reverse]
    exact (hhead u).mpr hu

theorem simpleCycle_of_mem_cycles {loop : List α} (h : Traversing next domain unseen path visits)
    (hloop : loop ∈ cycles next unseen path visits) : SimpleCycle (Edge next domain) loop := by
  fun_induction cycles next unseen path visits with
  | case1 => simp at hloop
  | case2 unseen path v rest ih => exact ih h.leave.2 hloop
  | case3 unseen path v rest hv ih => exact ih (h.enter hv) hloop
  | case4 unseen path v rest _ hp ih =>
      rcases List.mem_cons.mp hloop with rfl | hloop
      · exact (h.loop hp).1
      · exact ih h.skip hloop
  | case5 unseen path v rest _ _ ih => exact ih h.skip hloop

/-! ### The order in which vertices are left -/

theorem leaves_sublist_postorder (next : α → List α) (unseen : List α) (visits : List (Visit α)) :
    (leaves visits).Sublist (postorder next unseen visits) := by
  fun_induction postorder next unseen visits with
  | case1 => exact .slnil
  | case2 unseen v rest ih => exact ih.cons_cons v
  | case3 unseen v rest _ ih =>
      rw [leaves_enterAll_append] at ih
      exact (List.sublist_cons_self v _).trans ih
  | case4 unseen v rest _ ih => exact ih

/-- A vertex that is going to be entered for the first time is left as well. -/
theorem mem_postorder_of_enter {v : α} (hv : v ∈ unseen) (he : .enter v ∈ visits) :
    v ∈ postorder next unseen visits := by
  fun_induction postorder next unseen visits with
  | case1 => simp at he
  | case2 unseen w rest ih =>
      refine List.mem_cons_of_mem _ (ih hv ?_)
      simpa using he
  | case3 unseen w rest hw ih =>
      by_cases hvw : v = w
      · subst hvw
        refine (leaves_sublist_postorder _ _ _).subset ?_
        simp [leaves]
      · refine ih ((List.mem_erase_of_ne hvw).mpr hv) ?_
        simp only [List.mem_cons, Visit.enter.injEq] at he
        simp [he.resolve_left hvw]
  | case4 unseen w rest hw ih =>
      refine ih hv ?_
      simp only [List.mem_cons, Visit.enter.injEq] at he
      exact he.resolve_left fun hvw => hw (hvw ▸ hv)

/-- Each vertex is left once, and only the vertices of the path and those not
seen yet are left. -/
theorem Traversing.nodup_postorder (h : Traversing next domain unseen path visits) :
    (postorder next unseen visits).Nodup ∧
      ∀ v ∈ postorder next unseen visits, v ∈ unseen ∨ v ∈ path := by
  fun_induction postorder next unseen visits generalizing path with
  | case1 => simp
  | case2 unseen v rest ih =>
      obtain ⟨heq, hrest⟩ := h.leave
      obtain ⟨hnodup, hmem⟩ := ih hrest
      subst heq
      refine ⟨List.nodup_cons.mpr ⟨fun hv => ?_, hnodup⟩, fun w hw => ?_⟩
      · rcases hmem v hv with hu | hp
        · exact h.disjoint v (List.mem_cons_self) hu
        · exact (List.nodup_cons.mp h.path_nodup).1 hp
      · rcases List.mem_cons.mp hw with rfl | hw
        · exact .inr List.mem_cons_self
        · exact (hmem w hw).imp_right (List.mem_cons_of_mem v)
  | case3 unseen v rest hv ih =>
      obtain ⟨hnodup, hmem⟩ := ih (h.enter hv)
      refine ⟨hnodup, fun w hw => ?_⟩
      rcases hmem w hw with hu | hp
      · exact .inl (List.mem_of_mem_erase hu)
      · rcases List.mem_cons.mp hp with rfl | hp
        · exact .inl hv
        · exact .inr hp
  | case4 unseen v rest _ ih => exact ih h.skip

/-! ### Which edges close loops -/

/-- What becomes of an edge from `u` to `w` that the traversal still has to look
at: it closes a loop, or `w` is left before `u`. -/
def Settles (next : α → List α) (unseen path : List α) (visits : List (Visit α)) (u w : α) : Prop :=
  (∃ loop ∈ cycles next unseen path visits, (u, w) ∈ steps loop) ∨
    [w, u].Sublist (postorder next unseen visits) ∨ (w ∉ unseen ∧ w ∉ path)

section Settles

variable {u v w : α}

theorem Settles.of_leave (h : Settles next unseen path rest u w)
    (hu : u ∈ postorder next unseen rest) :
    Settles next unseen (v :: path) (.leave v :: rest) u w := by
  unfold Settles at h ⊢
  rw [cycles, postorder, List.tail_cons]
  rcases h with hloop | hleft | ⟨hnew, hpath⟩
  · exact .inl hloop
  · exact .inr (.inl (hleft.cons v))
  · by_cases hw : w = v
    · subst hw
      exact .inr (.inl ((List.singleton_sublist.mpr hu).cons_cons w))
    · exact .inr (.inr ⟨hnew, by simp [hw, hpath]⟩)

theorem Settles.of_enter (hv : v ∈ unseen)
    (h : Settles next (unseen.erase v) (v :: path) (enterAll (next v) ++ .leave v :: rest) u w) :
    Settles next unseen path (.enter v :: rest) u w := by
  unfold Settles at h ⊢
  rw [cycles, postorder, dif_pos hv, dif_pos hv]
  refine h.imp_right (Or.imp_right fun hleft => ?_)
  obtain ⟨hne, hpath⟩ := not_or.mp (mt List.mem_cons.mpr hleft.2)
  exact ⟨fun hw => hleft.1 ((List.mem_erase_of_ne hne).mpr hw), hpath⟩

theorem Settles.of_skip (hv : v ∉ unseen) (h : Settles next unseen path rest u w) :
    Settles next unseen path (.enter v :: rest) u w := by
  unfold Settles at h ⊢
  rw [cycles, postorder, dif_neg hv, dif_neg hv]
  refine h.imp_left fun hshared => ?_
  obtain ⟨loop, hloop, hstep⟩ := hshared
  refine ⟨loop, ?_, hstep⟩
  split
  · exact List.mem_cons_of_mem _ hloop
  · exact hloop

end Settles

/-- The edges of vertices not seen yet, and those that are pending, settle. The
induction follows the traversal; an edge is settled when its end is entered. -/
theorem Traversing.settles (h : Traversing next domain unseen path visits) {u w : α}
    (hedge : w ∈ next u)
    (hu : (u ∈ unseen ∧ u ∈ postorder next unseen visits) ∨ (u, w) ∈ pendingEdges visits) :
    Settles next unseen path visits u w := by
  fun_induction cycles next unseen path visits with
  | case1 => simp [postorder, pendingEdges] at hu
  | case2 unseen path v rest ih =>
      obtain ⟨heq, hrest⟩ := h.leave
      subst heq
      rw [postorder] at hu
      have hu' : u ∈ postorder next unseen rest := by
        rcases hu with ⟨hnew, hleft⟩ | hpend
        · refine (List.mem_cons.mp hleft).resolve_left fun huv => ?_
          exact h.disjoint v List.mem_cons_self (huv ▸ hnew)
        · exact (leaves_sublist_postorder _ _ _).subset (mem_leaves_of_pending hpend)
      exact (ih hrest (hu.imp_left fun hnew => ⟨hnew.1, hu'⟩)).of_leave hu'
  | case3 unseen path v rest hv ih =>
      rw [postorder, dif_pos hv] at hu
      rcases hu with ⟨hnew, hleft⟩ | hpend
      · refine .of_enter hv (ih (h.enter hv) ?_)
        by_cases huv : u = v
        · subst huv
          refine .inr ?_
          rw [pendingEdges_entered]
          exact List.mem_append_left _ (List.mem_map_of_mem hedge)
        · exact .inl ⟨(List.mem_erase_of_ne huv).mpr hnew, hleft⟩
      · rcases pending_enter hpend with ⟨hhead, rfl⟩ | hpend
        · -- `w` is entered while `u` is on the path, so it is left first
          obtain ⟨tail, htail⟩ := List.head?_eq_some_iff.mp hhead
          have hsub := leaves_sublist_postorder next (unseen.erase w)
            (enterAll (next w) ++ .leave w :: rest)
          rw [leaves_enterAll_append, leaves, htail] at hsub
          refine .inr (.inl ?_)
          rw [postorder, dif_pos hv]
          exact (((List.nil_sublist tail).cons_cons u).cons_cons w).trans hsub
        · refine .of_enter hv (ih (h.enter hv) (.inr ?_))
          rw [pendingEdges_entered]
          exact List.mem_append_right _ hpend
  | case4 unseen path v rest hv hp ih =>
      rw [postorder, dif_neg hv] at hu
      rcases hu with hnew | hpend
      · exact .of_skip hv (ih h.skip (.inl hnew))
      · rcases pending_enter hpend with ⟨hhead, rfl⟩ | hpend
        · -- `w` is on the path already: the edge closes the loop
          refine .inl ⟨loopFrom w path, ?_, (h.loop hp).2 u ?_⟩
          · rw [cycles, dif_neg hv, if_pos hp]
            exact List.mem_cons_self
          · rw [← h.leaves_eq]
            exact hhead
        · exact .of_skip hv (ih h.skip (.inr hpend))
  | case5 unseen path v rest hv hp ih =>
      rw [postorder, dif_neg hv] at hu
      rcases hu with hnew | hpend
      · exact .of_skip hv (ih h.skip (.inl hnew))
      · rcases pending_enter hpend with ⟨-, rfl⟩ | hpend
        · -- `w` was left before the traversal came here
          exact .inr (.inr ⟨hv, hp⟩)
        · exact .of_skip hv (ih h.skip (.inr hpend))

/-! ### The loops of a whole domain -/

theorem simpleCycle_of_mem_allCycles (h : domain.Nodup) {loop : List α}
    (hloop : loop ∈ allCycles next domain) : SimpleCycle (Edge next domain) loop :=
  simpleCycle_of_mem_cycles (.start h domain) hloop

/-- An edge that is on no loop leads to a vertex that is left earlier. -/
theorem mem_allCycles_or_left_before (h : domain.Nodup) {u w : α} (hedge : Edge next domain u w) :
    (∃ loop ∈ allCycles next domain, (u, w) ∈ steps loop) ∨
      [w, u].Sublist (postorder next domain (enterAll domain)) := by
  obtain ⟨hu, hw, hnext⟩ := hedge
  have hleft : u ∈ postorder next domain (enterAll domain) :=
    mem_postorder_of_enter hu (List.mem_map_of_mem hu)
  rcases (Traversing.start h domain).settles hnext (.inl ⟨hu, hleft⟩) with hloop | hsub | ⟨hnew, -⟩
  · exact .inl hloop
  · exact .inr hsub
  · exact absurd hw hnew

theorem idxOf_lt_of_sublist {l : List α} {w u : α} (hsub : [w, u].Sublist l) (h : l.Nodup) :
    l.idxOf w < l.idxOf u := by
  induction l with
  | nil => simp at hsub
  | cons x l ih =>
      obtain ⟨hx, hl⟩ := List.nodup_cons.mp h
      cases hsub with
      | cons _ hsub =>
          have hw : x ≠ w := fun heq => hx (heq ▸ hsub.subset (by simp))
          have hu : x ≠ u := fun heq => hx (heq ▸ hsub.subset (by simp))
          rw [List.idxOf_cons_ne _ hw, List.idxOf_cons_ne _ hu]
          exact Nat.succ_lt_succ (ih hsub hl)
      | cons_cons _ hsub =>
          have hu : w ≠ u := fun heq => hx (heq ▸ hsub.subset (by simp))
          rw [List.idxOf_cons_self, List.idxOf_cons_ne _ hu]
          exact Nat.succ_pos _

/-- Every closed walk shares a step with a loop that the traversal closes: its
vertices cannot each be left after the one they lead to. -/
theorem exists_shared_step (h : domain.Nodup) {walk : List α}
    (hwalk : ClosedWalk (Edge next domain) walk) :
    ∃ loop ∈ allCycles next domain, ∃ step ∈ steps walk, step ∈ steps loop := by
  by_contra hnone
  let order := postorder next domain (enterAll domain)
  have hnodup : order.Nodup := ((Traversing.start h domain).nodup_postorder).1
  -- without a shared step, each step of the walk would lead to a vertex left earlier
  have hback : ClosedWalk (fun u w => order.idxOf w < order.idxOf u) walk := by
    refine ⟨hwalk.nonempty, fun step hstep => ?_⟩
    rcases mem_allCycles_or_left_before h (hwalk.along step hstep) with ⟨loop, hloop, hmem⟩ | hsub
    · exact absurd ⟨loop, hloop, step, hstep, hmem⟩ hnone
    · exact idxOf_lt_of_sublist hsub hnodup
  exact acyclic_iff.mp (acyclic_of_decreasing (order.idxOf ·) fun _ _ hlt => hlt) walk hback

theorem allCycles_eq_nil_iff (h : domain.Nodup) :
    allCycles next domain = [] ↔ Acyclic (Edge next domain) := by
  rw [acyclic_iff, List.eq_nil_iff_forall_not_mem]
  constructor
  · intro hnone walk hwalk
    obtain ⟨loop, hloop, -⟩ := exists_shared_step h hwalk
    exact hnone loop hloop
  · intro hnone loop hloop
    exact hnone loop (simpleCycle_of_mem_allCycles h hloop).toClosedWalk

end BuildPlan.Graph
