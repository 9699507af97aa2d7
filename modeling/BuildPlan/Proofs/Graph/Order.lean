import BuildPlan.Graph.Order
import BuildPlan.Proofs.Graph.Walk
import Mathlib.Order.Bounds.Basic

/-!
# BuildPlan.Proofs.Graph.Order

What `Graph.order` places and in which order. The counters of the queue are the
numbers of links to vertices not placed yet, so its ready vertices are those
whose dependencies have all been placed, and the loop takes the least of them
each time. It stops early only when every remaining vertex waits for another
remaining one, which takes a cycle.
-/

namespace BuildPlan.Graph

/-- `v` can be placed after the vertices in `placed`. -/
def Ready (count : Nat) (next : Nat → List Nat) (placed : List Nat) (v : Nat) : Prop :=
  v < count ∧ v ∉ placed ∧ ∀ d ∈ next v, d < count → d ∈ placed

/-- After the vertices in `placed`, each vertex of `order` is the least one that
can be placed when its turn comes. -/
def LeastFirst (count : Nat) (next : Nat → List Nat) (placed order : List Nat) : Prop :=
  ∀ before v after, order = before ++ v :: after →
    IsLeast {u | Ready count next (placed ++ before) u} v

/-! ### Links -/

theorem mem_links {count : Nat} {next : Nat → List Nat} {link : Nat × Nat} :
    link ∈ links count next ↔ link.1 < count ∧ link.2 ∈ next link.1 ∧ link.2 < count := by
  obtain ⟨v, d⟩ := link
  simp only [links, List.mem_flatMap, List.mem_range, List.mem_map, List.mem_filter,
    decide_eq_true_eq, Prod.mk.injEq]
  constructor
  · rintro ⟨_, hv, _, ⟨hd, hlt⟩, rfl, rfl⟩
    exact ⟨hv, hd, hlt⟩
  · rintro ⟨hv, hd, hlt⟩
    exact ⟨v, hv, d, ⟨hd, hlt⟩, rfl, rfl⟩

/-- The number of links from `v` to vertices outside of `placed`. -/
def openLinks (links : List (Nat × Nat)) (placed : List Nat) (v : Nat) : Nat :=
  links.countP fun link => link.1 = v ∧ link.2 ∉ placed

theorem openLinks_nil (links : List (Nat × Nat)) (v : Nat) :
    openLinks links [] v = linkCount links v := by
  simp [openLinks, linkCount]

theorem openLinks_eq_zero_iff {count : Nat} {next : Nat → List Nat} {placed : List Nat} {v : Nat}
    (hv : v < count) :
    openLinks (links count next) placed v = 0 ↔ ∀ d ∈ next v, d < count → d ∈ placed := by
  simp only [openLinks, List.countP_eq_zero, mem_links, decide_eq_true_eq, Prod.forall, not_and,
    not_not]
  constructor
  · intro h d hd hlt
    exact h v d ⟨hv, hd, hlt⟩ rfl
  · rintro h u d ⟨-, hd, hlt⟩ rfl
    exact h d hd hlt

/-- Placing a vertex closes the links that its dependents have to it. -/
theorem openLinks_concat (links : List (Nat × Nat)) {placed : List Nat} {v : Nat} (u : Nat)
    (hv : v ∉ placed) :
    openLinks links (placed ++ [v]) u + (dependents links v).count u =
      openLinks links placed u := by
  unfold openLinks dependents
  induction links with
  | nil => rfl
  | cons link rest ih =>
      rw [List.countP_cons, List.countP_cons, List.filter_cons]
      by_cases hd : link.2 = v <;> by_cases hu : link.1 = u <;> simp [hd, hu, hv] at ih ⊢ <;> omega

/-! ### Releasing -/

namespace Queue

/-- The ready vertices are listed once, and none of them waits for a link. -/
structure Settled (queue : Queue) : Prop where
  nodup : queue.ready.Nodup
  zero : ∀ u ∈ queue.ready, queue.waiting[u]? = some 0

theorem waiting_release (queue : Queue) (v u : Nat) :
    (queue.release v).waiting[u]? = queue.waiting[u]?.map (· - [v].count u) := by
  simp only [release, List.getElem?_modify, List.count_singleton, beq_iff_eq]
  split <;> simp

theorem mem_ready_release {queue : Queue} {v u : Nat} :
    u ∈ (queue.release v).ready ↔ u ∈ queue.ready ∨ (u = v ∧ queue.waiting[v]? = some 1) := by
  simp only [release]
  split
  · next h => simp [h, or_comm]
  · next h => simp [h]

theorem Settled.release {queue : Queue} (h : queue.Settled) (v : Nat) :
    (queue.release v).Settled := by
  constructor
  · simp only [Queue.release]
    split
    · next hone =>
        refine List.nodup_cons.mpr ⟨fun hv => ?_, h.nodup⟩
        rw [h.zero v hv] at hone
        simp at hone
    · exact h.nodup
  · intro u hu
    rw [waiting_release]
    rcases mem_ready_release.mp hu with hu | ⟨rfl, hone⟩
    · simp [h.zero u hu]
    · simp [hone]

theorem waiting_foldl_release (vertices : List Nat) (queue : Queue) (u : Nat) :
    (vertices.foldl release queue).waiting[u]? =
      queue.waiting[u]?.map (· - vertices.count u) := by
  induction vertices generalizing queue with
  | nil => simp
  | cons v rest ih =>
      rw [List.foldl_cons, ih, waiting_release, Option.map_map]
      congr 1
      funext n
      simp only [Function.comp, List.count_cons, List.count_nil]
      omega

theorem mem_ready_foldl_release {vertices : List Nat} {queue : Queue} {u : Nat} :
    u ∈ (vertices.foldl release queue).ready ↔
      u ∈ queue.ready ∨ ∃ n, queue.waiting[u]? = some (n + 1) ∧ n + 1 ≤ vertices.count u := by
  induction vertices generalizing queue with
  | nil => simp
  | cons v rest ih =>
      rw [List.foldl_cons, ih, mem_ready_release, waiting_release, or_assoc]
      refine or_congr_right ?_
      by_cases hu : u = v
      · subst hu
        simp only [List.count_cons_self, List.count_nil]
        cases queue.waiting[u]? with
        | none => simp
        | some m =>
            simp only [true_and, Option.map_some, Option.some.injEq]
            constructor
            · rintro (rfl | ⟨n, hn, hle⟩)
              · exact ⟨0, rfl, by omega⟩
              · exact ⟨n + 1, by omega, by omega⟩
            · rintro ⟨n, rfl, hle⟩
              rcases n with _ | n
              · exact .inl rfl
              · exact .inr ⟨n, by omega, by omega⟩
      · simp [hu, List.count_cons_of_ne (Ne.symm hu)]

theorem Settled.foldl_release {queue : Queue} (h : queue.Settled) (vertices : List Nat) :
    (vertices.foldl Queue.release queue).Settled := by
  induction vertices generalizing queue with
  | nil => exact h
  | cons v rest ih => exact ih (h.release v)

/-! ### The counters tell which vertices are ready -/

/-- The state of the queue once the vertices in `placed` have been placed. -/
structure Tracks (count : Nat) (links : List (Nat × Nat)) (placed : List Nat) (queue : Queue) :
    Prop extends Settled queue where
  waiting : ∀ u, queue.waiting[u]? = if u < count then some (openLinks links placed u) else none
  ready : ∀ u, u ∈ queue.ready ↔ u < count ∧ u ∉ placed ∧ openLinks links placed u = 0
  closed : ∀ u ∈ placed, openLinks links placed u = 0

theorem tracks_ofLinks (count : Nat) (links : List (Nat × Nat)) :
    Tracks count links [] (ofLinks count links) := by
  have hw : ∀ u, (ofLinks count links).waiting[u]? =
      if u < count then some (openLinks links [] u) else none := by
    intro u
    by_cases hu : u < count <;> simp [ofLinks, hu, openLinks_nil]
  have hr : ∀ u, u ∈ (ofLinks count links).ready ↔
      u < count ∧ u ∉ [] ∧ openLinks links [] u = 0 := by
    intro u
    simp [ofLinks, openLinks_nil]
  refine ⟨⟨List.nodup_range.filter _, fun u hu => ?_⟩, hw, hr, by simp⟩
  obtain ⟨hlt, -, hzero⟩ := (hr u).mp hu
  rw [hw, if_pos hlt, hzero]

/-- Placing a ready vertex keeps the counters right: the step of the loop. -/
theorem Tracks.place {count : Nat} {links : List (Nat × Nat)} {placed : List Nat} {queue : Queue}
    (h : Tracks count links placed queue) {v : Nat} (hv : v ∈ queue.ready) :
    Tracks count links (placed ++ [v]) (queue.place links v) := by
  obtain ⟨hlt, hfresh, hzero⟩ := (h.ready v).mp hv
  have hsettled : Settled { queue with ready := queue.ready.erase v } :=
    ⟨h.nodup.erase v, fun u hu => h.zero u (List.mem_of_mem_erase hu)⟩
  have hcount : ∀ u, openLinks links (placed ++ [v]) u + (dependents links v).count u =
      openLinks links placed u := fun u => openLinks_concat links u hfresh
  have hsub : ∀ u, openLinks links (placed ++ [v]) u =
      openLinks links placed u - (dependents links v).count u := fun u => by
    have := hcount u
    omega
  refine ⟨hsettled.foldl_release _, fun u => ?_, fun u => ?_, fun u hu => ?_⟩
  · rw [Queue.place, waiting_foldl_release, h.waiting u, hsub]
    split <;> rfl
  · rw [Queue.place, mem_ready_foldl_release, h.waiting u, h.nodup.mem_erase_iff, h.ready u]
    have hu := hcount u
    by_cases hlt : u < count
    · simp only [hlt, if_true, true_and, List.mem_append, List.mem_singleton, not_or,
        Option.some.injEq]
      constructor
      · rintro (⟨hne, hnot, h0⟩ | ⟨n, hn, hle⟩)
        · exact ⟨⟨hnot, hne⟩, by omega⟩
        · -- a vertex whose last links are released now had been waiting, so it is not placed
          refine ⟨⟨fun hp => ?_, ?_⟩, by omega⟩
          · have := h.closed u hp
            omega
          · rintro rfl
            omega
      · rintro ⟨⟨hnot, hne⟩, h0⟩
        cases hn : openLinks links placed u with
        | zero => exact .inl ⟨hne, hnot, rfl⟩
        | succ n => exact .inr ⟨n, rfl, by omega⟩
    · simp [hlt]
  · have hu' := hcount u
    rcases List.mem_append.mp hu with hp | hp
    · have := h.closed u hp
      omega
    · obtain rfl := List.mem_singleton.mp hp
      omega

end Queue

/-! ### The run -/

theorem Queue.Tracks.mem_ready_iff {count : Nat} {next : Nat → List Nat} {placed : List Nat}
    {queue : Queue} (h : queue.Tracks count (links count next) placed) (v : Nat) :
    v ∈ queue.ready ↔ Ready count next placed v := by
  rw [h.ready v, Ready]
  refine and_congr_right fun hv => and_congr_right fun _ => ?_
  exact openLinks_eq_zero_iff hv

theorem leastFirst_cons_iff {count : Nat} {next : Nat → List Nat} {placed order : List Nat}
    {v : Nat} : LeastFirst count next placed (v :: order) ↔
      IsLeast {u | Ready count next placed u} v ∧ LeastFirst count next (placed ++ [v]) order := by
  constructor
  · intro h
    refine ⟨by simpa using h [] v order rfl, fun before u after heq => ?_⟩
    simpa using h (v :: before) u after (by rw [heq, List.cons_append])
  · rintro ⟨hv, h⟩ before u after heq
    cases before with
    | nil =>
        obtain ⟨rfl, -⟩ := List.cons.inj heq
        simpa using hv
    | cons w before =>
        obtain ⟨rfl, htail⟩ := List.cons.inj heq
        simpa using h before u after htail

/-- The loop places the least ready vertex for as long as there is one. -/
theorem Queue.Tracks.drain {count : Nat} {next : Nat → List Nat} {placed : List Nat}
    {queue : Queue} (h : queue.Tracks count (links count next) placed) :
    LeastFirst count next placed (queue.drain (links count next)) ∧
      ∀ v, ¬ Ready count next (placed ++ queue.drain (links count next)) v := by
  fun_induction Queue.drain (links count next) queue generalizing placed with
  | case1 queue hnone =>
      refine ⟨fun before v after heq => by simp at heq, fun v hv => ?_⟩
      rw [List.append_nil, ← h.mem_ready_iff, List.min?_eq_none_iff.mp hnone] at hv
      exact absurd hv List.not_mem_nil
  | case2 queue v hleast ih =>
      obtain ⟨hmem, hle⟩ := List.min?_eq_some_iff.mp hleast
      obtain ⟨hfirst, hend⟩ := ih (h.place hmem)
      refine ⟨leastFirst_cons_iff.mpr ⟨⟨(h.mem_ready_iff v).mp hmem, fun u hu => ?_⟩, hfirst⟩, ?_⟩
      · exact hle u ((h.mem_ready_iff u).mpr hu)
      · simpa using hend

theorem leastFirst_order (count : Nat) (next : Nat → List Nat) :
    LeastFirst count next [] (order count next) :=
  (Queue.tracks_ofLinks count _).drain.1

theorem not_ready_order (count : Nat) (next : Nat → List Nat) (v : Nat) :
    ¬ Ready count next (order count next) v :=
  (Queue.tracks_ofLinks count (links count next)).drain.2 v

/-! ### What is placed -/

theorem idxOf_lt_of_mem_before {α : Type} [DecidableEq α] {before after : List α} {v d : α}
    (hd : d ∈ before) (hv : v ∉ before) :
    (before ++ v :: after).idxOf d < (before ++ v :: after).idxOf v := by
  rw [List.idxOf_append_of_mem hd, List.idxOf_append_of_notMem hv, List.idxOf_cons_self]
  exact List.idxOf_lt_length_of_mem hd

section LeastFirst

variable {count : Nat} {next : Nat → List Nat} {order : List Nat}

/-- A vertex is placed in its turn, after its dependencies. -/
theorem LeastFirst.ready {before after : List Nat} {v : Nat}
    (h : LeastFirst count next [] order) (heq : order = before ++ v :: after) :
    Ready count next before v :=
  (h before v after heq).1

theorem LeastFirst.lt (h : LeastFirst count next [] order) {v : Nat} (hv : v ∈ order) :
    v < count := by
  obtain ⟨before, after, heq⟩ := List.append_of_mem hv
  exact (h.ready heq).1

theorem LeastFirst.nodup_append {placed : List Nat} (h : LeastFirst count next placed order)
    (hp : placed.Nodup) : (placed ++ order).Nodup := by
  induction order generalizing placed with
  | nil => simpa using hp
  | cons v order ih =>
      obtain ⟨⟨⟨-, hfresh, -⟩, -⟩, hrest⟩ := leastFirst_cons_iff.mp h
      simpa using ih hrest (List.nodup_append.mpr ⟨hp, List.nodup_singleton v, by grind⟩)

theorem LeastFirst.nodup (h : LeastFirst count next [] order) : order.Nodup :=
  h.nodup_append List.nodup_nil

/-- A vertex is placed after each vertex that it depends on. -/
theorem LeastFirst.idxOf_lt (h : LeastFirst count next [] order) {v d : Nat} (hv : v ∈ order)
    (hd : d ∈ next v) (hlt : d < count) : order.idxOf d < order.idxOf v := by
  obtain ⟨before, after, rfl⟩ := List.append_of_mem hv
  obtain ⟨-, hfresh, hdeps⟩ := h.ready rfl
  exact idxOf_lt_of_mem_before (hdeps d hd hlt) hfresh

theorem LeastFirst.perm_range (h : LeastFirst count next [] order) (hlen : count ≤ order.length) :
    order.Perm (List.range count) := by
  refine (List.subperm_of_subset h.nodup fun v hv => ?_).perm_of_length_le (by simpa using hlen)
  exact List.mem_range.mpr (h.lt hv)

/-- If every vertex is placed, each edge leads back in the order. -/
theorem LeastFirst.acyclic (h : LeastFirst count next [] order) (hlen : count ≤ order.length) :
    Acyclic (Edge next (List.range count)) := by
  have hall : ∀ v, v ∈ List.range count → v ∈ order := fun v hv =>
    (h.perm_range hlen).mem_iff.mpr hv
  refine acyclic_of_decreasing (order.idxOf ·) fun v d hedge => ?_
  exact h.idxOf_lt (hall v hedge.1) hedge.2.2 (List.mem_range.mp hedge.2.1)

end LeastFirst

/-- In an acyclic graph no vertex is left out: of those left, one would have all
its dependencies placed. -/
theorem length_order_of_acyclic {count : Nat} {next : Nat → List Nat}
    (h : Acyclic (Edge next (List.range count))) : count ≤ (order count next).length := by
  by_contra hlt
  have hleft : ({v | v < count ∧ v ∉ order count next} : Set Nat).Nonempty := by
    by_contra hall
    have hsub : ∀ v ∈ List.range count, v ∈ order count next := fun v hv => by
      by_contra hnot
      exact hall ⟨v, List.mem_range.mp hv, hnot⟩
    have hle := List.nodup_range.length_le_of_subset hsub
    exact hlt (by simpa using hle)
  -- a sink among the vertices left has all its dependencies placed, so it is ready
  obtain ⟨v, ⟨hv, hnot⟩, hsink⟩ := h.exists_sink
    ((Set.finite_lt_nat count).subset fun v hv => hv.1) hleft
  refine not_ready_order count next v ⟨hv, hnot, fun d hd hdlt => ?_⟩
  by_contra hdnot
  exact hsink d ⟨hdlt, hdnot⟩ ⟨List.mem_range.mpr hv, List.mem_range.mpr hdlt, hd⟩

end BuildPlan.Graph
