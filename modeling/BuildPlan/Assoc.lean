/-!
# BuildPlan.Assoc

Bindings in the order in which their keys first appeared. A list of pairs is
read with `List.lookup` and written with `Assoc.put`, which replaces the value
of a key in its place and appends a new key at the end.
-/

namespace BuildPlan.Assoc

variable {κ α : Type} [DecidableEq κ]

/-- Bind `key` to `value`: in its place when it is bound already, else at the end. -/
def put (key : κ) (value : α) : List (κ × α) → List (κ × α)
  | [] => [(key, value)]
  | (k, v) :: rest => if k = key then (k, value) :: rest else (k, v) :: put key value rest

/-- Bind every pair in turn. -/
def putAll (pairs : List (κ × α)) (bindings : List (κ × α)) : List (κ × α) :=
  pairs.foldl (fun acc (k, v) => put k v acc) bindings

/-- The bindings made by a list of pairs whose keys may repeat. -/
def ofPairs (pairs : List (κ × α)) : List (κ × α) := putAll pairs []

def has (key : κ) (bindings : List (κ × α)) : Bool := bindings.any fun (k, _) => k = key

/-- Change the value bound to `key`, or bind it to the change of `fresh` when it is new. -/
def alter (key : κ) (fresh : α) (change : α → α) (bindings : List (κ × α)) : List (κ × α) :=
  put key (change ((bindings.lookup key).getD fresh)) bindings

theorem lookup_put_self (key : κ) (value : α) (bindings : List (κ × α)) :
    (put key value bindings).lookup key = some value := by
  induction bindings with
  | nil => simp [put]
  | cons pair rest ih =>
    obtain ⟨k, v⟩ := pair
    by_cases h : k = key
    · simp [put, h]
    · simp [put, h, List.lookup_cons, beq_false_of_ne (Ne.symm h), ih]

theorem lookup_put_ne {key other : κ} (h : other ≠ key) (value : α) (bindings : List (κ × α)) :
    (put key value bindings).lookup other = bindings.lookup other := by
  induction bindings with
  | nil => simp [put, List.lookup_cons, beq_false_of_ne h]
  | cons pair rest ih =>
    obtain ⟨k, v⟩ := pair
    by_cases hk : k = key
    · subst hk
      simp [put, List.lookup_cons, beq_false_of_ne h]
    · by_cases ho : other = k
      · simp [put, hk, ho]
      · simp [put, hk, List.lookup_cons, beq_false_of_ne ho, ih]

theorem put_put (key : κ) (first second : α) (bindings : List (κ × α)) :
    put key second (put key first bindings) = put key second bindings := by
  induction bindings with
  | nil => simp [put]
  | cons pair rest ih =>
    obtain ⟨k, v⟩ := pair
    by_cases h : k = key
    · simp [put, h]
    · simp [put, h, ih]

theorem put_of_lookup {key : κ} {value : α} {bindings : List (κ × α)}
    (h : bindings.lookup key = some value) : put key value bindings = bindings := by
  induction bindings with
  | nil => cases h
  | cons pair rest ih =>
    obtain ⟨k, v⟩ := pair
    rw [put]
    split
    · next hk =>
        subst hk
        rw [List.lookup_cons_self, Option.some.injEq] at h
        rw [h]
    · next hk =>
        rw [List.lookup_cons, beq_false_of_ne (Ne.symm hk)] at h
        rw [ih h]

end BuildPlan.Assoc
