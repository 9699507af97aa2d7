/-!
# BuildPlan.Graph.Traversal

Depth-first traversals of a graph whose vertices lie in a finite domain. A graph
is given by the successors of each vertex; successors outside the domain are
passed over, so every traversal ends.

* `preorder` lists vertices as they are entered,
* `postorder` lists them as they are left, successors first, and
* `cycles` lists the paths that lead back into themselves.
-/

namespace BuildPlan.Graph

variable {α : Type} [DecidableEq α]

/-- A step that a traversal has still to take. -/
inductive Visit (α : Type)
  | enter (vertex : α)
  | leave (vertex : α)
  deriving Repr

/-- Enter each of the vertices in turn. -/
def enterAll (vertices : List α) : List (Visit α) := vertices.map .enter

theorem length_erase_lt {unseen : List α} {v : α} (h : v ∈ unseen) :
    (unseen.erase v).length < unseen.length := by
  have := List.length_erase_of_mem h
  have := List.length_pos_of_mem h
  omega

/-- The unseen vertices that can be reached from the pending ones, each when it is
first entered. The successors of a vertex come before the vertices pending beside it. -/
def preorder (next : α → List α) (unseen pending : List α) : List α :=
  match pending with
  | [] => []
  | v :: rest =>
    if _new : v ∈ unseen then v :: preorder next (unseen.erase v) (next v ++ rest)
    else preorder next unseen rest
termination_by (unseen.length, pending.length)
decreasing_by
  · exact Prod.Lex.left _ _ (length_erase_lt _new)
  · exact Prod.Lex.right _ (by simp)

/-- The unseen vertices that can be reached, each when it is left for good. -/
def postorder (next : α → List α) (unseen : List α) (visits : List (Visit α)) : List α :=
  match visits with
  | [] => []
  | .leave v :: rest => v :: postorder next unseen rest
  | .enter v :: rest =>
    if _new : v ∈ unseen then
      postorder next (unseen.erase v) (enterAll (next v) ++ .leave v :: rest)
    else postorder next unseen rest
termination_by (unseen.length, visits.length)
decreasing_by
  · exact Prod.Lex.right _ (by simp)
  · exact Prod.Lex.left _ _ (length_erase_lt _new)
  · exact Prod.Lex.right _ (by simp)

/-- The vertices from `v` to the end of a path, which is given innermost first. -/
def loopFrom (v : α) (path : List α) : List α := v :: (path.takeWhile (· ≠ v)).reverse

/-- The loops that a traversal closes: whenever it would enter a vertex that lies
on the path it has taken, the part of that path from the vertex on. -/
def cycles (next : α → List α) (unseen path : List α) (visits : List (Visit α)) : List (List α) :=
  match visits with
  | [] => []
  | .leave _ :: rest => cycles next unseen path.tail rest
  | .enter v :: rest =>
    if _new : v ∈ unseen then
      cycles next (unseen.erase v) (v :: path) (enterAll (next v) ++ .leave v :: rest)
    else if v ∈ path then loopFrom v path :: cycles next unseen path rest
    else cycles next unseen path rest
termination_by (unseen.length, visits.length)
decreasing_by
  · exact Prod.Lex.right _ (by simp)
  · exact Prod.Lex.left _ _ (length_erase_lt _new)
  · exact Prod.Lex.right _ (by simp)
  · exact Prod.Lex.right _ (by simp)

/-- The loops closed by a traversal that starts at each vertex of the domain in turn. -/
def allCycles (next : α → List α) (domain : List α) : List (List α) :=
  cycles next domain [] (enterAll domain)

end BuildPlan.Graph
