import BuildPlan.Proofs.Path
import Mathlib.Data.List.Basic

/-!
# BuildPlan.Proofs.Project.Location

What the normal form of a path keeps of the place that the path denotes. A name and the
`..` behind it cancel, which leaves some `..` at the front and names after them. The normal
form has the names and tells whether the path starts at the root, but of the `..` at the
front it keeps one or none: where a second one follows, it removes the first. So two paths
have one normal form exactly if they differ at most by an even number of `..` at the front,
which says nothing about a path below the root and loses count for any other.
-/

namespace BuildPlan

/-- The place that a path denotes by its spelling alone. -/
structure Place where
  rooted : Bool := false
  /-- The number of `..` at the front, with no name before them. -/
  above : Nat := 0
  /-- The names that no `..` cancels, last one first. -/
  names : List String := []
  deriving DecidableEq

/-- Follow one more component. -/
def Place.follow (place : Place) : Path.Component → Place
  | .root => { rooted := true }
  | .here => place
  | .up =>
    match place.names with
    | [] => { place with above := place.above + 1 }
    | _ :: rest => { place with names := rest }
  | .name text => { place with names := text :: place.names }

/-- The place that a path denotes. -/
def Path.place (p : Path) : Place := p.components.foldl Place.follow {}

/-- Two places are one. The root is its own parent, so `..` at the front count only
where the path does not start there. -/
def Place.Same (a b : Place) : Prop :=
  a.rooted = b.rooted ∧ a.names = b.names ∧ (a.rooted = false → a.above = b.above)

/-! ### The normal form of a place -/

/-- What is left of a place under normalisation. -/
def Place.toLocation (place : Place) : Location where
  rooted := place.rooted
  upward := place.names ++ List.replicate (place.above % 2) ".."

theorem Place.toLocation_follow (place : Place) (c : Path.Component) :
    (place.follow c).toLocation = place.toLocation.step c := by
  obtain ⟨rooted, above, names⟩ := place
  cases c with
  | root => rfl
  | here => rfl
  | name text => rfl
  | up =>
      cases names with
      | cons name rest => rfl
      | nil =>
          -- one `..` is kept, and the next one removes it
          rcases Nat.mod_two_eq_zero_or_one above with heven | hodd
          · have hnext : (above + 1) % 2 = 1 := by omega
            simp [follow, toLocation, Location.step, heven, hnext]
          · have hnext : (above + 1) % 2 = 0 := by omega
            simp [follow, toLocation, Location.step, hodd, hnext]

theorem Place.toLocation_foldl (components : List Path.Component) (place : Place) :
    (components.foldl Place.follow place).toLocation =
      components.foldl Location.step place.toLocation := by
  induction components generalizing place with
  | nil => rfl
  | cons c rest ih => rw [List.foldl_cons, List.foldl_cons, ih, toLocation_follow]

theorem Project.absolute_eq (p : Project) (path : Path) :
    p.absolute path = (p.onDisk path).place.toLocation.toPath :=
  congrArg Location.toPath (Place.toLocation_foldl (p.onDisk path).components {}).symm

/-! ### Names -/

namespace Path

variable {p : Path} {text name : String} {texts : List String}

/-- The text is that of an ordinary component. -/
def IsName (text : String) : Prop := '/' ∉ text.toList ∧ component? text.toList = some (.name text)

theorem IsName.ne_up (h : IsName text) : text ≠ ".." := by
  rintro rfl
  have hup : component? "..".toList = some .up := rfl
  have hname := h.2
  rw [hup] at hname
  cases hname

theorem isName_of_mem_components (h : .name text ∈ p.components) : IsName text := by
  obtain ⟨stretch, hstretch, hcomponent⟩ :
      ∃ stretch ∈ p.chars.splitOn '/', component? stretch = some (.name text) := by
    unfold components at h
    split at h
    · cases h
    · next first rest hsplit =>
        simp only [List.mem_append, Option.mem_toList, List.mem_filterMap] at h
        rcases h with hstart | ⟨stretch, hstretch, hcomponent⟩
        · split at hstart
          · cases hstart
          · split at hstart
            · cases hstart
            · exact ⟨first, by simp [hsplit], hstart⟩
        · exact ⟨stretch, by simp [hsplit, hstretch], hcomponent⟩
  obtain rfl := eq_of_component? hcomponent
  exact ⟨not_mem_of_mem_splitOn hstretch, hcomponent⟩

theorem isName_of_mem_foldl {components : List Component} {place : Place}
    (hcomponents : ∀ text, .name text ∈ components → IsName text)
    (hplace : ∀ name ∈ place.names, IsName name) :
    ∀ name ∈ (components.foldl Place.follow place).names, IsName name := by
  induction components generalizing place with
  | nil => exact hplace
  | cons c rest ih =>
      refine ih (fun text htext => hcomponents text (List.mem_cons_of_mem _ htext)) ?_
      intro name hname
      cases c with
      | root => cases hname
      | here => exact hplace name hname
      | name text =>
          rcases List.mem_cons.mp hname with rfl | hname
          · exact hcomponents name List.mem_cons_self
          · exact hplace name hname
      | up =>
          simp only [Place.follow] at hname
          split at hname
          · exact hplace name hname
          · next first others hnames =>
              refine hplace name ?_
              rw [hnames]
              exact List.mem_cons_of_mem _ hname

theorem isName_of_mem_place (h : name ∈ p.place.names) : IsName name :=
  isName_of_mem_foldl (fun _ => isName_of_mem_components) (by simp) name h

/-! ### Reading a normal form -/

/-- The component that a text between slashes is written for. -/
def spelled (text : String) : Component := if text = ".." then .up else .name text

theorem spelled_injective : Function.Injective spelled := by
  intro a b h
  unfold spelled at h
  split at h
  · next ha =>
      split at h
      · next hb => rw [ha, hb]
      · cases h
  · split at h
    · cases h
    · exact Component.name.inj h

/-- The text is read back as the component that it is written for. -/
def Reads (text : String) : Prop := '/' ∉ text.toList ∧ component? text.toList = some (spelled text)

theorem IsName.reads (h : IsName text) : Reads text := by
  refine ⟨h.1, ?_⟩
  rw [spelled, if_neg h.ne_up]
  exact h.2

theorem reads_up : Reads ".." := ⟨by decide, rfl⟩

theorem Reads.ne_nil (h : Reads text) : text.toList ≠ [] := by
  intro hnil
  have hread := h.2
  rw [hnil] at hread
  cases hread

theorem Reads.ne_dot (h : Reads text) : text.toList ≠ ['.'] := by
  intro hdot
  have hread := h.2
  rw [hdot] at hread
  cases hread

theorem splitOn_slash (rest : List Char) :
    ('/' :: rest).splitOn '/' = [] :: rest.splitOn '/' :=
  List.splitOn_append_cons_self [] rest

theorem splitOn_intercalate_reads (h : ∀ text ∈ texts, Reads text) (hne : texts ≠ []) :
    ("/".intercalate texts).toList.splitOn '/' = texts.map String.toList := by
  rw [String.toList_intercalate]
  refine List.splitOn_intercalate '/' ?_ (by simpa using hne)
  intro stretch hstretch
  obtain ⟨text, htext, rfl⟩ := List.mem_map.mp hstretch
  exact (h text htext).1

theorem steps_intercalate (h : ∀ text ∈ texts, Reads text) :
    steps ("/".intercalate texts).toList = texts.map spelled := by
  by_cases hne : texts = []
  · rw [hne]
    rfl
  · rw [steps, splitOn_intercalate_reads h hne, List.filterMap_map]
    rw [← List.filterMap_eq_map]
    exact List.filterMap_congr fun text htext => (h text htext).2

theorem components_rooted (h : ∀ text ∈ texts, Reads text) :
    (⟨"/" ++ "/".intercalate texts⟩ : Path).components = .root :: texts.map spelled := by
  have hchars : (⟨"/" ++ "/".intercalate texts⟩ : Path).chars =
      '/' :: ("/".intercalate texts).toList := by
    rw [chars, String.toList_append]
    rfl
  have habsolute : (⟨"/" ++ "/".intercalate texts⟩ : Path).isAbsolute = true := by
    rw [isAbsolute, hchars]
    rfl
  rw [components, habsolute, hchars, splitOn_slash]
  simp only [if_true, Option.toList_some, List.singleton_append, List.cons.injEq, true_and]
  exact steps_intercalate h

theorem components_relative (h : ∀ text ∈ texts, Reads text) :
    (⟨"/".intercalate texts⟩ : Path).components = texts.map spelled := by
  cases texts with
  | nil => rfl
  | cons first rest =>
      have hsplit := splitOn_intercalate_reads h (List.cons_ne_nil first rest)
      have hfirst := h first List.mem_cons_self
      have habsolute : (⟨"/".intercalate (first :: rest)⟩ : Path).isAbsolute = false := by
        rw [Bool.eq_false_iff]
        intro habsolute
        rw [isAbsolute, beq_iff_eq] at habsolute
        obtain ⟨tail, htail⟩ := List.head?_eq_some_iff.mp habsolute
        rw [chars] at htail
        rw [htail, splitOn_slash] at hsplit
        exact hfirst.ne_nil (List.cons.inj hsplit).1.symm
      have hsteps := steps_intercalate h
      rw [steps, hsplit, List.map_cons, List.filterMap_cons, hfirst.2] at hsteps
      rw [components, habsolute, chars, hsplit, ← hsteps]
      simp only [List.map_cons, Bool.false_eq_true, if_false, if_neg hfirst.ne_dot, hfirst.2]
      rfl

end Path

/-! ### Normal forms that name the same file -/

open BuildPlan.Path

theorem Location.components_toPath {location : Location}
    (h : ∀ text ∈ location.upward, Reads text) :
    location.toPath.components =
      (if location.rooted then [.root] else []) ++ location.upward.reverse.map spelled := by
  have hreverse : ∀ text ∈ location.upward.reverse, Reads text := by simpa using h
  unfold toPath
  cases location.rooted with
  | true => exact components_rooted hreverse
  | false =>
      have hempty : "" ++ "/".intercalate location.upward.reverse =
          "/".intercalate location.upward.reverse := String.empty_append
      simp only [Bool.false_eq_true, if_false, List.nil_append, hempty]
      exact components_relative hreverse

theorem Location.root_mem_components_iff {location : Location}
    (h : ∀ text ∈ location.upward, Reads text) :
    .root ∈ location.toPath.components ↔ location.rooted = true := by
  have hspelled : .root ∉ location.upward.reverse.map spelled := by
    intro hmem
    obtain ⟨text, -, htext⟩ := List.mem_map.mp hmem
    unfold spelled at htext
    split at htext <;> cases htext
  rw [components_toPath h, List.mem_append, or_iff_left hspelled]
  cases location.rooted <;> simp

theorem Location.same_toPath_iff {a b : Location} (ha : ∀ text ∈ a.upward, Reads text)
    (hb : ∀ text ∈ b.upward, Reads text) : a.toPath.same b.toPath = true ↔ a = b := by
  rw [same_iff]
  constructor
  · intro heq
    have hrooted : a.rooted = b.rooted := by
      rw [Bool.eq_iff_iff, ← root_mem_components_iff ha, ← root_mem_components_iff hb, heq]
    rw [components_toPath ha, components_toPath hb, hrooted] at heq
    have hupward : a.upward.reverse = b.upward.reverse :=
      List.map_injective_iff.mpr spelled_injective (List.append_cancel_left heq)
    obtain ⟨rooted, upward⟩ := a
    obtain ⟨rooted', upward'⟩ := b
    rw [mk.injEq]
    exact ⟨hrooted, List.reverse_inj.mp hupward⟩
  · rintro rfl
    rfl

theorem Place.toLocation_eq_iff {a b : Place} (ha : ∀ name ∈ a.names, IsName name)
    (hb : ∀ name ∈ b.names, IsName name) :
    a.toLocation = b.toLocation ↔
      a.rooted = b.rooted ∧ a.names = b.names ∧ a.above % 2 = b.above % 2 := by
  have hup : ".." ∉ a.names := fun h => (ha ".." h).ne_up rfl
  have hup' : ".." ∉ b.names := fun h => (hb ".." h).ne_up rfl
  simp only [toLocation, Location.mk.injEq]
  refine and_congr_right fun _ => ?_
  constructor
  · intro heq
    -- a `..` in the one list is at its end, and in the other one as well
    have hmem : a.above % 2 = b.above % 2 := by
      have := congrArg (List.count "..") heq
      simpa [List.count_eq_zero_of_not_mem hup, List.count_eq_zero_of_not_mem hup'] using this
    rw [hmem] at heq
    exact ⟨List.append_cancel_right heq, hmem⟩
  · rintro ⟨hnames, habove⟩
    rw [hnames, habove]

namespace Project

/-- The normal form tells of two paths which of them start at the root and what names they
have, and of the `..` at their fronts whether their numbers are both even or both odd. -/
theorem absolute_same_iff (p : Project) (path path' : Path) :
    (p.absolute path).same (p.absolute path') = true ↔
      (p.onDisk path).place.rooted = (p.onDisk path').place.rooted ∧
      (p.onDisk path).place.names = (p.onDisk path').place.names ∧
      (p.onDisk path).place.above % 2 = (p.onDisk path').place.above % 2 := by
  have hreads : ∀ path : Path, ∀ text ∈ path.place.toLocation.upward, Reads text := by
    intro path text htext
    rcases List.mem_append.mp htext with hname | hup
    · exact (isName_of_mem_place hname).reads
    · rw [List.eq_of_mem_replicate hup]
      exact reads_up
  rw [absolute_eq, absolute_eq, Location.same_toPath_iff (hreads _) (hreads _)]
  exact Place.toLocation_eq_iff (fun _ => isName_of_mem_place) fun _ => isName_of_mem_place

/-- Faithful normal forms. That two paths have one normal form tells that they denote one
place, except where neither starts at the root, both have the same names, and the numbers of
`..` at their fronts are different and both even or both odd. -/
theorem absolute_faithful_iff (p : Project) (path path' : Path) :
    ((p.absolute path).same (p.absolute path') = true →
        (p.onDisk path).place.Same (p.onDisk path').place) ↔
      ¬ ((p.onDisk path).place.rooted = false ∧ (p.onDisk path').place.rooted = false ∧
        (p.onDisk path).place.names = (p.onDisk path').place.names ∧
        (p.onDisk path).place.above ≠ (p.onDisk path').place.above ∧
        (p.onDisk path).place.above % 2 = (p.onDisk path').place.above % 2) := by
  rw [absolute_same_iff]
  constructor
  · intro hfaithful hbad
    obtain ⟨hrooted, hrooted', hnames, habove, hparity⟩ := hbad
    obtain ⟨-, -, hsame⟩ := hfaithful ⟨hrooted.trans hrooted'.symm, hnames, hparity⟩
    exact habove (hsame hrooted)
  · intro hgood hsame
    obtain ⟨hrooted, hnames, hparity⟩ := hsame
    refine ⟨hrooted, hnames, fun hrelative => ?_⟩
    by_contra habove
    exact hgood ⟨hrelative, hrooted ▸ hrelative, hnames, habove, hparity⟩

/-- From a relative root directory, a file two directories up has the normal form of the file
with the same name in the root directory. -/
theorem not_forall_absolute_faithful : ¬ ∀ (p : Project) (path path' : Path),
    (p.absolute path).same (p.absolute path') = true →
      (p.onDisk path).place.Same (p.onDisk path').place := by
  intro hall
  have hsame := hall { name := "demo" } ⟨"../../a.c"⟩ ⟨"a.c"⟩ rfl
  have habove : (2 : Nat) = 0 := hsame.2.2 rfl
  cases habove

end Project

end BuildPlan
