import BuildPlan.Project.Location

/-!
# BuildPlan.Proofs.Path

The file name of a path. It is the last of the steps between the slashes, so it
stays when the path is followed from another one or brought into normal form.
-/

namespace BuildPlan

theorem not_mem_of_mem_splitOn {c : Char} {text word : List Char} (h : word ∈ text.splitOn c) :
    c ∉ word := by
  induction text generalizing word with
  | nil =>
      rw [List.splitOn_nil, List.mem_singleton] at h
      simp [h]
  | cons first rest ih =>
      rw [List.splitOn_cons_eq_if_modifyHead] at h
      split at h
      · rcases List.mem_cons.mp h with rfl | h
        · exact List.not_mem_nil
        · exact ih h
      · next hne =>
          -- the character joins the first word of the rest
          obtain ⟨head, tail, hsplit⟩ := List.exists_cons_of_ne_nil (List.splitOn_ne_nil c rest)
          rw [hsplit, List.modifyHead_cons] at h
          rcases List.mem_cons.mp h with rfl | h
          · have hhead : c ∉ head := ih (hsplit ▸ List.mem_cons_self)
            have hfirst : c ≠ first := by
              rintro rfl
              exact hne (beq_self_eq_true _)
            simp [hhead, hfirst]
          · exact ih (hsplit ▸ List.mem_cons_of_mem _ h)

namespace Path

variable {p q base : Path} {name : String} {text left right : List Char}

theorem same_congr_left (h : p.same q = true) (other : Path) : p.same other = q.same other := by
  rw [same_iff] at h
  rw [same, same, h]

theorem eq_of_component? (h : component? text = some (.name name)) : text = name.toList := by
  unfold component? at h
  split at h
  · cases h
  · cases h
  · cases h
  · cases h
    exact String.toList_ofList.symm

/-- The text of an ordinary name. -/
def Component.text? : Component → Option String
  | .name text => some text
  | .root | .here | .up => none

/-- What stands between the slashes of a text. -/
def steps (text : List Char) : List Component := (text.splitOn '/').filterMap component?

theorem steps_append (left right : List Char) :
    steps (left ++ '/' :: right) = steps left ++ steps right := by
  rw [steps, List.splitOn_append_cons_self, List.filterMap_append]
  rfl

/-- The start of a path is never its file name. -/
theorem getLast?_start {start : Component} (h : start.text? = none) (rest : List Component) :
    (start :: rest).getLast?.bind Component.text? = rest.getLast?.bind Component.text? := by
  cases rest with
  | nil => exact h
  | cons second rest => rw [List.getLast?_cons_cons]

theorem fileName_eq (p : Path) : p.fileName = (steps p.chars).getLast?.bind Component.text? := by
  have hlast : p.fileName = p.components.getLast?.bind Component.text? := by
    unfold fileName
    rcases p.components.getLast? with _ | _ | _ | _ | _ <;> rfl
  obtain ⟨first, rest, hsplit⟩ := List.exists_cons_of_ne_nil (List.splitOn_ne_nil '/' p.chars)
  rw [hlast, components, steps, hsplit]
  dsimp only
  split
  · next habsolute =>
      -- nothing stands before the leading slash
      have hfirst : first = [] := by
        rw [isAbsolute, beq_iff_eq] at habsolute
        obtain ⟨tail, htail⟩ := List.head?_eq_some_iff.mp habsolute
        rw [htail, List.splitOn_cons_eq_if_modifyHead] at hsplit
        simp only [beq_self_eq_true, if_true] at hsplit
        exact (List.cons.inj hsplit).1.symm
      rw [hfirst]
      exact getLast?_start rfl _
  split
  · next hfirst =>
      rw [hfirst]
      exact getLast?_start rfl _
  · rw [List.filterMap_cons]
    cases component? first <;> rfl

theorem fileName_inv (h : p.fileName = some name) :
    '/' ∉ name.toList ∧ component? name.toList = some (.name name) := by
  rw [fileName_eq, Option.bind_eq_some_iff] at h
  obtain ⟨last, hlast, htext⟩ := h
  obtain ⟨text, htext', hcomponent⟩ := List.mem_filterMap.mp (List.mem_of_getLast? hlast)
  cases last <;> cases htext
  obtain rfl := eq_of_component? hcomponent
  exact ⟨not_mem_of_mem_splitOn htext', hcomponent⟩

theorem fileName_congr (h : p.same q = true) : p.fileName = q.fileName := by
  rw [same_iff] at h
  rw [fileName, fileName, h]

/-- A path that ends in another one ends in its file name. -/
theorem fileName_of_chars (h : q.chars = p.chars ∨ ∃ left, q.chars = left ++ '/' :: p.chars)
    (hname : p.fileName = some name) : q.fileName = some name := by
  rw [fileName_eq] at hname ⊢
  rcases h with heq | ⟨left, heq⟩
  · rwa [heq]
  · obtain ⟨last, hlast, htext⟩ := Option.bind_eq_some_iff.mp hname
    rw [heq, steps_append, List.getLast?_append, hlast]
    exact htext

theorem fileName_join (base : Path) (hname : p.fileName = some name) :
    (base.join p).fileName = some name := by
  refine fileName_of_chars ?_ hname
  unfold join
  split
  · exact .inl rfl
  split
  · next hbase =>
      have hchars : (⟨base.spelling ++ p.spelling⟩ : Path).chars = base.chars ++ p.chars := by
        simp [chars]
      rw [hchars]
      rw [Bool.or_eq_true, String.isEmpty_iff, beq_iff_eq] at hbase
      rcases hbase with hempty | hslash
      · exact .inl (by simp [chars, hempty])
      · obtain ⟨left, hleft⟩ := List.getLast?_eq_some_iff.mp hslash
        exact .inr ⟨left, by simp [hleft]⟩
  · refine .inr ⟨base.chars, ?_⟩
    simp [chars]

end Path

namespace Location

open BuildPlan.Path

/-- A location that was reached by a name ends in it. -/
theorem fileName_toPath {location : Location} {name : String} {rest : List String}
    (hupward : location.upward = name :: rest) (hslash : '/' ∉ name.toList)
    (hname : component? name.toList = some (.name name)) :
    location.toPath.fileName = some name := by
  have hsingle : (⟨name⟩ : Path).fileName = some name := by
    rw [fileName_eq, steps, chars, List.splitOn_eq_singleton hslash]
    simp [hname, Component.text?]
  -- a slash stands before the name, or nothing does
  have hchars : ∃ front, location.toPath.chars = front ++ name.toList ∧
      (front = [] ∨ ∃ left, front = left ++ ['/']) := by
    rw [toPath, chars, hupward, List.reverse_cons]
    by_cases hrest : rest.reverse = []
    · -- the name is all that is left
      rw [hrest, List.nil_append, String.intercalate_singleton, String.toList_append]
      refine ⟨_, rfl, ?_⟩
      cases location.rooted
      · exact .inl rfl
      · exact .inr ⟨[], rfl⟩
    · rw [String.intercalate_append_of_ne_nil hrest (by simp),
        String.intercalate_singleton]
      refine ⟨_, by rw [String.toList_append, String.toList_append, ← List.append_assoc], .inr ?_⟩
      rw [String.toList_append, ← List.append_assoc]
      exact ⟨_, rfl⟩
  refine fileName_of_chars ?_ hsingle
  obtain ⟨front, hfront, rfl | ⟨left, rfl⟩⟩ := hchars
  · exact .inl (by rw [hfront, List.nil_append]; rfl)
  · exact .inr ⟨left, by rw [hfront, List.append_assoc]; rfl⟩

end Location

namespace Project

open BuildPlan.Path

/-- The normal form of a path ends in its file name. -/
theorem fileName_absolute (p : Project) {path : Path} {name : String}
    (h : path.fileName = some name) : (p.absolute path).fileName = some name := by
  obtain ⟨hslash, hname⟩ := fileName_inv h
  have hjoin : (p.onDisk path).fileName = some name := fileName_join p.rootDir h
  obtain ⟨front, hfront⟩ : ∃ front, (p.onDisk path).components = front ++ [.name name] := by
    unfold fileName at hjoin
    split at hjoin
    · next hlast =>
        cases hjoin
        exact List.getLast?_eq_some_iff.mp hlast
    · cases hjoin
  rw [absolute, hfront, List.foldl_append]
  exact Location.fileName_toPath rfl hslash hname

end Project

end BuildPlan
