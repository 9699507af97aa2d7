import BuildPlan.Project.Usage
import BuildPlan.Proofs.Graph.Reachability
import BuildPlan.Proofs.Project.Dependencies

/-!
# BuildPlan.Proofs.Project.Usage

What is collected for a target: its private requirements, and the public ones of
every target that its dependencies lead to, in the order of a depth-first search
along the links.
-/

namespace BuildPlan

open BuildPlan.Graph

/-! ### Lists without repetition -/

namespace Flag

variable {α : Type} {same : α → α → Bool}

/-- `entries` are one's own, followed by what is offered, each the first time. Two
entries may be the same without being equal. -/
structure Collects (same : α → α → Bool) (own : List α) (offered : α → Prop)
    (entries : List α) : Prop where
  mem_iff : ∀ x, (∃ y ∈ entries, same x y) ↔ (∃ y ∈ own, same x y) ∨ ∃ y, offered y ∧ same x y
  once : ∃ added, entries = own ++ added ∧ (∀ x ∈ added, offered x) ∧
    (∀ x ∈ own, ∀ y ∈ added, ¬ same x y) ∧ added.Pairwise fun x y => ¬ same x y

theorem appendNew_append (base first second : List α) :
    appendNew same base (first ++ second) = appendNew same (appendNew same base first) second :=
  List.foldl_append

theorem appendNew_concat (base extra : List α) (x : α) :
    appendNew same base (extra ++ [x]) =
      if (appendNew same base extra).any (same x) then appendNew same base extra
      else appendNew same base extra ++ [x] :=
  appendNew_append base extra [x]

/-- What is added to nothing is listed without repetition. -/
theorem appendNew_nil [BEq α] [LawfulBEq α] (extra : List α) :
    appendNew (· == ·) [] extra = extra.eraseDups := by
  induction extra using List.reverseRecOn with
  | nil => rfl
  | append_singleton extra x ih =>
      rw [appendNew_concat, ih, List.eraseDups_append]
      by_cases hmem : x ∈ extra
      · simp [List.removeAll, hmem]
      · simp [List.removeAll, hmem]
        rfl

variable {own entries : List α} {offered : α → Prop} {x : α}

/-- What is offered counts, not how it is said. -/
theorem Collects.congr {offered' : α → Prop} (h : Collects same own offered entries)
    (hiff : ∀ x, offered x ↔ offered' x) : Collects same own offered' entries := by
  obtain rfl : offered = offered' := funext fun x => propext (hiff x)
  exact h

/-- An entry that is there already may be offered without any effect. -/
theorem Collects.offer_known (h : Collects same own offered entries)
    (hsame : Equivalence fun x y => same x y = true) (hknown : ∃ y ∈ entries, same x y) :
    Collects same own (fun y => offered y ∨ y = x) entries := by
  obtain ⟨added, heq, hoffered, hown, honce⟩ := h.once
  obtain ⟨z, hz, hxz⟩ := hknown
  refine ⟨fun w => ?_, added, heq, fun y hy => .inl (hoffered y hy), hown, honce⟩
  rw [h.mem_iff w]
  constructor
  · exact Or.imp_right fun ⟨y, hy, hwy⟩ => ⟨y, .inl hy, hwy⟩
  · rintro (hbase | ⟨y, hy | rfl, hwy⟩)
    · exact .inl hbase
    · exact .inr ⟨y, hy, hwy⟩
    · exact (h.mem_iff w).mp ⟨z, hz, hsame.trans hwy hxz⟩

/-- An entry that is not there yet goes to the end. -/
theorem Collects.offer_new (h : Collects same own offered entries)
    (hnew : ∀ y ∈ entries, ¬ same y x) :
    Collects same own (fun y => offered y ∨ y = x) (entries ++ [x]) := by
  obtain ⟨added, heq, hoffered, hown, honce⟩ := h.once
  refine ⟨fun w => ?_, added ++ [x], by rw [heq, List.append_assoc], ?_, ?_, ?_⟩
  · have hold := h.mem_iff w
    grind
  · intro y hy
    exact (List.mem_append.mp hy).imp (hoffered y) List.mem_singleton.mp
  · intro y hy z hz
    rcases List.mem_append.mp hz with hz | hz
    · exact hown y hy z hz
    · obtain rfl := List.mem_singleton.mp hz
      exact hnew y (heq ▸ List.mem_append_left _ hy)
  · refine List.pairwise_append.mpr ⟨honce, List.pairwise_singleton _ x, fun y hy z hz => ?_⟩
    obtain rfl := List.mem_singleton.mp hz
    exact hnew y (heq ▸ List.mem_append_right _ hy)

theorem collects_appendNew (hsame : Equivalence fun x y => same x y = true)
    (base extra : List α) : Collects same base (· ∈ extra) (appendNew same base extra) := by
  induction extra using List.reverseRecOn with
  | nil => exact ⟨by simp [appendNew], [], by simp [appendNew]⟩
  | append_singleton extra x ih =>
      rw [appendNew_concat]
      have hoffers : ∀ y, (y ∈ extra ∨ y = x) ↔ y ∈ extra ++ [x] := by simp
      refine Collects.congr ?_ hoffers
      split
      · next hany => exact ih.offer_known hsame (List.any_eq_true.mp hany)
      · next hnone =>
        refine ih.offer_new fun y hy hyx => hnone ?_
        exact List.any_eq_true.mpr ⟨y, hy, hsame.symm hyx⟩

end Flag

/-! ### Merging the requirements of several targets -/

namespace Requirements

/-- Merging one after the other merges, in each list of entries, all that are offered. -/
theorem foldl_merge {α β : Type} {same : α → α → Bool} {separated : SeparatedFlags}
    {entries : Requirements → List α}
    (h : ∀ reqs other, entries (merge separated reqs other) =
      Flag.appendNew same (entries reqs) (entries other))
    (offers : β → Requirements) (own : Requirements) (sources : List β) :
    entries (sources.foldl (fun reqs b => reqs.merge separated (offers b)) own) =
      Flag.appendNew same (entries own) (sources.flatMap fun b => entries (offers b)) := by
  induction sources generalizing own with
  | nil => rfl
  | cons b rest ih =>
      rw [List.foldl_cons, ih, h, List.flatMap_cons, Flag.appendNew_append]

end Requirements

namespace Project

variable {p : Project} {id dep : TargetId}

/-! ### The targets that contribute -/

theorem mem_targetIds_of_dependsOn (h : dep ∈ p.dependenciesOf id) : id ∈ p.targetIds := by
  rw [mem_targetIds]
  by_contra hlt
  have hnone : p.target? id = none := Array.getElem?_eq_none (not_lt.mp hlt)
  simp [dependenciesOf, hnone] at h

/-- A target is reached if a chain of dependencies leads to it, and it is not the
target that it starts from. -/
theorem mem_reachedTargets :
    dep ∈ p.reachedTargets id ↔
      dep ≠ id ∧ Relation.TransGen (p.DependsOn p.targetIds) id dep := by
  have hnodup : (p.targetIds.erase id).Nodup := (nodup_targetIds p).erase id
  rw [reachedTargets, mem_preorder_iff hnodup]
  constructor
  · rintro ⟨w, hw, hmem, hpath⟩
    refine ⟨fun heq => ?_, ?_⟩
    · subst heq
      exact (nodup_targetIds p).not_mem_erase (mem_of_path hmem hpath)
    · have hedge : p.DependsOn p.targetIds id w :=
        ⟨mem_targetIds_of_dependsOn hw, List.mem_of_mem_erase hmem, hw⟩
      exact .head' hedge (reflTransGen_of_erase hpath)
  · rintro ⟨hne, hpath⟩
    rcases avoids_or_leaves hpath.to_reflTransGen hne with ⟨hself, -⟩ | hleaves
    · exact absurd rfl hself
    · exact hleaves

theorem reachedTargets_eq_depthFirst (p : Project) (id : TargetId) :
    p.reachedTargets id =
      depthFirst p.dependenciesOf (p.targetIds.erase id) (p.dependenciesOf id) :=
  preorder_eq_depthFirst ((nodup_targetIds p).erase id) _

/-! ### What is collected -/

/-- An entry is offered to `id` by one of the targets that it depends on. What it
offers itself is for others. -/
def Offers {α : Type} (p : Project) (id : TargetId) (entries : Requirements → List α) (x : α) :
    Prop :=
  ∃ dep, dep ≠ id ∧ Relation.TransGen (p.DependsOn p.targetIds) id dep ∧
    x ∈ entries (p.publicReqs dep)

/-- Each list of entries collects what is offered by the targets that are reached. -/
theorem collects_gatherRequirements {α : Type} {same : α → α → Bool}
    (hsame : Equivalence fun x y => same x y = true) {entries : Requirements → List α}
    (h : ∀ separated reqs other, entries (Requirements.merge separated reqs other) =
      Flag.appendNew same (entries reqs) (entries other)) (p : Project) (id : TargetId) :
    Flag.Collects same (entries (p.privateReqs id)) (p.Offers id entries)
      (entries (p.gatherRequirements id)) := by
  rw [gatherRequirements, Requirements.foldl_merge (h _)]
  refine (Flag.collects_appendNew hsame _ _).congr fun x => ?_
  simp only [Offers, List.mem_flatMap, mem_reachedTargets, and_assoc]

/-- The requirements that have been collected for a target and are kept with it. -/
def memo? (p : Project) (id : TargetId) : Option Requirements :=
  (p.target? id).bind Target.collected

/-- The requirements that apply when a target is built: those collected before, or
those that are collected now. -/
def requirementsOf (p : Project) (id : TargetId) : Requirements :=
  ((p.target? id).bind Target.collected).getD (p.gatherRequirements id)

/-- Collecting the requirements of a target notes them at most. -/
theorem collectRequirements_run (id : TargetId) (p : Project) :
    ((collectRequirements id).run p).1 = p.requirementsOf id ∧
      (((collectRequirements id).run p).2 = p ∨ ((collectRequirements id).run p).2 =
        p.modifyTarget id fun t => { t with collected := some (p.requirementsOf id) }) := by
  rw [collectRequirements, requirementsOf]
  cases hcollected : (p.target? id).bind Target.collected with
  | some reqs =>
      simp only [StateT.run_bind, StateT.run_get, pure_bind, hcollected]
      exact ⟨rfl, .inl rfl⟩
  | none =>
      simp only [StateT.run_bind, StateT.run_get, pure_bind, hcollected]
      exact ⟨rfl, .inr rfl⟩

/-- What is collected for a target for the first time: its private requirements,
merged with the public ones of the targets that a search by recursion along the
links comes to, in the order in which it does. They are all the targets that a
chain of dependencies leads to, each once, and never the target itself. So a
definition, library or directory is collected if the target asks for it itself or
one of them offers it, and what they add is not there twice. -/
theorem collectRequirements_correct (h : (p.target? id).bind Target.collected = none) :
    let reached := depthFirst p.dependenciesOf (p.targetIds.erase id) (p.dependenciesOf id)
    let reqs := ((collectRequirements id).run p).1
    (reached.Nodup ∧
      ∀ dep, dep ∈ reached ↔ dep ≠ id ∧ Relation.TransGen (p.DependsOn p.targetIds) id dep) ∧
    reqs = reached.foldl (fun reqs dep => reqs.merge (p.separatedFlags id) (p.publicReqs dep))
      (p.privateReqs id) ∧
    Flag.Collects (· == ·) (p.privateReqs id).defines (p.Offers id Requirements.defines)
      reqs.defines ∧
    Flag.Collects (· == ·) (p.privateReqs id).linkLibs (p.Offers id Requirements.linkLibs)
      reqs.linkLibs ∧
    Flag.Collects Path.same (p.privateReqs id).includeDirs (p.Offers id Requirements.includeDirs)
      reqs.includeDirs ∧
    Flag.Collects Path.same (p.privateReqs id).linkDirs (p.Offers id Requirements.linkDirs)
      reqs.linkDirs := by
  intro reached reqs
  have hreached : reached = p.reachedTargets id := (reachedTargets_eq_depthFirst p id).symm
  have hreqs : reqs = p.gatherRequirements id := by
    rw [show reqs = _ from (collectRequirements_run id p).1, requirementsOf, h, Option.getD_none]
  have htext : Equivalence fun x y : String => (x == y) = true :=
    ⟨by simp, fun h => by simpa using (beq_iff_eq.mp h).symm, fun h h' => by simp_all⟩
  have hpath : Equivalence fun x y => Path.same x y = true :=
    ⟨Path.same_refl, fun h => Path.same_comm _ _ ▸ h,
      fun h h' => Path.same_iff.mpr ((Path.same_iff.mp h).trans (Path.same_iff.mp h'))⟩
  rw [hreached, hreqs]
  refine ⟨⟨nodup_preorder ((nodup_targetIds p).erase id), fun _ => mem_reachedTargets⟩, rfl, ?_⟩
  exact ⟨collects_gatherRequirements htext (fun _ _ _ => rfl) p id,
    collects_gatherRequirements htext (fun _ _ _ => rfl) p id,
    collects_gatherRequirements hpath (fun _ _ _ => rfl) p id,
    collects_gatherRequirements hpath (fun _ _ _ => rfl) p id⟩

/-- `app` is linked to `left` and to `right`, both of them to `root`, and `root`
back to `app`. The directories of `left` and `app` are the same one. -/
def roundDiamond : Project where
  name := "diamond"
  targets := #[
    { name := "root", type := .staticLibrary, dependencies := [⟨3⟩]
      publicReqs := { defines := ["ROOT"], linkLibs := ["m"] } },
    { name := "left", type := .staticLibrary, dependencies := [⟨0⟩]
      publicReqs := { defines := ["LEFT"], linkLibs := ["m"], includeDirs := [⟨"include/"⟩] } },
    { name := "right", type := .staticLibrary, dependencies := [⟨0⟩]
      publicReqs := { defines := ["RIGHT", "LEFT"] } },
    { name := "app", type := .program, dependencies := [⟨1⟩, ⟨2⟩]
      publicReqs := { defines := ["APP"] }
      privateReqs := { includeDirs := [⟨"include"⟩] } }]

theorem depthFirst_roundDiamond :
    depthFirst roundDiamond.dependenciesOf (roundDiamond.targetIds.erase ⟨3⟩)
      (roundDiamond.dependenciesOf ⟨3⟩) = [⟨1⟩, ⟨0⟩, ⟨2⟩] := by
  cbv

theorem collectRequirements_roundDiamond :
    (roundDiamond.target? ⟨3⟩).bind Target.collected = none ∧
      ((collectRequirements ⟨3⟩).run roundDiamond).1 =
        { defines := ["LEFT", "ROOT", "RIGHT"], linkLibs := ["m"]
          includeDirs := [⟨"include"⟩] } := by
  refine ⟨rfl, ?_⟩
  rw [(collectRequirements_correct rfl).2.1, depthFirst_roundDiamond]
  decide

end Project

end BuildPlan
