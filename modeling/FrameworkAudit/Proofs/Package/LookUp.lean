import FrameworkAudit.Audit
import FrameworkAudit.Proofs.Sorted
import Mathlib.Data.List.Duplicate

set_option autoImplicit false

namespace FrameworkAudit.PackageInfo

variable {finder : PackageFinder} {found : List (Target × List Package)} {targets : List Target}
  {t u : Target} {assembly : String} {assemblies : List String} {i : PackageInfo} {k : Nat}

instance : Std.TransOrd PackageInfo :=
  inferInstanceAs (Std.TransCmp (compareLex (compareOn PackageInfo.assembly)
    (compareLex (compareOn target) (compareOn packages))))

def answer (finder : PackageFinder) (targets : List Target) (assembly : String) (t : Target) :
    List Package :=
  ((finder assembly targets).lookup t).getD []

/-- The entry of an assembly for a target and its place. It has packages at the first place of the
target only. -/
def atPlace (finder : PackageFinder) (targets : List Target) (assembly : String)
    (place : Target × Nat) : PackageInfo :=
  ⟨assembly, place.1,
    if place.1 ∈ targets.take place.2 then [] else answer finder targets assembly place.1⟩

theorem lookup_filter_ne (h : u ≠ t) :
    (found.filter fun entry => entry.1 != t).lookup u = found.lookup u := by
  induction found with
  | nil => rfl
  | cons entry rest ih =>
    obtain ⟨v, packages⟩ := entry
    by_cases hv : v = t
    · have other : (u == v) = false := by simpa [hv] using h
      rw [List.filter_cons_of_neg (by simpa using hv), ih, List.lookup_cons, other]
    · rw [List.filter_cons_of_pos (by simpa using hv), List.lookup_cons, List.lookup_cons, ih]

theorem lookup_filter_self : (found.filter fun entry => entry.1 != t).lookup t = none := by
  simp [List.lookup_eq_none_iff, eq_comm (a := t)]

theorem getElem?_assign : (assign assembly targets found)[k]? = targets[k]?.map fun t =>
    ⟨assembly, t, if t ∈ targets.take k then [] else (found.lookup t).getD []⟩ := by
  induction targets generalizing found k with
  | nil => simp [assign]
  | cons t rest ih =>
    cases k with
    | zero => simp [assign]
    | succ k =>
      rw [assign, List.getElem?_cons_succ, List.getElem?_cons_succ, ih]
      refine Option.map_congr fun u _ => ?_
      by_cases taken : u = t
      · simp [taken, lookup_filter_self]
      · simp [taken, lookup_filter_ne taken]

theorem assign_eq_map : assign assembly targets (finder assembly targets) =
    targets.zipIdx.map (atPlace finder targets assembly) := by
  refine List.ext_getElem? fun k => ?_
  rw [getElem?_assign, List.getElem?_map, List.getElem?_zipIdx, Option.map_map, Nat.zero_add]
  rfl

structure Asked (names assemblies : List String) : Prop where
  distinct : names.Nodup
  mem_iff : ∀ a, a ∈ names ↔ a ∈ assemblies ∧ a ≠ ""

theorem exists_perm_lookUp (finder : PackageFinder) (assemblies : List String)
    (targets : List Target) : ∃ names, Asked names assemblies ∧
      (lookUp finder assemblies targets).Perm
        (names.flatMap fun a => targets.zipIdx.map (atPlace finder targets a)) := by
  refine ⟨Sorted.ofList compare (assemblies.filter fun a => !a.isEmpty), ⟨?_, ?_⟩, ?_⟩
  · exact Sorted.nodup_of_strict Sorted.strict_ofList
  · simp [Sorted.mem_ofList]
  · simp only [← assign_eq_map]
    exact Sorted.perm_sort

theorem mem_lookUp_iff : i ∈ lookUp finder assemblies targets ↔
    ∃ a ∈ assemblies, a ≠ "" ∧ ∃ place ∈ targets.zipIdx, atPlace finder targets a place = i := by
  obtain ⟨names, asked, entries⟩ := exists_perm_lookUp finder assemblies targets
  simp only [entries.mem_iff, List.mem_flatMap, List.mem_map, asked.mem_iff, and_assoc]

/-- An entry lacks an answer exactly if the target had a place before. -/
theorem packages_atPlace_iff {place : Target × Nat} :
    (atPlace finder targets assembly place).packages = answer finder targets assembly place.1 ↔
      (place.1 ∈ targets.take place.2 → answer finder targets assembly place.1 = []) := by
  unfold atPlace
  by_cases before : place.1 ∈ targets.take place.2
  · simp [before, eq_comm (a := [])]
  · simp [before]

theorem duplicate_iff : List.Duplicate t targets ↔
    ∃ k, targets[k]? = some t ∧ t ∈ targets.take k := by
  induction targets with
  | nil => simp
  | cons u rest ih =>
    have behind : (∃ k, (u :: rest)[k]? = some t ∧ t ∈ (u :: rest).take k) ↔
        ∃ k, rest[k]? = some t ∧ (t = u ∨ t ∈ rest.take k) := by
      rw [← Nat.or_exists_add_one]
      simp
    rw [behind, List.duplicate_cons_iff, ih, List.mem_iff_getElem?]
    simp only [and_or_left, exists_or, exists_and_right, eq_comm (a := t),
      and_comm (a := u = t)]

theorem mem_lookUp (distinct : targets.Nodup) : i ∈ lookUp finder assemblies targets ↔
    (i.assembly ∈ assemblies ∧ i.assembly ≠ "") ∧ i.target ∈ targets ∧
      i.packages = answer finder targets i.assembly i.target := by
  have first {t : Target} {k : Nat} (place : targets[k]? = some t) : t ∉ targets.take k :=
    fun before =>
      List.nodup_iff_forall_not_duplicate.1 distinct t (duplicate_iff.2 ⟨k, place, before⟩)
  rw [mem_lookUp_iff]
  constructor
  · rintro ⟨a, ha, named, ⟨t, k⟩, listed, rfl⟩
    have place := List.mk_mem_zipIdx_iff_getElem?.1 listed
    exact ⟨⟨ha, named⟩, List.mem_of_getElem? place,
      packages_atPlace_iff.2 fun before => absurd before (first place)⟩
  · intro ⟨⟨ha, named⟩, ht, packages⟩
    obtain ⟨k, place⟩ := List.mem_iff_getElem?.1 ht
    refine ⟨i.assembly, ha, named, (i.target, k), List.mk_mem_zipIdx_iff_getElem?.2 place, ?_⟩
    rw [atPlace, if_neg (first place), ← packages]

/-- The entries are in order, one for each name that is asked for and each place of a target. All of
them give the answers of the finder exactly if it has no packages for targets that repeat; of those,
only the entries for the first place do. -/
theorem lookUp_answers_iff (finder : PackageFinder) (assemblies : List String)
    (targets : List Target) :
    ((lookUp finder assemblies targets).Pairwise fun i j => (compare i j).isLE) ∧
    (∃ names, Asked names assemblies ∧ (lookUp finder assemblies targets).Perm
      (names.flatMap fun a => targets.zipIdx.map (atPlace finder targets a))) ∧
    ((∀ i ∈ lookUp finder assemblies targets,
        i.packages = answer finder targets i.assembly i.target) ↔
      ∀ a ∈ assemblies, a ≠ "" →
        ∀ t, List.Duplicate t targets → answer finder targets a t = []) := by
  refine ⟨Sorted.pairwise_sort, exists_perm_lookUp finder assemblies targets, ?_, ?_⟩
  · intro answers a ha named t again
    obtain ⟨k, place, before⟩ := duplicate_iff.1 again
    have listed := List.mk_mem_zipIdx_iff_getElem?.2 place
    have entry := answers _ (mem_lookUp_iff.2 ⟨a, ha, named, _, listed, rfl⟩)
    exact packages_atPlace_iff.1 entry before
  · intro lacks i hi
    obtain ⟨a, ha, named, ⟨t, k⟩, listed, rfl⟩ := mem_lookUp_iff.1 hi
    refine packages_atPlace_iff.2 fun before => ?_
    exact lacks a ha named t
      (duplicate_iff.2 ⟨k, List.mk_mem_zipIdx_iff_getElem?.1 listed, before⟩)

def repeated : Target := ⟨"P", ⟨1, 0, 0, 0⟩⟩

def appPackages : PackageTable := PackageTable.empty.add "App" repeated ⟨"Pkg", "1"⟩

/-- The second place of a target has no packages, whatever the finder has for the target. -/
theorem lookUp_of_repeated :
    ¬ ∀ (finder : PackageFinder) (assemblies : List String) (targets : List Target),
      ∀ i ∈ lookUp finder assemblies targets,
        i.packages = answer finder targets i.assembly i.target := by
  intro answers
  have found : answer appPackages.finder [repeated, repeated] "App" repeated = [⟨"Pkg", "1"⟩] := by
    decide +kernel
  have second : (⟨"App", repeated, []⟩ : PackageInfo) ∈
      lookUp appPackages.finder ["App"] [repeated, repeated] :=
    mem_lookUp_iff.2 ⟨"App", by simp, by simp, (repeated, 1), by decide, by decide +kernel⟩
  exact nomatch (answers _ _ _ _ second).trans found

end FrameworkAudit.PackageInfo
