import FrameworkAudit.Proofs.Package.LookUp

set_option autoImplicit false

namespace FrameworkAudit.PackageInfo

variable {finder : PackageFinder} {targets : List Target} {assembly : String}
  {assemblies : List String} {infos : List PackageInfo}

theorem mem_covered : assembly ∈ covered infos targets ↔
    targets ≠ [] ∧ ∀ t ∈ targets, ∃ i ∈ infos, i.assembly = assembly ∧ i.target = t ∧
      i.packages ≠ [] := by
  simp only [covered, List.mem_filter, Sorted.mem_ofList, List.mem_map, Bool.and_eq_true,
    Bool.not_eq_true', List.isEmpty_eq_false_iff, List.all_eq_true, List.any_eq_true, isFound,
    beq_iff_eq]
  constructor
  · intro ⟨_, targeted, all⟩
    refine ⟨targeted, fun t ht => ?_⟩
    obtain ⟨i, ⟨hi, filled⟩, same, here⟩ := all t ht
    exact ⟨i, hi, same, here, filled⟩
  · intro ⟨targeted, all⟩
    have each (t : Target) (ht : t ∈ targets) : ∃ i, (i ∈ infos ∧ i.packages ≠ []) ∧
        i.assembly = assembly ∧ i.target = t := by
      obtain ⟨i, hi, same, here, filled⟩ := all t ht
      exact ⟨i, ⟨hi, filled⟩, same, here⟩
    obtain ⟨t, ht⟩ := List.exists_mem_of_ne_nil targets targeted
    obtain ⟨i, hi, same, -⟩ := each t ht
    exact ⟨⟨i, hi, same⟩, targeted, each⟩

/-- Whether there are targets, and the finder has a package of the assembly on all of them. -/
def Covers (finder : PackageFinder) (targets : List Target) (assembly : String) : Prop :=
  targets ≠ [] ∧ ∀ t ∈ targets, ∃ packages,
    (finder assembly targets).lookup t = some packages ∧ packages ≠ []

theorem mem_covered_lookUp (distinct : targets.Nodup) :
    assembly ∈ covered (lookUp finder assemblies targets) targets ↔
      (assembly ∈ assemblies ∧ assembly ≠ "") ∧ Covers finder targets assembly := by
  have filled (packages? : Option (List Package)) :
      packages?.getD [] ≠ [] ↔ ∃ packages, packages? = some packages ∧ packages ≠ [] := by
    cases packages? <;> simp
  simp only [mem_covered, Covers, mem_lookUp distinct, answer, ← filled]
  constructor
  · intro ⟨targeted, all⟩
    have each (t : Target) (ht : t ∈ targets) : (assembly ∈ assemblies ∧ assembly ≠ "") ∧
        ((finder assembly targets).lookup t).getD [] ≠ [] := by
      obtain ⟨i, ⟨asked, -, packages⟩, rfl, rfl, some⟩ := all t ht
      exact ⟨asked, packages ▸ some⟩
    obtain ⟨t, ht⟩ := List.exists_mem_of_ne_nil targets targeted
    exact ⟨(each t ht).1, targeted, fun t ht => (each t ht).2⟩
  · intro ⟨asked, targeted, all⟩
    exact ⟨targeted, fun t ht => ⟨⟨assembly, t, _⟩, ⟨asked, ht, rfl⟩, rfl, rfl, all t ht⟩⟩

end FrameworkAudit.PackageInfo
