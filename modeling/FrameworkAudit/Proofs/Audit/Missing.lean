import FrameworkAudit.Proofs.Audit.Outcome
import FrameworkAudit.Proofs.Dependency.Unresolved
import FrameworkAudit.Proofs.Host
import FrameworkAudit.Proofs.Identity.Display
import FrameworkAudit.Proofs.Package

set_option autoImplicit false

namespace FrameworkAudit

def UserNamed (assemblies : List AssemblyInfo) (name : String) : Prop :=
  ∃ a ∈ assemblies, a.explicit = true ∧ Text.sameFolded a.name name = true

instance {assemblies : List AssemblyInfo} {name : String} : Decidable (UserNamed assemblies name) :=
  inferInstanceAs (Decidable (∃ a ∈ assemblies, _))

theorem contains_explicitNames {assemblies : List AssemblyInfo} {name : String} :
    (Catalog.explicitNames assemblies).contains (Text.fold name) = true ↔
      UserNamed assemblies name := by
  simp [Catalog.explicitNames, UserNamed, Text.sameFolded_iff, and_assoc]

variable {auditor : Auditor} {info : DependencyInfo} {targets : List Target} {display : String}

namespace DependencyInfo

def Unblank (info : DependencyInfo) : Prop :=
  ∀ a ∈ info.assemblies, ∀ r ∈ a.references, r.name.toList.head?.any Text.isBlank = false

instance : Decidable info.Unblank := inferInstanceAs (Decidable (∀ a ∈ info.assemblies, _))

theorem trim_of_unresolved [Host] [LawfulHost] (h : info.Unblank) (key : display ∈ info.unresolved.map Prod.fst) :
    Text.trim display = display := by
  have has : Sorted.HasKey compare display info.unresolved :=
    Sorted.hasKey_iff.2 (Sorted.has_iff_mem.2 key)
  obtain ⟨identity, lacking⟩ := hasKey_unresolved.1 has
  obtain ⟨a, ha, -, r, hr, rfl, -⟩ := mem_missing.1 lacking
  exact Identity.trim_display (h a ha r hr)

theorem mem_packageCandidates [Host] (key : display ∈ info.unresolved.map Prod.fst) :
    display ∈ info.packageCandidates := by
  rw [packageCandidates, Sorted.mem_ofList]
  exact List.mem_append_left _ key

end DependencyInfo

theorem Catalog.mem_unreferenced [Host] [LawfulHost] {c : Catalog} (h : info.Unblank) :
    display ∈ c.unreferenced (info.unresolved.map Prod.fst) info.assemblies ↔
      display ∈ info.unresolved.map Prod.fst ∧ simpleName display ≠ "" ∧
        c.isAssembly (simpleName display) = true ∧
        ¬ UserNamed info.assemblies (simpleName display) := by
  have trimmed : (info.unresolved.map Prod.fst).map Text.trim = info.unresolved.map Prod.fst :=
    (List.map_congr_left fun _ => DependencyInfo.trim_of_unresolved h).trans (List.map_id' _)
  simp only [unreferenced, Sorted.mem_ofList, trimmed, List.mem_filter, Bool.and_eq_true,
    Bool.not_eq_true', String.isEmpty_eq_false_iff, ← contains_explicitNames, Bool.not_eq_true,
    and_assoc]

theorem PackageInfo.mem_removable {infos : List PackageInfo} {assemblies : List AssemblyInfo} :
    display ∈ removable infos assemblies targets ↔
      display ∈ covered infos targets ∧ ¬ UserNamed assemblies (simpleName display) := by
  simp only [removable, List.mem_filter, ← contains_explicitNames, Bool.not_eq_true',
    Bool.not_eq_true]

namespace Auditor

theorem mem_missing_value [Host] [LawfulHost] (h : info.Unblank) (distinct : targets.Nodup) :
    display ∈ (auditor.missing targets info).value.1 ↔
      display ∈ info.unresolved.map Prod.fst ∧ simpleName display ≠ "" ∧
        auditor.catalog.isAssembly (simpleName display) = true ∧
        ¬ UserNamed info.assemblies (simpleName display) ∧
        ∀ finder, auditor.packages? = some finder → ¬ PackageInfo.Covers finder targets display := by
  unfold missing
  cases auditor.packages? with
  | none => simp [Catalog.mem_unreferenced h]
  | some finder =>
    simp only [List.mem_filter, Catalog.mem_unreferenced h, List.contains_eq_mem,
      Bool.not_eq_true', decide_eq_false_iff_not, PackageInfo.mem_removable,
      PackageInfo.mem_covered_lookUp distinct, Option.some.injEq, forall_eq', and_assoc]
    constructor
    · intro ⟨key, named, framework, free, kept⟩
      have candidate := DependencyInfo.mem_packageCandidates key
      have text : display ≠ "" := by
        rintro rfl
        exact named (by decide)
      exact ⟨key, named, framework, free, fun covers => kept ⟨candidate, text, covers, free⟩⟩
    · intro ⟨key, named, framework, free, uncovered⟩
      exact ⟨key, named, framework, free, fun ⟨_, _, covers, _⟩ => uncovered covers⟩

/-- If no reference has a name that begins with a blank, the report of an audit lists as missing
exactly the unresolved references to framework assemblies of the catalog whose names the user has not
given to an assembly, unless the finder of packages, if there is one, has packages of them on every
target. Packages on some targets are not enough. -/
theorem mem_missing_iff [Host] [LawfulHost] (auditor : Auditor) (files : List AssemblyFile) (names : List String)
    (policy : Policy) (cancelled : Bool) (report : Report) (display : String)
    (reported : (auditor.audit files names policy cancelled).value = .ok report)
    (unblank : report.dependencies.Unblank) :
    display ∈ report.missing ↔
      display ∈ report.dependencies.unresolved.map Prod.fst ∧ simpleName display ≠ "" ∧
        auditor.catalog.isAssembly (simpleName display) = true ∧
        ¬ UserNamed report.dependencies.assemblies (simpleName display) ∧
        ∀ finder, auditor.packages? = some finder →
          ¬ PackageInfo.Covers finder report.targets display := by
  obtain ⟨targets, info, resolved, -, rfl⟩ := audit_eq_ok_iff.1 reported
  exact mem_missing_value unblank (Catalog.nodup_of_resolveAll resolved)

/-- An image of an assembly `App` that refers to `Web` and `Data`. -/
def twoReferences : ByteArray :=
  ⟨#[0x42, 0x53, 0x4A, 0x42, 1, 0, 1, 0, 0, 0, 0, 0, 0, 0, 0, 0, 0, 0, 2, 0,
     52, 0, 0, 0, 94, 0, 0, 0, 0x23, 0x7E, 0, 0,
     146, 0, 0, 0, 14, 0, 0, 0, 0x23, 0x53, 0x74, 0x72, 0x69, 0x6E, 0x67, 0x73, 0, 0, 0, 0,
     0, 0, 0, 0, 2, 0, 0, 1, 0, 0, 0, 0, 9, 0, 0, 0, 0, 0, 0, 0, 0, 0, 0, 0, 1, 0, 0, 0, 2, 0, 0, 0,
     0, 0, 0, 0, 0, 0, 0, 0, 0, 0, 0, 0, 0, 0, 0, 0, 0, 0, 1, 0, 0, 0,
     0, 0, 0, 0, 0, 0, 0, 0, 0, 0, 0, 0, 0, 0, 5, 0, 0, 0, 0, 0,
     0, 0, 0, 0, 0, 0, 0, 0, 0, 0, 0, 0, 0, 0, 9, 0, 0, 0, 0, 0,
     0, 0x41, 0x70, 0x70, 0, 0x57, 0x65, 0x62, 0, 0x44, 0x61, 0x74, 0x61, 0]⟩

def web : Identity := ⟨"Web", .zero, none, none⟩

def data : Identity := ⟨"Data", .zero, none, none⟩

/-- There is a package of `Data` for both targets, but of `Web` only for the first. -/
def twoPackages : PackageTable :=
  ((PackageTable.empty.add data.display Catalog.someTarget ⟨"Data", "1"⟩).add data.display
    Catalog.laterTarget ⟨"Data", "1"⟩).add web.display Catalog.someTarget ⟨"Web", "1"⟩

def webAuditor : Auditor where
  catalog := ((((CatalogTables.empty.addTarget Catalog.someTarget).addTarget
    Catalog.laterTarget).addAssembly "Web").addAssembly "Data").catalog
  aggregator := ⟨⟨FilterConfig.standard.filter, Finder.defaultCoreNames⟩, false⟩
  packages? := some twoPackages.finder
  retargeting := false

def appFiles : List AssemblyFile := [.memory "App.dll" "" twoReferences]

def appInfo : DependencyInfo :=
  ⟨[], [.ofIdentity ⟨"App", .zero, none, none⟩ "0.0.0.0" "" [web, data]], []⟩

theorem aggregate_appFiles : (webAuditor.aggregator.aggregate appFiles false).value = .ok appInfo := by
  rw [← toOption_eq_some_iff]
  decide +kernel

def bothNames : List String := ["P, Version=1.0", "P, Version=2.0"]

def bothTargets : List Target := [Catalog.someTarget, Catalog.laterTarget]

theorem audit_appFiles : (webAuditor.audit appFiles bothNames .empty false).value =
    .ok (webAuditor.findings bothTargets .empty appInfo) := by
  have resolved : webAuditor.catalog.resolveAll bothNames = .ok bothTargets := by
    rw [← toOption_eq_some_iff]
    decide +kernel
  rw [audit_value_of_known resolved, aggregate_appFiles]
  rfl

/-- `Web` stays on the list, and `Data` is taken off it. -/
theorem mem_missing_of_partial : ∃ report,
    (webAuditor.audit appFiles bothNames .empty false).value = .ok report ∧
      report.dependencies.Unblank ∧ web.display ∈ report.missing ∧ data.display ∉ report.missing := by
  have unblank : appInfo.Unblank := by decide +kernel
  have listed (display : String) := mem_missing_iff webAuditor appFiles bothNames .empty false _
    display audit_appFiles unblank
  refine ⟨_, audit_appFiles, unblank, ?_, ?_⟩
  · have key : web.display ∈ appInfo.unresolved.map Prod.fst := by decide +kernel
    have name : simpleName web.display = "Web" := by decide +kernel
    have framework : webAuditor.catalog.isAssembly "Web" = true := by decide +kernel
    have free : ¬ UserNamed appInfo.assemblies "Web" := by decide +kernel
    have lacking : (twoPackages.finder web.display bothTargets).lookup Catalog.laterTarget = none := by
      decide +kernel
    refine (listed _).2 ⟨key, by simp [name], name ▸ framework, name ▸ free, ?_⟩
    intro finder hf covers
    obtain rfl := Option.some.inj hf
    obtain ⟨packages, found, -⟩ := covers.2 Catalog.laterTarget (by simp [findings, bothTargets])
    exact nomatch lacking.symm.trans found
  · intro h
    obtain ⟨-, -, -, -, uncovered⟩ := (listed _).1 h
    have covered : ∀ t ∈ bothTargets, (twoPackages.finder data.display bothTargets).lookup t =
        some [⟨"Data", "1"⟩] := by decide +kernel
    exact uncovered _ rfl ⟨by simp [findings, bothTargets], fun t ht => ⟨_, covered t ht, by simp⟩⟩

end Auditor

end FrameworkAudit
