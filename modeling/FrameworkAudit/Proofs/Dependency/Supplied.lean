import FrameworkAudit.Proofs.Dependency.Unresolved
import FrameworkAudit.Proofs.Identity.Display

set_option autoImplicit false

namespace FrameworkAudit

open Sorted Text

structure SuppliedFile where
  identity : Identity
  fileVersion : String
  framework : String
  references : List Identity
  dependencies : List Dependency

namespace SuppliedFile

def file [Host] (f : SuppliedFile) : FileDependencies :=
  ⟨.ofIdentity f.identity f.fileVersion f.framework f.references, f.dependencies⟩

def referring (f : SuppliedFile) (references : List Identity) : SuppliedFile :=
  { f with references }

def collected [Host] (files : List SuppliedFile) : DependencyInfo := .addAll (files.map file)

def displays [Host] (files : List SuppliedFile) : List String := files.map (·.identity.display)

end SuppliedFile

namespace DependencyInfo

def Reports [Host] (info : DependencyInfo) (display identity : String) : Prop :=
  ∃ users, (display, users) ∈ info.unresolved ∧ identity ∈ users

theorem reports_iff [Host] {info : DependencyInfo} {display identity : String} :
    info.Reports display identity ↔ (display, identity) ∈ info.missing := by
  rw [← linked_unresolved]
  simp [Reports, Linked, Has, Std.LawfulEqCmp.compare_eq_iff_eq]

end DependencyInfo

namespace SuppliedFile

variable {files : List SuppliedFile} {display identity : String}

def ReportsOthers [Host] (nameOf : SuppliedFile → String) (files : List SuppliedFile) : Prop :=
  ∀ display identity, (collected files).Reports display identity ↔
    ∃ f ∈ files, f.identity.display = identity ∧ ∃ r ∈ f.references, r.display = display ∧
      ∀ g ∈ files, sameFolded (nameOf g) r.name = false

theorem mem_ofList_of_distinct {assemblies : List AssemblyInfo} {a : AssemblyInfo}
    (distinct : (assemblies.map AssemblyInfo.identity).Nodup) :
    a ∈ ofList compare assemblies ↔ a ∈ assemblies := by
  constructor
  · exact mem_of_mem_ofList
  · intro ha
    obtain ⟨b, hb, same⟩ := exists_mem_ofList compare ha
    rwa [List.inj_on_of_nodup_map distinct ha (mem_of_mem_ofList hb)
      (AssemblyInfo.identity_eq_of_compare same)]

theorem name_assembly [Host] (f : SuppliedFile) : f.file.assembly.name = simpleName f.identity.name :=
  f.identity.simpleName_display

theorem not_mem_namesOf [Host] {name : String} :
    fold name ∉ DependencyInfo.namesOf (DependencyInfo.assembliesOf (files.map file)) ↔
      ∀ g ∈ files, sameFolded (simpleName g.identity.name) name = false := by
  simp [DependencyInfo.namesOf, DependencyInfo.assembliesOf, name_assembly, sameFolded]

theorem reportsOthers_simpleName [Host] (distinct : (displays files).Nodup) :
    ReportsOthers (fun f => simpleName f.identity.name) files := by
  intro display identity
  have identities : (DependencyInfo.assembliesOf (files.map file)).map AssemblyInfo.identity =
      displays files := by
    rw [DependencyInfo.assembliesOf, List.map_map, List.map_map]
    rfl
  rw [DependencyInfo.reports_iff, collected, DependencyInfo.mem_missing_addAll (.refl _)]
  simp only [mem_ofList_of_distinct (identities ▸ distinct), AssemblyInfo.Lacks, not_mem_namesOf]
  simp only [DependencyInfo.assembliesOf, List.map_map, List.mem_map]
  constructor
  · rintro ⟨_, ⟨f, hf, rfl⟩, same, lacks⟩
    exact ⟨f, hf, same, lacks⟩
  · rintro ⟨f, hf, same, lacks⟩
    exact ⟨_, ⟨f, hf, rfl⟩, same, lacks⟩

theorem bare_of_sameFolded_simpleName {name other : String}
    (same : sameFolded (simpleName name) other = true) : Bare other :=
  (bare_simpleName name).of_sameFolded (sameFolded_comm _ _ ▸ same)

section Referring

variable (references : SuppliedFile → List Identity)

def allReferring (files : List SuppliedFile) : List SuppliedFile :=
  files.map fun f => f.referring (references f)

theorem displays_allReferring [Host] : displays (allReferring references files) = displays files := by
  simp [displays, allReferring, referring]

theorem reportsOthers_of_bare [Host] (distinct : (displays files).Nodup)
    (bare : ∀ f ∈ files, Bare f.identity.name) :
    ReportsOthers (fun f => f.identity.name) (allReferring references files) := by
  have names : ∀ g ∈ allReferring references files, simpleName g.identity.name = g.identity.name := by
    intro g hg
    obtain ⟨f, hf, rfl⟩ := List.mem_map.1 hg
    exact simpleName_eq_self_iff.2 (bare f hf)
  intro display identity
  rw [reportsOthers_simpleName ((displays_allReferring references).symm ▸ distinct)]
  have others (r : Identity) :
      (∀ g ∈ allReferring references files, sameFolded (simpleName g.identity.name) r.name = false) ↔
        ∀ g ∈ allReferring references files, sameFolded g.identity.name r.name = false :=
    forall₂_congr fun g hg => by rw [names g hg]
  simp only [others]

end Referring

/-- Where each refers to a file of an unfit name, even that file itself does not satisfy it. -/
theorem bare_of_reportsOthers [Host] (distinct : (displays files).Nodup) {f : SuppliedFile} (hf : f ∈ files)
    (reports : ReportsOthers (fun f => f.identity.name)
      (allReferring (fun _ => [f.identity]) files)) : Bare f.identity.name := by
  by_contra unfit
  have member : f.referring [f.identity] ∈ allReferring (fun _ => [f.identity]) files :=
    List.mem_map.2 ⟨f, hf, rfl⟩
  have reported : (collected (allReferring (fun _ => [f.identity]) files)).Reports
      f.identity.display f.identity.display := by
    rw [reportsOthers_simpleName ((displays_allReferring _).symm ▸ distinct)]
    refine ⟨_, member, rfl, f.identity, List.mem_singleton.2 rfl, rfl, fun g _ => ?_⟩
    exact Bool.eq_false_iff.2 fun same => unfit (bare_of_sameFolded_simpleName same)
  obtain ⟨g, hg, -, r, hr, -, others⟩ := (reports _ _).1 reported
  obtain ⟨g', -, rfl⟩ := List.mem_map.1 hg
  obtain rfl : r = f.identity := List.mem_singleton.1 hr
  exact Bool.false_ne_true ((others _ member).symm.trans (sameFolded_iff.2 rfl))

/-- If no two files have the same display name, the references that are reported are those to names
that no file goes by, where a file goes by the simple name that its display name gives. This is the
name of its assembly, whatever references there are, exactly if all names can stand in display names
as they are. -/
theorem reportsOthers_iff [Host] (files : List SuppliedFile) (distinct : (displays files).Nodup) :
    ReportsOthers (fun f => simpleName f.identity.name) files ∧
      ((∀ references, ReportsOthers (fun f => f.identity.name) (allReferring references files)) ↔
        ∀ f ∈ files, Bare f.identity.name) :=
  ⟨reportsOthers_simpleName distinct,
    fun reports _ hf => bare_of_reportsOthers distinct hf (reports _),
    fun bare references => reportsOthers_of_bare references distinct bare⟩

def named (name : String) (references : List Identity) : SuppliedFile :=
  ⟨⟨name, .zero, none, none⟩, "", "", references, []⟩

def lib : Identity := ⟨"LIB", .zero, none, none⟩

def gone : Identity := ⟨"Gone", .zero, none, none⟩

def app : SuppliedFile := named "App" [lib, gone]

/-- The reference in capitals is satisfied, the other one is not. -/
theorem reportsOthers_iff_capitals :
    (displays [app, named "Lib" []]).Nodup ∧
      (collected [app, named "Lib" []]).Reports gone.display app.identity.display ∧
      ¬ (collected [app, named "Lib" []]).Reports lib.display app.identity.display := by
  have distinct : (displays [app, named "Lib" []]).Nodup := by decide +kernel
  have bare : ∀ f ∈ [app, named "Lib" []], simpleName f.identity.name = f.identity.name := by
    decide +kernel
  have reports : ReportsOthers (fun f => f.identity.name) [app, named "Lib" []] :=
    (reportsOthers_iff [app, named "Lib" []] distinct).2.2
      (fun f hf => simpleName_eq_self_iff.1 (bare f hf)) references
  refine ⟨distinct, (reports _ _).2 ?_, fun reported => ?_⟩
  · have absent : ∀ g ∈ [app, named "Lib" []], sameFolded g.identity.name "Gone" = false := by
      simp only [sameFolded_eq_toList]
      decide +kernel
    exact ⟨app, List.mem_cons_self, rfl, gone, by decide, rfl, absent⟩
  · obtain ⟨f, hf, -, r, hr, same, others⟩ := (reports _ _).1 reported
    have present : ∀ f ∈ [app, named "Lib" []], ∀ r ∈ f.references, r.display = lib.display →
        sameFolded (named "Lib" []).identity.name r.name = true := by
      simp only [sameFolded_eq_toList]
      decide +kernel
    have apart := others (named "Lib" []) (List.mem_cons_of_mem _ List.mem_cons_self)
    exact Bool.false_ne_true (apart.symm.trans (present f hf r hr same))

/-- An assembly that is there is reported as unresolved, as its name has a comma. -/
theorem not_reportsOthers_of_comma : ¬ ∀ files : List SuppliedFile, (displays files).Nodup →
    ReportsOthers (fun f => f.identity.name) files := by
  intro reports
  let library := named "A,B" []
  let user := named "App" [library.identity]
  have distinct : (displays [user, library]).Nodup := by decide +kernel
  have unnamed : ∀ g ∈ [user, library], sameFolded (simpleName g.identity.name) "A,B" = false := by
    decide +kernel
  have reported := (reportsOthers_simpleName distinct library.identity.display
    user.identity.display).2 ⟨user, List.mem_cons_self, rfl, _, List.mem_cons_self, rfl, unnamed⟩
  obtain ⟨f, hf, -, r, hr, -, others⟩ := (reports _ distinct _ _).1 reported
  have satisfied : ∀ f ∈ [user, library], ∀ r ∈ f.references,
      sameFolded library.identity.name r.name = true := by decide +kernel
  exact Bool.false_ne_true ((others library (by simp)).symm.trans (satisfied f hf r hr))

end SuppliedFile

end FrameworkAudit
