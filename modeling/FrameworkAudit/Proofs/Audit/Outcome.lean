import FrameworkAudit.Proofs.Catalog.Resolve
import FrameworkAudit.Proofs.Dependency.Aggregate
import FrameworkAudit.Proofs.FileFailure
import FrameworkAudit.Proofs.Unsupported
import FrameworkAudit.Report

set_option autoImplicit false

namespace FrameworkAudit

variable {c : Catalog} {name : String} {names : List String} {t : Target} {targets : List Target}
  {e : Error}

namespace Catalog

def knows (c : Catalog) (name : String) : Bool := (c.resolve name).toOption.isSome

theorem knows_iff : c.knows name = true ↔ ∃ t, c.resolve name = .ok t := by
  simp only [knows, Option.isSome_iff_exists, toOption_eq_some_iff]

def keepTarget (kept : List Target) (t : Target) : List Target :=
  if kept.contains t then kept else kept ++ [t]

theorem mem_foldl_keepTarget {all : List Target} : t ∈ all.foldl keepTarget [] ↔ t ∈ all := by
  have gain (kept : List Target) (next : Target) : t ∈ keepTarget kept next ↔ t ∈ kept ∨ t = next := by
    unfold keepTarget
    split <;> grind
  rw [Sorted.foldl_gains (p := (t ∈ ·)) gain all []]
  simp

theorem nodup_foldl_keepTarget {all : List Target} : (all.foldl keepTarget []).Nodup := by
  refine Sorted.foldl_keeps (fun kept next h => ?_) all [] .nil
  unfold keepTarget
  split
  · exact h
  · grind

theorem resolveAll_eq_ok_iff : c.resolveAll names = .ok targets ↔
    ∃ all, names.mapM c.resolve = .ok all ∧ all.foldl keepTarget [] = targets := by
  rw [resolveAll, bind_eq_ok_iff]
  simp only [pure_eq_ok_iff]
  rfl

theorem nodup_of_resolveAll (h : c.resolveAll names = .ok targets) : targets.Nodup := by
  obtain ⟨all, -, rfl⟩ := resolveAll_eq_ok_iff.1 h
  exact nodup_foldl_keepTarget

theorem mem_of_resolveAll (h : c.resolveAll names = .ok targets) :
    t ∈ targets ↔ ∃ name ∈ names, c.resolve name = .ok t := by
  obtain ⟨all, resolved, rfl⟩ := resolveAll_eq_ok_iff.1 h
  rw [mem_foldl_keepTarget, mem_of_mapM_eq_ok resolved]

theorem known_of_resolveAll (h : c.resolveAll names = .ok targets) : ∀ t ∈ targets, t ∈ c.targets := by
  intro t ht
  obtain ⟨name, -, resolved⟩ := (mem_of_resolveAll h).1 ht
  exact mem_targets_of_resolve resolved

theorem resolveAll_eq_error_iff : c.resolveAll names = .error e ↔
    ∃ name, names.find? (fun name => !c.knows name) = some name ∧ e = .unknownTarget name := by
  have failed : c.resolveAll names = .error e ↔ names.mapM c.resolve = .error e := by
    rw [resolveAll, bind_eq_error_iff]
    simp [pure, Except.pure]
  simp only [failed, mapM_eq_error_iff, knows, Option.not_isSome]
  refine exists_congr fun name => and_congr_right fun first => ⟨eq_of_resolve_eq_error, ?_⟩
  rintro rfl
  cases unknown : c.resolve name with
  | error d => rw [eq_of_resolve_eq_error unknown]
  | ok t => simpa [unknown, toOption_ok] using List.find?_some first

theorem exists_resolveAll_iff : (∃ targets, c.resolveAll names = .ok targets) ↔
    ∀ name ∈ names, c.knows name = true := by
  constructor
  · rintro ⟨targets, resolved⟩ name hname
    obtain ⟨all, each, -⟩ := resolveAll_eq_ok_iff.1 resolved
    exact knows_iff.2 (exists_of_mem_of_mapM each hname)
  · intro known
    cases resolved : c.resolveAll names with
    | ok targets => exact ⟨targets, rfl⟩
    | error e =>
      obtain ⟨name, first, -⟩ := resolveAll_eq_error_iff.1 resolved
      simpa [known name (List.mem_of_find?_eq_some first)] using List.find?_some first

/-- What an audit relies on: the targets are those that the names mean, each once and as the catalog
has it, so that no question about them fails. -/
structure Meant (c : Catalog) (names : List String) (targets : List Target) : Prop where
  nodup : targets.Nodup
  mem_iff : ∀ t, t ∈ targets ↔ ∃ name ∈ names, c.resolve name = .ok t
  known : ∀ t ∈ targets, t ∈ c.targets
  unsupported : ∀ policy info,
    ∃ found, (c.unsupportedMembers targets policy info).value = .ok found
  breaking : ∀ policy submitted info retargeting,
    ∃ found, c.breakingChanges targets policy submitted info retargeting = .ok found

theorem meant_of_resolveAll (h : c.resolveAll names = .ok targets) : c.Meant names targets where
  nodup := nodup_of_resolveAll h
  mem_iff _ := mem_of_resolveAll h
  known := known_of_resolveAll h
  unsupported _ _ := ⟨_, unsupportedMembers_value (known_of_resolveAll h)⟩
  breaking _ _ _ _ :=
    ⟨_, breakingChanges_eq_ok_iff.2 ⟨checkTargets_eq_ok_iff.2 (known_of_resolveAll h), rfl⟩⟩

end Catalog

namespace Auditor

open Aggregator

section

variable [Host] {auditor : Auditor} {files : List AssemblyFile} {policy : Policy}
  {info : DependencyInfo} {cancelled : Bool}

def findings (auditor : Auditor) (targets : List Target) (policy : Policy) (info : DependencyInfo) :
    Report where
  targets := targets
  dependencies := info
  unsupported := auditor.catalog.reports targets policy info
  breaking := Sorted.ofList BreakingDependency.order <| auditor.catalog.hits targets policy
    (submittedNames info) auditor.retargeting info.members
  missing := (auditor.missing targets info).value.1
  packages := (auditor.missing targets info).value.2

theorem report_value (known : ∀ t ∈ targets, t ∈ auditor.catalog.targets) :
    (auditor.report targets policy info).value = .ok (auditor.findings targets policy info) := by
  have members : (auditor.catalog.unsupportedMembers targets policy info).value =
      .ok (auditor.catalog.reports targets policy info) := Catalog.unsupportedMembers_value known
  have changes : auditor.catalog.breakingChanges targets policy (submittedNames info) info
      auditor.retargeting = .ok (auditor.findings targets policy info).breaking :=
    Catalog.breakingChanges_eq_ok_iff.2 ⟨Catalog.checkTargets_eq_ok_iff.2 known, rfl⟩
  unfold report
  dsimp only
  rw [members, changes]
  rfl

theorem audit_value_of_unknown (h : auditor.catalog.resolveAll names = .error e) :
    (auditor.audit files names policy cancelled).value = .error e := by
  rw [audit, h]

theorem audit_value_of_known (h : auditor.catalog.resolveAll names = .ok targets) :
    (auditor.audit files names policy cancelled).value =
      (auditor.aggregator.aggregate files cancelled).value.map
        (auditor.findings targets policy) := by
  rw [audit, h]
  dsimp only
  cases (auditor.aggregator.aggregate files cancelled).value with
  | error e => rfl
  | ok info => exact report_value (Catalog.known_of_resolveAll h)

theorem audit_eq_ok_iff {report : Report} :
    (auditor.audit files names policy cancelled).value = .ok report ↔
      ∃ targets info, auditor.catalog.resolveAll names = .ok targets ∧
        (auditor.aggregator.aggregate files cancelled).value = .ok info ∧
          auditor.findings targets policy info = report := by
  cases resolved : auditor.catalog.resolveAll names with
  | error e => simp [audit_value_of_unknown resolved]
  | ok targets =>
    rw [audit_value_of_known resolved]
    cases (auditor.aggregator.aggregate files cancelled).value <;> simp [Except.map]

def Stops (auditor : Auditor) (files : List AssemblyFile) : Bool → Error → Prop
  | true, e => e = .cancelled
  | false, e => Ends auditor.aggregator.finder files e

theorem aggregate_eq_error_iff :
    (auditor.aggregator.aggregate files cancelled).value = .error e ↔
      auditor.Stops files cancelled e := by
  cases cancelled with
  | true => exact ⟨fun h => (Except.error.inj h).symm, fun h => congrArg Except.error h.symm⟩
  | false => exact (collects_aggregate auditor.aggregator files).eq_error_iff

theorem exists_aggregate_iff :
    (∃ info, (auditor.aggregator.aggregate files cancelled).value = .ok info) ↔
      cancelled = false ∧ ∀ e, ¬ Ends auditor.aggregator.finder files e := by
  cases cancelled with
  | true => exact ⟨fun h => (nomatch h.choose_spec), fun h => (nomatch h.1)⟩
  | false =>
    rw [(collects_aggregate auditor.aggregator files).exists_ok_iff]
    exact (and_iff_right rfl).symm

theorem audit_eq_error_iff : (auditor.audit files names policy cancelled).value = .error e ↔
    (∃ name, names.find? (fun name => !auditor.catalog.knows name) = some name ∧
      e = .unknownTarget name) ∨
    (∀ name ∈ names, auditor.catalog.knows name = true) ∧ auditor.Stops files cancelled e := by
  rw [← Catalog.resolveAll_eq_error_iff, ← Catalog.exists_resolveAll_iff]
  cases resolved : auditor.catalog.resolveAll names with
  | error d => simp [audit_value_of_unknown resolved]
  | ok targets =>
    rw [audit_value_of_known resolved, ← aggregate_eq_error_iff]
    cases (auditor.aggregator.aggregate files cancelled).value <;> simp [Except.map]

theorem exists_report_iff : (∃ report, (auditor.audit files names policy cancelled).value = .ok report) ↔
    (∀ name ∈ names, auditor.catalog.knows name = true) ∧
      cancelled = false ∧ ∀ e, ¬ Ends auditor.aggregator.finder files e := by
  rw [← Catalog.exists_resolveAll_iff, ← exists_aggregate_iff]
  simp only [audit_eq_ok_iff]
  constructor
  · rintro ⟨report, targets, info, resolved, collected, -⟩
    exact ⟨⟨targets, resolved⟩, info, collected⟩
  · rintro ⟨⟨targets, resolved⟩, info, collected⟩
    exact ⟨_, targets, info, resolved, collected, rfl⟩

/-- Files that do not answer for themselves only end a collection by a member that cannot be written. -/
theorem ends_iff_of_own {finder : Finder} (own : ∀ file ∈ files, file.isSupplied = false) :
    Ends finder files e ↔ e = .arityOverflow ∧ ∃ file ∈ files, MeetsOverflow finder file := by
  constructor
  · rintro (⟨mem, failed⟩ | ⟨mem, failed, -⟩)
    · obtain reason | ⟨-, meets⟩ := collect_eq_error (own _ mem) failed
      · cases reason
      · exact ⟨rfl, _, mem, meets⟩
    · obtain reason | ⟨reason, -⟩ := collect_eq_error (own _ mem) failed <;> cases reason
  · rintro ⟨rfl, file, mem, meets⟩
    exact .overflow mem (collect_of_meetsOverflow meets)

/-- An audit fails with the first name that means no target, if there is one, whatever the files hold and
whether or not someone has asked to stop. Else it stops if someone has asked it to, and else it ends
with the collection of its files, or has a report. Files in memory and on a disk only end it if one
of them refers to a member that cannot be written; whatever else they hold is no reason. The targets
of a report are distinct targets of the catalog, so no question about them fails. -/
theorem audit_outcome (auditor : Auditor) (files : List AssemblyFile) (names : List String)
    (policy : Policy) (cancelled : Bool) :
    let catalog := auditor.catalog
    let finder := auditor.aggregator.finder
    let outcome := (auditor.audit files names policy cancelled).value
    (∀ e, outcome = .error e ↔
      (∃ name, names.find? (fun name => !catalog.knows name) = some name ∧
        e = .unknownTarget name) ∨
      (∀ name ∈ names, catalog.knows name = true) ∧ auditor.Stops files cancelled e) ∧
    ((∃ report, outcome = .ok report) ↔ (∀ name ∈ names, catalog.knows name = true) ∧
      cancelled = false ∧ ∀ e, ¬ Ends finder files e) ∧
    (∀ report, outcome = .ok report → catalog.resolveAll names = .ok report.targets) ∧
    (∀ targets, catalog.resolveAll names = .ok targets → catalog.Meant names targets) ∧
    ((∀ file ∈ files, file.isSupplied = false) → ∀ e, Ends finder files e ↔
      e = .arityOverflow ∧ ∃ file ∈ files, MeetsOverflow finder file) ∧
    ∀ file e, file.isSupplied = false → (collect finder file false).value = .error e →
      e.isOfFile = true ∨ e = .arityOverflow ∧ MeetsOverflow finder file := by
  intro catalog finder outcome
  refine ⟨fun e => audit_eq_error_iff, exists_report_iff, fun report reported => ?_,
    fun targets resolved => Catalog.meant_of_resolveAll resolved,
    fun own e => ends_iff_of_own own, fun file e own failed => collect_eq_error own failed⟩
  obtain ⟨targets, info, resolved, -, rfl⟩ := audit_eq_ok_iff.1 reported
  exact resolved

end

/-- The bytes of a file can keep an audit from having a report. -/
theorem not_reports_every_image : ¬ ∀ (auditor : Auditor) (data : ByteArray),
    ∃ report, (auditor.audit [.memory "App.dll" "" data] [] .empty false).value = .ok report := by
  intro reports
  let auditor : Auditor := ⟨CatalogTables.empty.catalog, ⟨Finder.standard, false⟩, none, false⟩
  obtain ⟨-, -, goes⟩ := exists_report_iff.1 (reports auditor overfull)
  exact goes _ (.overflow List.mem_cons_self collect_overfullFile)

end Auditor

end FrameworkAudit
