import FrameworkAudit.Audit
import FrameworkAudit.Dependency.Aggregate

set_option autoImplicit false

namespace FrameworkAudit

structure Auditor where
  catalog : Catalog
  aggregator : Aggregator
  packages? : Option PackageFinder
  /-- Whether changes that only show after building for a newer target count. -/
  retargeting : Bool

structure Report where
  targets : List Target
  dependencies : DependencyInfo
  unsupported : List UnsupportedMember
  breaking : List BreakingDependency
  missing : List String
  packages : List PackageInfo

namespace Report

def summary (r : Report) : LogLine :=
  let assemblies := r.dependencies.assemblies.length
  let targets := r.targets.length
  let found := s!"{r.unsupported.length} unsupported members, " ++
    s!"{r.breaking.length} breaking changes, {r.missing.length} missing assemblies"
  ⟨.info, s!"Analysed {assemblies} assemblies against {targets} targets: {found}"⟩

end Report

namespace Auditor

variable [Host]

def submittedNames (info : DependencyInfo) : List String :=
  (info.assemblies.filter AssemblyInfo.explicit).map AssemblyInfo.name

/-- The missing assemblies and the packages, where packages that cover an assembly take it off the
list. -/
def missing (auditor : Auditor) (targets : List Target) (info : DependencyInfo) :
    Logged (List String × List PackageInfo) :=
  let missing := auditor.catalog.unreferenced (info.unresolved.map Prod.fst) info.assemblies
  match auditor.packages? with
  | none => ⟨(missing, []), []⟩
  | some finder =>
    let packages := PackageInfo.lookUp finder info.packageCandidates targets
    let removable := PackageInfo.removable packages info.assemblies targets
    ⟨(missing.filter fun a => !removable.contains a, packages),
      [⟨.debug, s!"{removable.length} missing assemblies are provided by packages"⟩]⟩

def report (auditor : Auditor) (targets : List Target) (policy : Policy)
    (info : DependencyInfo) : Logged (Except Error Report) :=
  let unsupported := auditor.catalog.unsupportedMembers targets policy info
  let checked : Except Error (List UnsupportedMember × List BreakingDependency) := do
    let members ← unsupported.value
    let breaking ← auditor.catalog.breakingChanges targets policy (submittedNames info) info
      auditor.retargeting
    return (members, breaking)
  match checked with
  | .error e => ⟨.error e, unsupported.lines⟩
  | .ok (members, breaking) =>
    let absent := auditor.missing targets info
    let r : Report := ⟨targets, info, members, breaking, absent.value.1, absent.value.2⟩
    ⟨.ok r, unsupported.lines ++ absent.lines ++ [r.summary]⟩

def audit (auditor : Auditor) (files : List AssemblyFile) (names : List String)
    (policy : Policy) (cancelled : Bool) : Logged (Except Error Report) :=
  match auditor.catalog.resolveAll names with
  | .error e => ⟨.error e, []⟩
  | .ok targets =>
    let collected := auditor.aggregator.aggregate files cancelled
    match collected.value with
    | .error e => ⟨.error e, collected.lines⟩
    | .ok info =>
      let r := auditor.report targets policy info
      ⟨r.value, collected.lines ++ r.lines⟩

end Auditor

end FrameworkAudit
