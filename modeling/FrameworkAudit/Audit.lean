import FrameworkAudit.Catalog
import FrameworkAudit.Dependency.Info
import FrameworkAudit.Package
import FrameworkAudit.Policy

set_option autoImplicit false

namespace FrameworkAudit

structure UnsupportedMember where
  member : MemberInfo
  /-- Each target with the version that introduced the member. -/
  status : List (Target × Option Version)
  recommended? : Option String
  sourceCompatible? : Option String
  callers : List AssemblyInfo
  deriving DecidableEq, Repr

def UnsupportedMember.missingTargets (u : UnsupportedMember) : List Target :=
  (u.status.filter fun entry => entry.2.isNone).map Prod.fst

namespace Catalog

variable (c : Catalog)

def resolveAll (names : List String) : Except Error (List Target) := do
  let targets ← names.mapM c.resolve
  return targets.foldl (fun kept t => if kept.contains t then kept else kept ++ [t]) []

def checkTargets (targets : List Target) : Except Error Unit :=
  match targets.find? fun t => !c.targets.contains t with
  | some unknown => .error (.unknownTarget unknown.text)
  | none => .ok ()

def explicitNames (assemblies : List AssemblyInfo) : List String :=
  (assemblies.filter AssemblyInfo.explicit).map fun a => Text.fold a.name

def unreferenced (references : List String) (assemblies : List AssemblyInfo) : List String :=
  let supplied := explicitNames assemblies
  let missing := (references.map Text.trim).filter fun reference =>
    let name := simpleName reference
    !name.isEmpty && c.isAssembly name && !supplied.contains (Text.fold name)
  Sorted.ofList compare missing

/-- Members by identifier: the least of those that share it, and everyone who calls one of them. -/
def groups (info : DependencyInfo) : List (DocId × (MemberInfo × List AssemblyInfo)) :=
  info.members.foldl (fun map entry =>
    Sorted.alter compare entry.1.id (entry.1, [])
      (fun group =>
        (if compare entry.1 group.1 = .lt then entry.1 else group.1,
          Sorted.insertAll compare entry.2 group.2))
      map) []

def unsupported? (targets : List Target) (policy : Policy) (member : MemberInfo)
    (callers : List AssemblyInfo) : Option UnsupportedMember :=
  let status := targets.map fun t => (t, c.introduced? member.id t)
  if status.any fun entry => entry.2.isNone && !policy.ignoresAll callers entry.1 then
    some {
      member, status, callers
      recommended? := c.recommended? member.id
      sourceCompatible? := c.sourceCompatible? member.id }
  else none

def unsupportedLine (found total : Nat) : LogLine :=
  ⟨.debug, s!"{found} of {total} referenced symbols are missing from a requested target"⟩

def unsupportedMembers (targets : List Target) (policy : Policy) (info : DependencyInfo) :
    Logged (Except Error (List UnsupportedMember)) :=
  match c.checkTargets targets with
  | .error e => ⟨.error e, []⟩
  | .ok () =>
    let described := (groups info).filter fun group => c.isMember group.2.1.id
    let found := described.filterMap fun group =>
      c.unsupported? targets policy group.2.1 group.2.2
    ⟨.ok found, [unsupportedLine found.length info.members.length]⟩

/-- The changes of a member and of its ancestors; of changes with one name the first counts. -/
def changesFor (id : DocId) : List BreakingChange :=
  let all := (id :: c.ancestors id).flatMap c.breaking
  all.foldl (fun kept change =>
    if kept.any fun k => k.id == change.id then kept else kept ++ [change]) []

def definedIn (names : List String) (member : MemberInfo) : Bool :=
  member.assembly?.any fun i => names.contains (Text.fold i.name)

def reached (targets : List Target) (policy : Policy) (retargeting : Bool) (member : MemberInfo)
    (callers : List AssemblyInfo) : List BreakingDependency :=
  let shown := (c.changesFor member.id).filter fun change =>
    !policy.suppresses change.id && (!change.quirked || retargeting)
  shown.flatMap fun change =>
    (targets.filter fun t => change.appliesTo t.version).flatMap fun t =>
      (callers.filter fun a => !policy.ignores a t).map fun a => ⟨change, member, a⟩

/-- The breaking changes that reach an assembly on some target. Members that the submitted
assemblies define themselves do not count. -/
def breakingChanges (targets : List Target) (policy : Policy) (submitted : List String)
    (info : DependencyInfo) (retargeting : Bool) : Except Error (List BreakingDependency) := do
  c.checkTargets targets
  let names := submitted.map fun name => Text.fold (simpleName name)
  let foreign := info.members.filter fun entry => !definedIn names entry.1
  return Sorted.ofList BreakingDependency.order <|
    foreign.flatMap fun entry => c.reached targets policy retargeting entry.1 entry.2

end Catalog

namespace DependencyInfo

/-- The assemblies that packages may provide: those that are missing, and those that the user has
not named. -/
def packageCandidates [Host] (info : DependencyInfo) : List String :=
  let implicit := (info.assemblies.filter fun a => !a.explicit).map AssemblyInfo.identity
  Sorted.ofList compare (info.unresolved.map Prod.fst ++ implicit)

end DependencyInfo

namespace PackageInfo

/-- Pairs each target with the packages found for it. The packages of a target are taken once: where
a target stands twice, its second place has none. -/
def assign (assembly : String) :
    List Target → List (Target × List Package) → List PackageInfo
  | [], _ => []
  | t :: rest, found =>
    ⟨assembly, t, (found.lookup t).getD []⟩ ::
      assign assembly rest (found.filter fun entry => entry.1 != t)

def lookUp (finder : PackageFinder) (assemblies : List String) (targets : List Target) :
    List PackageInfo :=
  let names := Sorted.ofList compare (assemblies.filter fun a => !a.isEmpty)
  Sorted.sort compare (names.flatMap fun a => assign a targets (finder a targets))

def removable (infos : List PackageInfo) (assemblies : List AssemblyInfo)
    (targets : List Target) : List String :=
  let explicit := Catalog.explicitNames assemblies
  (covered infos targets).filter fun a => !explicit.contains (Text.fold (simpleName a))

end PackageInfo

end FrameworkAudit
