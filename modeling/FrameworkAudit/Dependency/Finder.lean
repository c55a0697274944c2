import FrameworkAudit.Cancellation
import FrameworkAudit.Dependency.Filter
import FrameworkAudit.Dependency.Member
import FrameworkAudit.Log
import FrameworkAudit.Shape.Resolve

/-!
Finding the framework members that one assembly depends on. Each row of its type and member
references has an outcome of its own: it is skipped because it cannot be resolved, it has no
declaring assembly, or it names candidates. The candidates that the filter accepts are the
dependencies, each counted once.

Members of primitive types belong to the core library; an assembly that has such members and no
core library has no result.
-/

set_option autoImplicit false

namespace FrameworkAudit

structure FileDependencies where
  assembly : AssemblyInfo
  dependencies : List Dependency
  deriving DecidableEq, Repr

structure Finder where
  filter : Filter
  /-- The names of the assemblies that may define the primitive types. -/
  coreNames : List String

inductive RowOutcome where
  | skipped (table : TableId) (row : Nat) (error : Error)
  | undeclared (row : Nat)
  | found (candidates : List MemberInfo)

namespace Finder

variable [Host]

def defaultCoreNames : List String :=
  ["mscorlib", "netstandard", "System.Runtime", "System.Private.CoreLib"]

def isCoreName (f : Finder) (name : String) : Bool :=
  f.coreNames.any fun core => Text.sameFolded core name

/-- The core library of an assembly: itself if its name says so, or else the first of its references
that is a framework and has such a name. -/
def coreLibrary? (f : Finder) (a : Assembly) : Option Identity :=
  if f.isCoreName a.identity.name then some a.identity
  else a.references.find? fun r => f.isCoreName r.name && f.filter.acceptsAssembly r

/-- Rows that damaged metadata keeps from being resolved are skipped; any other error is final. -/
def skipping (table : TableId) (row : Nat) (e : Error) : Except Error RowOutcome :=
  if e.isMalformedInput then .ok (.skipped table row e) else .error e

def typeRefOutcome (a : Assembly) (row : Nat) : Except Error RowOutcome :=
  match a.typeRefShape row with
  | .error e => skipping .typeRef row e
  | .ok type =>
    let id := DocId.ofType (.named type)
    .ok (.found [⟨id, some id, type.assembly?, false⟩])

/-- The candidates of a member: first its type, if the assembly itself defines it. -/
def memberCandidates (a : Assembly) (m : MemberShape) (definedIn : Identity) : List MemberInfo :=
  let type := DocId.ofTypeDefinition m.parent
  let isPrimitive := m.parent.isPrimitive
  let member : MemberInfo := ⟨DocId.ofMember m, some type, some definedIn, isPrimitive⟩
  if definedIn.same a.identity then
    [⟨type, some type, some definedIn, isPrimitive⟩, member]
  else [member]

def memberOutcome (a : Assembly) (m : MemberShape) (definedIn : Identity) :
    Except Error RowOutcome :=
  if m.isWritable then .ok (.found (memberCandidates a m definedIn)) else .error .arityOverflow

/-- Rows without a declaring type give nothing, not even a line in the log. -/
def memberRefOutcome (core? : Option Identity) (a : Assembly) (row : Nat) :
    Except Error RowOutcome :=
  match a.memberShape row with
  | .error e => skipping .memberRef row e
  | .ok none => .ok (.found [])
  | .ok (some m) =>
    if m.parent.isPrimitive then
      match core? with
      | some core => memberOutcome a m core
      | none => .error (.missingCoreLibrary a.identity.display)
    else
      match m.parent.assembly? with
      | some definedIn => memberOutcome a m definedIn
      | none => .ok (.undeclared row)

def rowNumbers (count : Nat) : List Nat := (List.range count).map (· + 1)

def outcomes (f : Finder) (a : Assembly) : List (Except Error RowOutcome) :=
  let core? := f.coreLibrary? a
  (rowNumbers a.typeRefs.size).map (typeRefOutcome a) ++
    (rowNumbers a.memberRefs.size).map (memberRefOutcome core? a)

def tracks (f : Finder) (m : MemberInfo) : Bool :=
  m.assembly?.any f.filter.acceptsAssembly && f.filter.acceptsMember m.id

def RowOutcome.candidates : RowOutcome → List MemberInfo
  | .found candidates => candidates
  | _ => []

def distinct (members : List MemberInfo) : List MemberInfo :=
  (members.foldl (fun kept m => if kept.any m.same then kept else kept.push m) #[]).toList

def outcomeLines (f : Finder) (owner : String) : Except Error RowOutcome → List LogLine
  | .error _ => []
  | .ok (.skipped table row e) =>
    [⟨.warn, s!"{owner}: skipping {table.name} row {row} - {e.message}"⟩]
  | .ok (.undeclared row) =>
    [⟨.trace, s!"{owner}: MemberRef row {row} has no declaring assembly"⟩]
  | .ok (.found candidates) =>
    (candidates.filter fun m => !f.tracks m).map fun m => ⟨.trace, s!"{owner}: dropping {m.id}"⟩

def isOk {α : Type} : Except Error α → Bool
  | .ok _ => true
  | .error _ => false

def summary (a : Assembly) (kept dropped : Nat) : LogLine :=
  let counts := s!"{a.typeRefs.size} TypeRefs, {a.memberRefs.size} MemberRefs"
  ⟨.debug, s!"{a.identity.display}: {counts}, {kept} dependencies kept, {dropped} dropped"⟩

def find (f : Finder) (a : Assembly) (cancelled : Bool) :
    Logged (Except Error FileDependencies) :=
  if cancelled then ⟨.error .cancelled, []⟩
  else
    let outcomes := f.outcomes a
    let lines := (outcomes.takeWhile isOk).flatMap (f.outcomeLines a.identity.display)
    match outcomes.mapM id with
    | .error e => ⟨.error e, lines⟩
    | .ok rows =>
      let candidates := rows.flatMap RowOutcome.candidates
      let kept := distinct (candidates.filter f.tracks)
      let dropped := candidates.countP fun m => !f.tracks m
      let info := a.info
      ⟨.ok ⟨info, kept.map fun m => ⟨m, info⟩⟩, lines ++ [summary a kept.length dropped]⟩

end Finder

end FrameworkAudit
