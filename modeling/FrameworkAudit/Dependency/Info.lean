import FrameworkAudit.Dependency.Finder
import FrameworkAudit.Sorted

/-!
The dependencies of many assemblies: each member with the assemblies that call it, the assemblies
themselves, and the files that could not be read. All are kept sorted, so what is collected does not
depend on the order in which it came.
-/

set_option autoImplicit false

namespace FrameworkAudit

structure DependencyInfo where
  members : List (MemberInfo × List AssemblyInfo)
  assemblies : List AssemblyInfo
  /-- The names of files with the reasons for which they could not be read. -/
  errors : List (String × String)
  deriving DecidableEq, Repr

namespace DependencyInfo

def empty : DependencyInfo := ⟨[], [], []⟩

def compareErrors : String × String → String × String → Ordering :=
  compareLex (compareOn Prod.fst) (compareOn Prod.snd)

def addCallers (member : MemberInfo) (callers : List AssemblyInfo) (info : DependencyInfo) :
    DependencyInfo :=
  let add := Sorted.insertAll compare callers
  { info with members := Sorted.alter compare member [] add info.members }

def addDependency (info : DependencyInfo) (d : Dependency) : DependencyInfo :=
  info.addCallers d.member [d.caller]

def addAssembly (info : DependencyInfo) (a : AssemblyInfo) : DependencyInfo :=
  { info with assemblies := Sorted.insert compare a info.assemblies }

def addError (info : DependencyInfo) (name reason : String) : DependencyInfo :=
  { info with errors := Sorted.insert compareErrors (name, reason) info.errors }

def addFile (info : DependencyInfo) (file : FileDependencies) : DependencyInfo :=
  (file.dependencies.foldl addDependency info).addAssembly file.assembly

def ofFile (file : FileDependencies) : DependencyInfo := empty.addFile file

/-- Everything that either of two holds; of equal members and callers those on the left stay. -/
def merge (a b : DependencyInfo) : DependencyInfo where
  members := (b.members.foldl (fun info entry => info.addCallers entry.1 entry.2) a).members
  assemblies := Sorted.insertAll compare b.assemblies a.assemblies
  errors := Sorted.insertAll compareErrors b.errors a.errors

def sameList {α : Type} (same : α → α → Bool) : List α → List α → Bool
  | [], [] => true
  | x :: xs, y :: ys => same x y && sameList same xs ys
  | _, _ => false

/-- Whether two hold the same members with the same callers, the same assemblies and errors. -/
def same (a b : DependencyInfo) : Bool :=
  sameList (fun x y => x.1.same y.1 && sameList AssemblyInfo.same x.2 y.2) a.members b.members &&
    sameList AssemblyInfo.same a.assemblies b.assemblies && a.errors == b.errors

def isEmpty (info : DependencyInfo) : Bool :=
  info.members.isEmpty && info.assemblies.isEmpty && info.errors.isEmpty

def supplies (info : DependencyInfo) (name : String) : Bool :=
  info.assemblies.any fun a => Text.sameFolded a.name name

/-- The references that no collected assembly satisfies by name, each with the assemblies that have
it, all by their display names. -/
def unresolved [Host] (info : DependencyInfo) : List (String × List String) :=
  let supplied := info.assemblies.map fun a => Text.fold a.name
  let missing := info.assemblies.flatMap fun a =>
    (a.references.filter fun r => !supplied.contains (Text.fold r.name)).map fun r =>
      (r.display, a.identity)
  missing.foldl (fun map entry =>
    Sorted.alter compare entry.1 [] (Sorted.insert compare entry.2) map) []

end DependencyInfo

end FrameworkAudit
