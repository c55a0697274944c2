import FrameworkAudit.Sorted
import FrameworkAudit.Target

set_option autoImplicit false

namespace FrameworkAudit

structure Package where
  id : String
  version : String
  deriving DecidableEq, Repr

namespace Package

instance : Ord Package := ⟨compareLex (compareOn id) (compareOn version)⟩

instance : Std.TransOrd Package :=
  inferInstanceAs (Std.TransCmp (compareLex (compareOn id) (compareOn version)))

end Package

structure PackageInfo where
  assembly : String
  target : Target
  packages : List Package
  deriving DecidableEq, Repr

namespace PackageInfo

instance : Ord PackageInfo :=
  ⟨compareLex (compareOn assembly) (compareLex (compareOn target) (compareOn packages))⟩

def isFound (i : PackageInfo) : Bool := !i.packages.isEmpty

/-- The assemblies that have packages on all of some targets, in order. Without targets nothing is
covered. -/
def covered (infos : List PackageInfo) (targets : List Target) : List String :=
  let found := infos.filter isFound
  let assemblies := Sorted.ofList compare (found.map assembly)
  assemblies.filter fun a =>
    !targets.isEmpty && targets.all fun t => found.any fun i => i.assembly == a && i.target == t

end PackageInfo

abbrev PackageFinder := String → List Target → List (Target × List Package)

structure PackageTable where
  entries : List ((String × Target) × List Package)
  deriving DecidableEq, Repr, Inhabited

namespace PackageTable

def empty : PackageTable := ⟨[]⟩

def add (t : PackageTable) (assembly : String) (target : Target) (p : Package) : PackageTable :=
  let key := (Text.fold assembly, target)
  let order := compareLex (compareOn Prod.fst) (compareOn Prod.snd)
  ⟨Sorted.alter order key [] (· ++ [p]) t.entries⟩

def packages? (t : PackageTable) (assembly : String) (target : Target) : Option (List Package) :=
  t.entries.lookup (Text.fold assembly, target)

def finder (t : PackageTable) : PackageFinder := fun assembly targets =>
  (Sorted.ofList compare targets).filterMap fun target =>
    (t.packages? assembly target).map fun packages => (target, packages)

end PackageTable

end FrameworkAudit
