import FrameworkAudit.Identity

set_option autoImplicit false

namespace FrameworkAudit

structure AssemblyInfo where
  /-- The display name of the assembly. -/
  identity : String
  fileVersion : String
  /-- The framework that the assembly was built for; empty if unknown. -/
  framework : String
  references : List Identity
  /-- Whether the user named the assembly. -/
  explicit : Bool
  deriving DecidableEq, Repr

namespace AssemblyInfo

instance : Ord AssemblyInfo := ⟨compareLex (compareOn identity) (compareOn framework)⟩

instance : Std.TransOrd AssemblyInfo :=
  inferInstanceAs (Std.TransCmp (compareLex (compareOn identity) (compareOn framework)))

def same (a b : AssemblyInfo) : Bool :=
  a.identity == b.identity && a.framework == b.framework

theorem compare_eq_iff_same {a b : AssemblyInfo} : compare a b = .eq ↔ a.same b = true := by
  change compareLex (compareOn identity) (compareOn framework) a b = .eq ↔ _
  simp [compareLex_eq_eq, compareOn, same]

def unnamed : AssemblyInfo := ⟨"", "", "", [], false⟩

def ofIdentity [Host] (identity : Identity) (fileVersion framework : String)
    (references : List Identity) : AssemblyInfo :=
  ⟨identity.display, fileVersion, framework, references, true⟩

def name (a : AssemblyInfo) : String := simpleName a.identity

end AssemblyInfo

end FrameworkAudit
