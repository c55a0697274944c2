import FrameworkAudit.DocId
import FrameworkAudit.Identity.AssemblyInfo

set_option autoImplicit false

namespace FrameworkAudit

structure MemberInfo where
  id : DocId
  /-- The type that declares the member, or the member itself if it is a type. -/
  type? : Option DocId
  /-- The assembly that defines the member. -/
  assembly? : Option Identity
  isPrimitive : Bool
  deriving DecidableEq, Repr

namespace MemberInfo

instance : Ord MemberInfo := ⟨compareLex (compareOn id) (compareOn assembly?)⟩

instance : Std.TransOrd MemberInfo :=
  inferInstanceAs (Std.TransCmp (compareLex (compareOn id) (compareOn assembly?)))

def sameAssembly : Option Identity → Option Identity → Bool
  | none, none => true
  | some a, some b => a.same b
  | _, _ => false

def same (a b : MemberInfo) : Bool := a.id == b.id && sameAssembly a.assembly? b.assembly?

theorem compare_eq_iff_sameAssembly {a b : Option Identity} :
    compare a b = .eq ↔ sameAssembly a b = true := by
  cases a with
  | none => cases b <;> simp [sameAssembly]
  | some a =>
    cases b with
    | none => simp [sameAssembly]
    | some b => exact Identity.compare_eq_iff_same

theorem compare_eq_iff_same {a b : MemberInfo} : compare a b = .eq ↔ a.same b = true := by
  change compareLex (compareOn id) (compareOn assembly?) a b = .eq ↔ _
  simp [compareLex_eq_eq, compareOn, same, compare_eq_iff_sameAssembly]

def ofId (id : DocId) (assembly? : Option Identity) : MemberInfo := ⟨id, none, assembly?, false⟩

def withType (m : MemberInfo) (type : DocId) : MemberInfo := { m with type? := some type }

end MemberInfo

structure Dependency where
  member : MemberInfo
  caller : AssemblyInfo
  deriving DecidableEq, Repr

/-- Dependencies differ also if one is primitive and the other is not. -/
def Dependency.same (a b : Dependency) : Bool :=
  a.member.same b.member && a.caller.same b.caller &&
    a.member.isPrimitive == b.member.isPrimitive

end FrameworkAudit
