import FrameworkAudit.Dependency.Member
import FrameworkAudit.Text.Numeral

set_option autoImplicit false

namespace FrameworkAudit

inductive Impact where
  | major | minor | edge | transparent | unknown
  deriving DecidableEq, Repr, Ord

namespace Impact

def all : List Impact := [.major, .minor, .edge, .transparent, .unknown]

def name : Impact → String
  | .major => "Major"
  | .minor => "Minor"
  | .edge => "Edge"
  | .transparent => "Transparent"
  | .unknown => "Unknown"

def standard : Impact := .unknown

def ofName? (s : String) : Option Impact := all.find? fun i => Text.sameFolded i.name s

def unknownName : String := "Matching variant not found"

end Impact

structure BreakingChange where
  id : String
  title : String
  /-- The members that the change concerns. -/
  apis : List DocId
  broken : Version
  fixed? : Option Version
  /-- Whether the change shows only after building for a newer target. -/
  quirked : Bool
  buildTime : Bool
  impact : Impact
  suggestion? : Option String
  deriving DecidableEq, Repr

namespace BreakingChange

/-- Whether the change is there in a version: from the one that broke up to the one that fixed. -/
def appliesTo (c : BreakingChange) (v : Version) : Bool :=
  c.broken ≤ v && c.fixed?.all fun fixed => decide (v < fixed)

def affects (c : BreakingChange) (id : DocId) : Bool := c.apis.contains id

/-- Numbers compare by value, everything else as text. -/
def compareIds (a b : String) : Ordering :=
  match Text.numeral? UInt64.size a, Text.numeral? UInt64.size b with
  | some m, some n => compare m n
  | _, _ => compare a b

end BreakingChange

structure BreakingDependency where
  change : BreakingChange
  member : MemberInfo
  caller : AssemblyInfo
  deriving DecidableEq, Repr

namespace BreakingDependency

def order : BreakingDependency → BreakingDependency → Ordering :=
  compareLex (fun a b => BreakingChange.compareIds a.change.id b.change.id) <|
    compareLex (compareOn fun d => d.change.id) <|
      compareLex (compareOn fun d => d.member.id) <|
        compareLex (compareOn fun d => d.caller.identity) <|
          compareLex (compareOn member) (compareOn caller)

end BreakingDependency

end FrameworkAudit
