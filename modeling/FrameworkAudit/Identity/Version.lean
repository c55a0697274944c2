import FrameworkAudit.Error
import FrameworkAudit.Text.Blank
import FrameworkAudit.Text.Fields
import FrameworkAudit.Text.Numeral

/-!
Four part versions. Missing parts of a written version are zero, and the short form leaves out
parts that are zero at the end, but never the first two.
-/

set_option autoImplicit false

namespace FrameworkAudit

structure Version where
  major : UInt16
  minor : UInt16
  build : UInt16
  revision : UInt16
  deriving DecidableEq, Repr, Inhabited

namespace Version

def zero : Version := ⟨0, 0, 0, 0⟩

instance : Ord Version :=
  ⟨compareLex (compareOn major)
    (compareLex (compareOn minor) (compareLex (compareOn build) (compareOn revision)))⟩

instance : Std.TransOrd Version :=
  inferInstanceAs (Std.TransCmp (compareLex (compareOn major)
    (compareLex (compareOn minor) (compareLex (compareOn build) (compareOn revision)))))

instance : Std.LawfulEqOrd Version where
  eq_of_compare {a b} h := by
    change compareLex (compareOn major) (compareLex (compareOn minor)
      (compareLex (compareOn build) (compareOn revision))) a b = .eq at h
    simp only [compareLex_eq_eq, compareOn, Std.LawfulEqCmp.compare_eq_iff_eq] at h
    obtain ⟨h1, h2, h3, h4⟩ := h
    cases a; cases b; simp_all

instance : LE Version := leOfOrd
instance : LT Version := ltOfOrd
instance (a b : Version) : Decidable (a ≤ b) := inferInstanceAs (Decidable (_ = true))
instance (a b : Version) : Decidable (a < b) := inferInstanceAs (Decidable (_ = _))

def text (v : Version) : String :=
  s!"{v.major.toNat}.{v.minor.toNat}.{v.build.toNat}.{v.revision.toNat}"

def shortText (v : Version) : String :=
  if v.revision ≠ 0 then v.text
  else if v.build ≠ 0 then s!"{v.major.toNat}.{v.minor.toNat}.{v.build.toNat}"
  else s!"{v.major.toNat}.{v.minor.toNat}"

def parts (v : Version) : List UInt16 := [v.major, v.minor, v.build, v.revision]

/-- The version of at most four parts; those that are missing are zero. -/
def ofParts (parts : List UInt16) : Version :=
  ⟨parts[0]?.getD 0, parts[1]?.getD 0, parts[2]?.getD 0, parts[3]?.getD 0⟩

/-- A leading `v` or `V` says that a version follows. -/
def dropMark : List Char → List Char
  | 'v' :: rest => rest
  | 'V' :: rest => rest
  | rest => rest

def parsePart (part : String) : Except Error UInt16 :=
  match Text.numeral? UInt16.size part with
  | some n => .ok (UInt16.ofNat n)
  | none => .error (.malformed (.versionComponent part))

def parse (text : String) : Except Error Version := do
  let parts := Text.fields '.' (String.ofList (dropMark (Text.trim text).toList))
  if 4 < parts.length then throw (.malformed (.versionFormat text))
  return ofParts (← parts.mapM parsePart)

end Version

end FrameworkAudit
