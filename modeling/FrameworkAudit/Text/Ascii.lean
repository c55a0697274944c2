set_option autoImplicit false

namespace FrameworkAudit.Text

def fold (s : String) : String := s.map Char.toLower

def sameFolded (a b : String) : Bool := fold a == fold b

def startsFolded (head s : String) : Bool :=
  (fold head).toList.isPrefixOf (fold s).toList

@[simp] theorem toList_fold (s : String) : (fold s).toList = s.toList.map Char.toLower := by
  simp [fold]

theorem sameFolded_iff {a b : String} : sameFolded a b = true ↔ fold a = fold b := by
  simp [sameFolded]

theorem sameFolded_eq_toList (a b : String) :
    sameFolded a b = (a.toList.map Char.toLower == b.toList.map Char.toLower) := by
  rw [Bool.eq_iff_iff, sameFolded_iff, beq_iff_eq, ← toList_fold, ← toList_fold, String.toList_inj]

theorem sameFolded_comm (a b : String) : sameFolded a b = sameFolded b a := by
  rw [Bool.eq_iff_iff, sameFolded_iff, sameFolded_iff, eq_comm]

end FrameworkAudit.Text
