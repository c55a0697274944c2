import FrameworkAudit.Error

set_option autoImplicit false

namespace FrameworkAudit.Bytes

/-- The little-endian number in the `width` bytes from `offset`; bytes past the end count as 0. -/
def littleEndian (data : ByteArray) (offset : Nat) : Nat → Nat
  | 0 => 0
  | width + 1 => (data[offset]?.getD 0).toNat + 256 * littleEndian data (offset + 1) width

def word (data : ByteArray) (offset width : Nat) : Except Error Nat :=
  if offset + width ≤ data.size then .ok (littleEndian data offset width) else .error .outOfBounds

def signed (width value : Nat) : Int := Int.bmod value (1 <<< (8 * width))

def slice (data : ByteArray) (offset length : Nat) : Except Error ByteArray :=
  if offset + length ≤ data.size then .ok (data.extract offset (offset + length))
  else .error .outOfBounds

def zeroFrom? (data : ByteArray) (start : Nat) : Option Nat :=
  if h : start < data.size then
    if data[start] = 0 then some start else zeroFrom? data (start + 1)
  else none
termination_by data.size - start

def dropFirst (data : ByteArray) (start : Nat) : ByteArray := data.extract start data.size

theorem littleEndian_lt (data : ByteArray) (offset width : Nat) :
    littleEndian data offset width < 1 <<< (8 * width) := by
  induction width generalizing offset with
  | zero => simp [littleEndian]
  | succ width ih =>
    have h := ih (offset + 1)
    have b := (data[offset]?.getD 0).toNat_lt
    rw [Nat.mul_succ, Nat.shiftLeft_add, Nat.shiftLeft_eq _ 8]
    simp only [littleEndian]
    omega

end FrameworkAudit.Bytes
