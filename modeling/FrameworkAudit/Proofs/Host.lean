import FrameworkAudit.Host.Standard
import FrameworkAudit.Proofs.Bytes

set_option autoImplicit false

namespace FrameworkAudit.Text.Hex

variable {bytes : List UInt8} {c : Char}

theorem length_flatMap_digits {α : Type} {f : UInt8 → List α} (two : ∀ b, (f b).length = 2)
    (bytes : List UInt8) : (bytes.flatMap f).length = 2 * bytes.length := by
  induction bytes with
  | nil => rfl
  | cons b rest ih =>
    rw [List.flatMap_cons, List.length_append, ih, two, List.length_cons]
    omega

theorem length_encode (bytes : List UInt8) : (encode bytes).toList.length = 2 * bytes.length := by
  rw [encode, String.toList_ofList]
  exact length_flatMap_digits (fun _ => rfl) bytes

def digitByte (n : Nat) : UInt8 := UInt8.ofNat (digit n).toNat

theorem utf8EncodeChar_digit : ∀ n < 16, String.utf8EncodeChar (digit n) = [digitByte n] := by decide

theorem digitValue?_digitByte : ∀ n < 16, digitValue? (digitByte n) = some n := by decide

def digitBytes (b : UInt8) : List UInt8 := [digitByte (b.toNat / 16), digitByte (b.toNat % 16)]

theorem toUTF8_encode (bytes : List UInt8) :
    (encode bytes).toUTF8.toList = bytes.flatMap digitBytes := by
  rw [Bytes.toList_toUTF8, encode, String.toList_ofList, List.flatMap_assoc]
  congr 1
  funext b
  have high := utf8EncodeChar_digit (b.toNat / 16) (by have := b.toNat_lt; omega)
  have low := utf8EncodeChar_digit (b.toNat % 16) (by omega)
  simp [byte, digitBytes, high, low]

theorem decodePairs_digitBytes (position : Nat) (bytes : List UInt8) :
    decodePairs position (bytes.flatMap digitBytes) = .ok bytes := by
  induction bytes generalizing position with
  | nil => rfl
  | cons b rest ih =>
    have high := digitValue?_digitByte (b.toNat / 16) (by have := b.toNat_lt; omega)
    have low := digitValue?_digitByte (b.toNat % 16) (by omega)
    have value : UInt8.ofNat (16 * (b.toNat / 16) + b.toNat % 16) = b := by
      rw [Nat.div_add_mod, UInt8.ofNat_toNat]
    rw [List.flatMap_cons, digitBytes, List.cons_append, List.cons_append, List.nil_append,
      decodePairs, high, low]
    simp only [ih, value]
    rfl

/-- Bytes are read back from their digits. -/
theorem decode_encode (bytes : List UInt8) : decode (encode bytes) = .ok bytes := by
  have even : ¬ (bytes.flatMap digitBytes).length % 2 = 1 := by
    rw [length_flatMap_digits fun _ => rfl]
    omega
  unfold decode
  rw [toUTF8_encode, if_neg even, decodePairs_digitBytes]

theorem mem_encode (h : c ∈ (encode bytes).toList) : ∃ n < 16, digit n = c := by
  simp only [encode, String.toList_ofList, List.mem_flatMap, byte, List.mem_cons, List.not_mem_nil,
    or_false] at h
  obtain ⟨b, -, rfl | rfl⟩ := h
  · exact ⟨_, by have := b.toNat_lt; omega, rfl⟩
  · exact ⟨_, by omega, rfl⟩

end FrameworkAudit.Text.Hex

namespace FrameworkAudit

instance : LawfulHost where
  hexBytes_hexText bytes := congrArg (Except.mapError Text.Hex.Fault.message)
    (Text.Hex.decode_encode bytes)
  length_hexText := Text.Hex.length_encode
  mem_hexText bytes c h := by
    have digits : ∀ n < 16, Text.Hex.digit n ∈ "0123456789abcdef".toList := by decide
    obtain ⟨n, small, rfl⟩ := Text.Hex.mem_encode h
    exact digits n small

end FrameworkAudit
