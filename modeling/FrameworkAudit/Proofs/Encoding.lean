import FrameworkAudit.Proofs.Compressed
import FrameworkAudit.Proofs.Delimited
import FrameworkAudit.Proofs.Text.Utf8

set_option autoImplicit false

namespace FrameworkAudit

open Bytes

namespace NumberWidth

variable {w : NumberWidth} {n : Nat} {z : Int}

def FitsSigned (w : NumberWidth) (z : Int) : Prop := -w.signedLimit ≤ z ∧ z < w.signedLimit

instance (w : NumberWidth) (z : Int) : Decidable (w.FitsSigned z) :=
  inferInstanceAs (Decidable (_ ∧ _))

def signedBytes (w : NumberWidth) (z : Int) : List UInt8 := w.bytes (w.rotate z)

def unrotate (w : NumberWidth) (n : Nat) : Int :=
  if n % 2 = 0 then ↑(n / 2) else ↑(n / 2) - ↑w.signedLimit

theorem limit_eq (w : NumberWidth) : w.limit = 2 * w.signedLimit := by cases w <;> rfl

theorem signedCount_size (w : NumberWidth) : Read.signedCount w.size = w.signedLimit := by
  cases w <;> rfl

theorem fitsSigned_unrotate (h : n < w.limit) : w.FitsSigned (w.unrotate n) := by
  rw [limit_eq] at h
  unfold FitsSigned unrotate
  split <;> omega

theorem rotate_unrotate (h : n < w.limit) : w.rotate (w.unrotate n) = n := by
  rw [limit_eq] at h
  unfold rotate unrotate
  split <;> split <;> omega

end NumberWidth

namespace Read

variable {α : Type} {c d : Cursor} {text : String} {z : Int}

/-- A read that takes a value from the forms in which it is written, in any width that it fits, and
from nothing else. It stops behind the form. -/
def ReadsBack (read : Read α) (Fits : NumberWidth → α → Prop)
    (written : NumberWidth → α → List UInt8) : Prop :=
  ∀ c value d, read c = .ok value d ↔
    ∃ w, Fits w value ∧ c.Next (written w value) ∧ d = c.advance (written w value).length

theorem compressedInt_ok_iff :
    compressedInt c = .ok z d ↔
      ∃ w : NumberWidth, w.FitsSigned z ∧ c.Next (w.signedBytes z) ∧ d = c.advance w.size := by
  constructor
  · intro h
    rw [compressedInt_apply] at h
    split at h
    · rename_i n stop read
      obtain ⟨w, fits, next, rfl⟩ := compressedNat_ok_iff.1 read
      have width : (c.advance w.size).pos - c.pos = w.size := Nat.add_sub_cancel_left _ _
      obtain ⟨value, rfl⟩ := EStateM.Result.ok.inj h
      rw [width, NumberWidth.signedCount_size] at value
      obtain rfl : w.unrotate n = z := value
      refine ⟨w, NumberWidth.fitsSigned_unrotate fits, ?_, rfl⟩
      rwa [NumberWidth.signedBytes, NumberWidth.rotate_unrotate fits]
    · cases h
  · rintro ⟨w, fits, next, rfl⟩
    exact compressedInt_of_next fits next

def textBytes (w : NumberWidth) (text : String) : List UInt8 :=
  w.bytes text.utf8ByteSize ++ text.toUTF8.toList

theorem lead_of_bytes {w : NumberWidth} {n : Nat} (fits : n < w.limit) :
    ∃ b tail, w.bytes n = b :: tail ∧ b ≠ 0xFF := by
  have other {m : Nat} (h : m < 0xE0) : UInt8.ofNat m ≠ 0xFF := by
    have last : (0xFF : UInt8).toNat = 0xFF := rfl
    rw [ne_eq, ← UInt8.toNat_inj, UInt8.toNat_ofNat']
    omega
  cases w with
  | _ =>
    simp only [NumberWidth.limit] at fits
    exact ⟨_, _, rfl, other (by omega)⟩

theorem serialString_ok_iff :
    serialString c = .ok (some text) d ↔
      ∃ w : NumberWidth, text.utf8ByteSize < w.limit ∧ c.Next (textBytes w text) ∧
        d = c.advance (textBytes w text).length := by
  have own : text.toUTF8.toList.length = text.utf8ByteSize := length_toList _
  constructor
  · intro h
    obtain ⟨b, _, hp, read⟩ := bind_ok_iff.1 h
    rw [(peek_ok_iff.1 hp).2] at read
    split at read
    · obtain ⟨_, _, -, nothing⟩ := bind_ok_iff.1 read
      cases (pure_ok_iff.1 nothing).1
    · obtain ⟨length, _, hl, read⟩ := bind_ok_iff.1 read
      obtain ⟨w, fits, next, rfl⟩ := compressedNat_ok_iff.1 hl
      obtain ⟨_, _, ⟨⟩, read⟩ := bind_ok_iff.1 read
      obtain ⟨raw, _, hr, read⟩ := bind_ok_iff.1 read
      obtain ⟨room, taken, rfl⟩ := bytes_ok_iff.1 hr
      cases decoded : Text.Utf8.decode raw with
      | error fault =>
        rw [decoded] at read
        cases read
      | ok found =>
        rw [decoded] at read
        obtain ⟨same, rfl⟩ := pure_ok_iff.1 read
        obtain rfl := Option.some.inj same
        rw [Text.Utf8.decode_eq_ok_iff] at decoded
        have size : raw.size = length := by
          simp only [Cursor.remaining] at room
          rw [taken, ByteArray.size_extract]
          omega
        obtain rfl : length = found.utf8ByteSize := by
          rw [← size, decoded]
          rfl
        have behind : (c.advance w.size).Next found.toUTF8.toList :=
          Cursor.next_of_toList (by rw [own, ← taken, decoded])
        refine ⟨w, fits, Cursor.next_append_iff.2 ⟨next, by rwa [NumberWidth.length_bytes]⟩, ?_⟩
        simp only [textBytes, List.length_append, NumberWidth.length_bytes, own, Cursor.advance,
          Nat.add_assoc]
  · rintro ⟨w, fits, next, rfl⟩
    obtain ⟨b, tail, first, other⟩ := lead_of_bytes fits
    have lead : c.Next (b :: tail) := first ▸ next.left
    have raw := bytes_of_next next.right
    rw [own, NumberWidth.length_bytes, mk_toList] at raw
    simp only [serialString, bind_apply, peek_of_next lead, if_neg other, position, raw,
      compressedNat_of_next fits next.left, Text.Utf8.decode_eq_ok_iff.2 rfl, Cursor.advance_advance,
      textBytes, List.length_append, NumberWidth.length_bytes, own]
    rfl

theorem serialString_none_iff :
    serialString c = .ok none d ↔ c.Next [0xFF] ∧ d = c.advance 1 := by
  constructor
  · intro h
    obtain ⟨b, _, hp, read⟩ := bind_ok_iff.1 h
    obtain ⟨byte, rfl⟩ := peek_ok_iff.1 hp
    split at read
    · rename_i mark
      obtain ⟨_, _, passed, stop⟩ := bind_ok_iff.1 read
      obtain ⟨-, rfl⟩ := skip_ok_iff.1 passed
      obtain ⟨-, rfl⟩ := pure_ok_iff.1 stop
      rw [mark] at byte
      exact ⟨Cursor.next_cons_iff.2 ⟨byte, fun i hi => absurd hi (Nat.not_lt_zero i)⟩, rfl⟩
    · obtain ⟨length, _, -, read⟩ := bind_ok_iff.1 read
      obtain ⟨_, _, -, read⟩ := bind_ok_iff.1 read
      obtain ⟨raw, _, -, read⟩ := bind_ok_iff.1 read
      cases decoded : Text.Utf8.decode raw with
      | error fault =>
        rw [decoded] at read
        cases read
      | ok found =>
        rw [decoded] at read
        cases (pure_ok_iff.1 read).1
  · rintro ⟨next, rfl⟩
    have passed : skip 1 c = .ok () (c.advance 1) := skip_ok_iff.2 ⟨next.length_le_remaining, rfl⟩
    simp only [serialString, bind_apply, peek_of_next next, if_pos, passed]
    rfl

def serialBytes (w : NumberWidth) : Option String → List UInt8
  | none => [0xFF]
  | some text => textBytes w text

/-- Numbers, signed numbers and texts are read back from every form they have, and the cursor stops
behind it. -/
theorem encodings_readBack :
    ReadsBack compressedNat (fun w n => n < w.limit) NumberWidth.bytes ∧
      ReadsBack compressedInt NumberWidth.FitsSigned NumberWidth.signedBytes ∧
      ReadsBack serialString (fun w text? => ∀ text ∈ text?, text.utf8ByteSize < w.limit)
        serialBytes := by
  refine ⟨fun c n d => ?_, fun c z d => ?_, fun c text? d => ?_⟩
  · simp only [compressedNat_ok_iff, NumberWidth.length_bytes]
  · simp only [compressedInt_ok_iff, NumberWidth.signedBytes, NumberWidth.length_bytes]
  · cases text? with
    | none =>
      rw [serialString_none_iff]
      exact ⟨fun h => ⟨.one, nofun, h⟩, fun ⟨_, _, h⟩ => h⟩
    | some text => simp [serialString_ok_iff, serialBytes]

example : NumberWidth.two.FitsSigned (-3) ∧ NumberWidth.two.signedBytes (-3) = [0xBF, 0xFB] ∧
    (run compressedInt ⟨#[0xBF, 0xFB, 7]⟩).toOption = some (-3) := by decide +kernel

end Read

end FrameworkAudit
