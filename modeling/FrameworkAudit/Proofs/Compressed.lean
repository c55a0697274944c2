import FrameworkAudit.Proofs.Cursor

/-!
Writing compressed numbers. A number is written in one, two or four bytes, and a signed number is
first turned into an unsigned one of the same width, its sign in the lowest bit. What was written in
any width that has room for the number is read back, and the cursor stops behind it; a number is read
from nothing else.
-/

set_option autoImplicit false

namespace FrameworkAudit

open Bytes

inductive NumberWidth where
  | one | two | four
  deriving DecidableEq, Repr

namespace NumberWidth

def size : NumberWidth → Nat
  | one => 1
  | two => 2
  | four => 4

def limit : NumberWidth → Nat
  | one => 0x80
  | two => 0x4000
  | four => 0x20000000

/-- The width has room for the signed numbers below this one and for as many negative ones. -/
def signedLimit : NumberWidth → Nat
  | one => 0x40
  | two => 0x2000
  | four => 0x10000000

/-- The bytes of a number, the highest first; the first of them also says how many there are. -/
def bytes : NumberWidth → Nat → List UInt8
  | one, n => [UInt8.ofNat n]
  | two, n => [UInt8.ofNat (0x80 + n / 0x100), UInt8.ofNat n]
  | four, n =>
    [UInt8.ofNat (0xC0 + n / 0x1000000), UInt8.ofNat (n / 0x10000), UInt8.ofNat (n / 0x100),
     UInt8.ofNat n]

/-- The number that stands for a signed one: its sign is moved into the lowest bit. -/
def rotate (w : NumberWidth) (n : Int) : Nat :=
  if 0 ≤ n then 2 * n.toNat else 2 * (n + w.signedLimit).toNat + 1

def least (n : Nat) : NumberWidth :=
  if n < one.limit then one else if n < two.limit then two else four

def leastSigned (n : Int) : NumberWidth :=
  if -one.signedLimit ≤ n ∧ n < one.signedLimit then one
  else if -two.signedLimit ≤ n ∧ n < two.signedLimit then two
  else four

variable {w : NumberWidth} {n : Nat} {z : Int}

@[simp] theorem length_bytes (w : NumberWidth) (n : Nat) : (w.bytes n).length = w.size := by
  cases w <;> rfl

theorem lt_limit_least (h : n < four.limit) : n < (least n).limit := by
  unfold least
  split
  · assumption
  · split <;> assumption

theorem signedLimit_leastSigned (h : -four.signedLimit ≤ z ∧ z < four.signedLimit) :
    -(leastSigned z).signedLimit ≤ z ∧ z < (leastSigned z).signedLimit := by
  unfold leastSigned
  split
  · assumption
  · split <;> assumption

theorem rotate_lt_limit (h : -w.signedLimit ≤ z ∧ z < w.signedLimit) : w.rotate z < w.limit := by
  unfold rotate
  cases w <;> simp only [signedLimit, limit] at h ⊢ <;> split <;> omega

end NumberWidth

def numberBytes (n : Nat) : List UInt8 := (NumberWidth.least n).bytes n

def signedBytes (n : Int) : List UInt8 :=
  (NumberWidth.leastSigned n).bytes ((NumberWidth.leastSigned n).rotate n)

namespace Read

variable {c d : Cursor} {w : NumberWidth} {n : Nat} {z : Int}

theorem compressedNat_of_next (h : n < w.limit) (next : c.Next (w.bytes n)) :
    compressedNat c = .ok n (c.advance w.size) := by
  cases w with
  | one =>
    simp only [NumberWidth.limit] at h
    have first : (UInt8.ofNat n).toNat = n := by rw [UInt8.toNat_ofNat']; omega
    simp only [compressedNat, bind_apply, word_of_next next, first, if_pos h]
    rfl
  | two =>
    simp only [NumberWidth.limit] at h
    have first : (UInt8.ofNat (0x80 + n / 0x100)).toNat = 0x80 + n / 0x100 := by
      rw [UInt8.toNat_ofNat']
      omega
    have large : ¬ 0x80 + n / 0x100 < 0x80 := by omega
    have small : 0x80 + n / 0x100 < 0xC0 := by omega
    simp only [compressedNat, bind_apply, word_of_next next, first, if_neg large, if_pos small,
      word_of_next next.tail]
    have value : (0x80 + n / 0x100 - 0x80) * 0x100 + (UInt8.ofNat n).toNat = n := by
      rw [UInt8.toNat_ofNat']
      omega
    rw [value]
    rfl
  | four =>
    simp only [NumberWidth.limit] at h
    have first : (UInt8.ofNat (0xC0 + n / 0x1000000)).toNat = 0xC0 + n / 0x1000000 := by
      rw [UInt8.toNat_ofNat']
      omega
    have notOne : ¬ 0xC0 + n / 0x1000000 < 0x80 := by omega
    have notTwo : ¬ 0xC0 + n / 0x1000000 < 0xC0 := by omega
    have small : 0xC0 + n / 0x1000000 < 0xE0 := by omega
    have rest := bytes_of_next next.tail
    simp only [List.length_cons, List.length_nil, Nat.zero_add, Nat.reduceAdd] at rest
    simp only [compressedNat, bind_apply, word_of_next next, first, if_neg notOne, if_neg notTwo,
      if_pos small, rest]
    have value : (0xC0 + n / 0x1000000 - 0xC0) * 0x1000000 +
        (UInt8.ofNat (n / 0x10000)).toNat * 0x10000 + (UInt8.ofNat (n / 0x100)).toNat * 0x100 +
          (UInt8.ofNat n).toNat = n := by
      simp only [UInt8.toNat_ofNat']
      omega
    exact congrArg (EStateM.Result.ok · _) value

theorem next_of_compressedNat (h : compressedNat c = .ok n d) :
    ∃ w : NumberWidth, n < w.limit ∧ c.Next (w.bytes n) ∧ d = c.advance w.size := by
  obtain ⟨first, _, hf, h⟩ := bind_ok_iff.1 h
  obtain ⟨b, byte, rfl, rfl⟩ := byte_ok_iff.1 hf
  have nothing (c : Cursor) : c.Next [] := fun i hi => absurd hi (Nat.not_lt_zero i)
  have small := b.toNat_lt
  split at h
  · obtain ⟨rfl, rfl⟩ := pure_ok_iff.1 h
    exact ⟨.one, by assumption, Cursor.next_cons_iff.2 ⟨by rw [byte, UInt8.ofNat_toNat], nothing _⟩, rfl⟩
  split at h
  · obtain ⟨last, _, hl, h⟩ := bind_ok_iff.1 h
    obtain ⟨z, atZ, rfl, rfl⟩ := byte_ok_iff.1 hl
    obtain ⟨rfl, rfl⟩ := pure_ok_iff.1 h
    have smallZ := z.toNat_lt
    generalize hn : (b.toNat - 0x80) * 0x100 + z.toNat = n
    have bytes : NumberWidth.two.bytes n = [b, z] := by
      simp only [NumberWidth.bytes, List.cons.injEq, ← UInt8.toNat_inj, UInt8.toNat_ofNat', and_true]
      omega
    refine ⟨.two, by simp only [NumberWidth.limit]; omega, ?_, rfl⟩
    rw [bytes]
    exact Cursor.next_cons_iff.2 ⟨byte, Cursor.next_cons_iff.2 ⟨atZ, nothing _⟩⟩
  split at h
  · obtain ⟨tail, _, ht, h⟩ := bind_ok_iff.1 h
    obtain ⟨room, rfl, rfl⟩ := bytes_ok_iff.1 ht
    simp only [Cursor.remaining, Cursor.advance] at room
    have byteAt (i : Nat) (hi : i < 3) : ∃ b, c.data[c.pos + 1 + i]? = some b ∧
        ((c.advance 1).data.extract (c.advance 1).pos ((c.advance 1).pos + 3))[i]? = some b := by
      refine ⟨_, getElem?_pos c.data (c.pos + 1 + i) (by omega), ?_⟩
      rw [getElem?_extract, if_pos (by omega)]
      exact getElem?_pos c.data (c.pos + 1 + i) (by omega)
    obtain ⟨x, atX, readX⟩ := byteAt 0 (by omega)
    obtain ⟨y, atY, readY⟩ := byteAt 1 (by omega)
    obtain ⟨z, atZ, readZ⟩ := byteAt 2 (by omega)
    rw [readX, readY, readZ] at h
    simp only [Option.getD_some] at h
    obtain ⟨rfl, rfl⟩ := pure_ok_iff.1 h
    have smallX := x.toNat_lt
    have smallY := y.toNat_lt
    have smallZ := z.toNat_lt
    generalize hn : (b.toNat - 0xC0) * 0x1000000 + x.toNat * 0x10000 + y.toNat * 0x100 + z.toNat = n
    have bytes : NumberWidth.four.bytes n = [b, x, y, z] := by
      simp only [NumberWidth.bytes, List.cons.injEq, ← UInt8.toNat_inj, UInt8.toNat_ofNat', and_true]
      omega
    refine ⟨.four, by simp only [NumberWidth.limit]; omega, ?_, rfl⟩
    rw [bytes]
    exact Cursor.next_cons_iff.2 ⟨byte, Cursor.next_cons_iff.2 ⟨atX, Cursor.next_cons_iff.2 ⟨atY,
      Cursor.next_cons_iff.2 ⟨atZ, nothing _⟩⟩⟩⟩
  · cases h

theorem compressedNat_ok_iff :
    compressedNat c = .ok n d ↔
      ∃ w : NumberWidth, n < w.limit ∧ c.Next (w.bytes n) ∧ d = c.advance w.size := by
  constructor
  · exact next_of_compressedNat
  · rintro ⟨w, fits, next, rfl⟩
    exact compressedNat_of_next fits next

theorem compressedInt_of_next (h : -w.signedLimit ≤ z ∧ z < w.signedLimit)
    (next : c.Next (w.bytes (w.rotate z))) : compressedInt c = .ok z (c.advance w.size) := by
  have read := compressedNat_of_next (NumberWidth.rotate_lt_limit h) next
  have width : (c.advance w.size).pos - c.pos = w.size := Nat.add_sub_cancel_left _ _
  have count : signedCount w.size = w.signedLimit := by cases w <;> rfl
  simp only [compressedInt, bind_apply, position, read, width, count]
  unfold NumberWidth.rotate
  split
  · have even : 2 * z.toNat % 2 = 0 := by omega
    have half : 2 * z.toNat / 2 = z.toNat := by omega
    rw [if_pos even, half, Int.toNat_of_nonneg ‹_›]
    rfl
  · have odd : ¬ (2 * (z + w.signedLimit).toNat + 1) % 2 = 0 := by omega
    have half : (2 * (z + w.signedLimit).toNat + 1) / 2 = (z + w.signedLimit).toNat := by omega
    have sign : ((z + w.signedLimit).toNat : Int) - w.signedLimit = z := by omega
    rw [if_neg odd, half, sign]
    rfl

theorem compressedNat_of_numberBytes (h : n < NumberWidth.four.limit)
    (next : c.Next (numberBytes n)) :
    compressedNat c = .ok n (c.advance (numberBytes n).length) := by
  rw [compressedNat_of_next (NumberWidth.lt_limit_least h) next, numberBytes,
    NumberWidth.length_bytes]

theorem compressedInt_of_signedBytes
    (h : -NumberWidth.four.signedLimit ≤ z ∧ z < NumberWidth.four.signedLimit)
    (next : c.Next (signedBytes z)) :
    compressedInt c = .ok z (c.advance (signedBytes z).length) := by
  rw [compressedInt_of_next (NumberWidth.signedLimit_leastSigned h) next, signedBytes,
    NumberWidth.length_bytes]

example : signedBytes (-3) = [0x7B] ∧ signedBytes (-8192) = [0x80, 0x01] := by decide

end Read

end FrameworkAudit
