import FrameworkAudit.Proofs.Cursor.Bounds

/-!
The reads of a cursor whose position is a number of 64 bits. Each sum and each difference of positions
is checked there, and so is each place where a byte is taken: at one that does not fit the read halts, and
that is no outcome. For data whose size is a number of 64 bits no read halts, whatever has been done with
the cursor before, and it comes to what it comes to for positions without a limit.
-/

set_option autoImplicit false

namespace FrameworkAudit

open Bytes

variable {α β : Type}

structure CheckedCursor where
  data : ByteArray
  pos : UInt64

/-- A read that may halt. An error is an outcome, and it keeps the cursor. -/
abbrev CheckedRead (α : Type) := ExceptT Error (StateT CheckedCursor Option) α

namespace CheckedRead

def halt : CheckedRead α := fun _ => none

def size : CheckedRead UInt64 := return .ofNat (← get).data.size

def position : CheckedRead UInt64 := return (← get).pos

def moveTo (pos : UInt64) : CheckedRead Unit := modify ({ · with pos := pos })

/-- A sum that is no number of 64 bits comes out smaller than its terms. -/
def sum (m n : UInt64) : CheckedRead UInt64 := if m + n < m then halt else return m + n

def difference (m n : UInt64) : CheckedRead UInt64 := if m < n then halt else return m - n

def byteOf (raw : ByteArray) (i : Nat) : CheckedRead UInt8 :=
  if h : i < raw.size then return raw[i] else halt

def slice (start stop : UInt64) : CheckedRead ByteArray := do
  let data := (← get).data
  if start ≤ stop ∧ stop.toNat ≤ data.size then return data.extract start.toNat stop.toNat else halt

def remaining : CheckedRead UInt64 := do
  let size ← size
  let pos ← position
  if size < pos then return 0 else difference size pos

def hasMore : CheckedRead Bool := return (← position) < (← size)

def bearings : CheckedRead Cursor.Bearings :=
  return ⟨(← size).toNat, (← position).toNat, (← remaining).toNat, ← hasMore⟩

def skip (count : UInt64) : CheckedRead Unit := do
  if (← remaining) < count then throw .outOfBounds
  else moveTo (← sum (← position) count)

def peek : CheckedRead UInt8 := do
  let c ← get
  if ← hasMore then byteOf c.data c.pos.toNat else throw .outOfBounds

def word (width : UInt64) : CheckedRead Nat := do
  let start ← position
  let size ← size
  -- Here a sum that is no number of 64 bits is an error, as any other place past the end is.
  if start + width < start then throw .outOfBounds
  else if size < start + width then throw .outOfBounds
  else
    let raw ← slice start (start + width)
    moveTo (start + width)
    return raw.toList.foldr (fun b n => b.toNat + 256 * n) 0

def signedWord (width : UInt64) : CheckedRead Int := return signed width.toNat (← word width)

def bytes (count : UInt64) : CheckedRead ByteArray := do
  if (← remaining) < count then throw .outOfBounds
  else
    let start ← position
    let stop ← sum start count
    let raw ← slice start stop
    moveTo stop
    return raw

def compressedNat : CheckedRead Nat := do
  let first ← word 1
  if first < 0x80 then return first
  else if first < 0xC0 then return (first - 0x80) * 0x100 + (← word 1)
  else if first < 0xE0 then
    let tail ← bytes 3
    return (first - 0xC0) * 0x1000000 + (← byteOf tail 0).toNat * 0x10000 +
      (← byteOf tail 1).toNat * 0x100 + (← byteOf tail 2).toNat
  else throw (.malformed (.compressedNumber first))

def compressedInt : CheckedRead Int := do
  let start ← position
  let value ← compressedNat
  let taken ← difference (← position) start
  if value % 2 = 0 then return (value / 2 : Nat)
  else return (value / 2 : Nat) - Read.signedCount taken.toNat

def compressedToken : CheckedRead Token := do
  let value ← compressedNat
  match Read.tokenTable? (value % 4) with
  | some table => return ⟨UInt32.ofNat ((table.number * 0x1000000) ||| (value / 4))⟩
  | none => throw (.malformed (.compressedToken value))

def serialString : CheckedRead (Option String) := do
  if (← peek) = 0xFF then
    skip 1
    return none
  else
    let length := UInt64.ofNat (← compressedNat)
    let raw ← bytes length
    match Text.Utf8.decode raw with
    | .ok text => return some text
    | .error fault =>
      let start ← difference (← position) length
      throw (.malformed (.textAt start.toNat fault))

end CheckedRead

namespace Cursor

def toChecked (c : Cursor) : CheckedCursor := ⟨c.data, .ofNat c.pos⟩

/-- The data have a size of 64 bits, and the cursor stands within them. -/
structure Fits (c : Cursor) : Prop where
  size : c.data.size < UInt64.size
  pos : c.pos ≤ c.data.size

theorem Fits.onward {c d : Cursor} (h : c.Fits) (onward : c.Onward d) : d.Fits where
  size := onward.data_eq ▸ h.size
  pos := onward.pos_le_size h.pos

end Cursor

namespace CheckedRead

variable {checked : CheckedRead α} {read : Read α} {f : α → CheckedRead β} {k : α → Read β}
  {c : Cursor}

theorem bind_apply (checked : CheckedRead α) (f : α → CheckedRead β) (c : CheckedCursor) :
    (checked >>= f) c = (checked c).bind fun
      | (.ok a, d) => f a d
      | (.error e, d) => some (.error e, d) := by
  show (checked c).bind _ = _
  congr 1
  funext ⟨came, d⟩
  cases came <;> rfl

def ChecksAt (checked : CheckedRead α) (read : Read α) (c : Cursor) : Prop :=
  checked c.toChecked = some ((read.outcome c).map id Cursor.toChecked)

def Checks (checked : CheckedRead α) (read : Read α) : Prop :=
  ∀ c : Cursor, c.Fits → ChecksAt checked read c

theorem checks_pure (a : α) : Checks (pure a) (pure a) := fun _ _ => rfl

theorem checks_fail (defect : Defect) :
    Checks (throw (.malformed defect) : CheckedRead α) (Read.fail defect) := fun _ _ => rfl

theorem ChecksAt.bind (h : ChecksAt checked read c)
    (hk : ∀ a d, read.outcome c = (.ok a, d) → ChecksAt (f a) (k a) d) :
    ChecksAt (checked >>= f) (read >>= k) c := by
  unfold ChecksAt at h ⊢
  rw [bind_apply, h, Read.outcome_bind]
  cases came : read.outcome c with
  | mk result d =>
    cases result with
    | ok a => exact hk a d came
    | error e => rfl

/-- What follows a checked read is asked only for values that the read gives. -/
theorem Checks.bind (h : Checks checked read) (forward : Read.Forward read)
    (hk : ∀ a, (∃ c d, read c = .ok a d) → Checks (f a) (k a)) :
    Checks (checked >>= f) (read >>= k) := fun c fits =>
  (h c fits).bind fun a d came =>
    hk a ⟨c, d, Read.outcome_eq_ok_iff.1 came⟩ d (fits.onward (forward.ok came))

theorem ChecksAt.position {f : UInt64 → CheckedRead β} {k : Nat → Read β}
    (h : ChecksAt (f (.ofNat c.pos)) (k c.pos) c) : ChecksAt (position >>= f) (Read.position >>= k) c :=
  h

theorem Checks.ite {p : Prop} [Decidable p] {other : CheckedRead α} {read' : Read α}
    (h : Checks checked read) (h' : Checks other read') :
    Checks (if p then checked else other) (if p then read else read') := by
  split <;> assumption

theorem sum_of_lt {m n : UInt64} (h : m.toNat + n.toNat < UInt64.size) : sum m n = pure (m + n) := by
  have large : ¬ m + n < m := by
    rw [UInt64.lt_iff_toNat_lt, UInt64.toNat_add, Nat.mod_eq_of_lt h]
    omega
  rw [sum, if_neg large]

theorem difference_of_le {m n : UInt64} (h : n.toNat ≤ m.toNat) : difference m n = pure (m - n) := by
  have ordered : ¬ m < n := by
    rw [UInt64.lt_iff_toNat_lt]
    omega
  rw [difference, if_neg ordered]

theorem byteOf_of_lt {raw : ByteArray} {i : Nat} (h : i < raw.size) :
    byteOf raw i = pure (raw[i]?.getD 0) := by
  rw [byteOf, dif_pos h, getElem?_pos raw i h, Option.getD_some]

section

variable (fits : c.Fits)

include fits

theorem toNat_pos : (UInt64.ofNat c.pos).toNat = c.pos :=
  UInt64.toNat_ofNat_of_lt' (Nat.lt_of_le_of_lt fits.pos fits.size)

theorem toNat_size : (UInt64.ofNat c.data.size).toNat = c.data.size :=
  UInt64.toNat_ofNat_of_lt' fits.size

theorem toNat_remaining : (UInt64.ofNat c.remaining).toNat = c.remaining := by
  have small := fits.size
  unfold Cursor.remaining
  exact UInt64.toNat_ofNat_of_lt' (by omega)

theorem remaining_apply :
    remaining c.toChecked = some (.ok (.ofNat c.remaining), c.toChecked) := by
  have inside := fits.pos
  have ordered : ¬ UInt64.ofNat c.data.size < UInt64.ofNat c.pos := by
    rw [UInt64.lt_iff_toNat_lt, toNat_pos fits, toNat_size fits]
    omega
  have left : UInt64.ofNat c.data.size - UInt64.ofNat c.pos = UInt64.ofNat c.remaining :=
    (UInt64.ofNat_sub inside).symm
  have enough : (UInt64.ofNat c.pos).toNat ≤ (UInt64.ofNat c.data.size).toNat := by
    rwa [toNat_pos fits, toNat_size fits]
  show (if UInt64.ofNat c.data.size < UInt64.ofNat c.pos then pure 0
    else difference (.ofNat c.data.size) (.ofNat c.pos) : CheckedRead UInt64) c.toChecked = _
  rw [if_neg ordered, difference_of_le enough, left]
  rfl

theorem remaining_lt_iff {n : UInt64} : UInt64.ofNat c.remaining < n ↔ c.remaining < n.toNat := by
  rw [UInt64.lt_iff_toNat_lt, toNat_remaining fits]

theorem sum_pos {n : UInt64} (room : n.toNat ≤ c.remaining) :
    sum (.ofNat c.pos) n = pure (.ofNat c.pos + n) := by
  have small := fits.size
  have inside := fits.pos
  unfold Cursor.remaining at room
  refine sum_of_lt ?_
  rw [toNat_pos fits]
  omega

theorem toNat_stop {n : UInt64} (room : n.toNat ≤ c.remaining) :
    (UInt64.ofNat c.pos + n).toNat = c.pos + n.toNat := by
  have small := fits.size
  have inside := fits.pos
  unfold Cursor.remaining at room
  rw [UInt64.toNat_add, toNat_pos fits]
  exact Nat.mod_eq_of_lt (by unfold UInt64.size at small; omega)

theorem slice_apply {n : UInt64} (room : n.toNat ≤ c.remaining) :
    slice (.ofNat c.pos) (.ofNat c.pos + n) c.toChecked =
      some (.ok (c.data.extract c.pos (c.pos + n.toNat)), c.toChecked) := by
  have stop := toNat_stop fits room
  have inside := fits.pos
  have within : UInt64.ofNat c.pos ≤ UInt64.ofNat c.pos + n ∧
      (UInt64.ofNat c.pos + n).toNat ≤ c.data.size := by
    unfold Cursor.remaining at room
    rw [UInt64.le_iff_toNat_le, stop, toNat_pos fits]
    omega
  show (if UInt64.ofNat c.pos ≤ UInt64.ofNat c.pos + n ∧
      (UInt64.ofNat c.pos + n).toNat ≤ c.data.size then
    pure (c.data.extract (UInt64.ofNat c.pos).toNat (UInt64.ofNat c.pos + n).toNat)
    else halt : CheckedRead ByteArray) c.toChecked = _
  rw [if_pos within, stop, toNat_pos fits]
  rfl

end

theorem moveTo_apply (c : Cursor) (n : UInt64) :
    moveTo (.ofNat c.pos + n) c.toChecked = some (.ok (), (c.advance n.toNat).toChecked) := by
  simp only [Cursor.toChecked, Cursor.advance, UInt64.ofNat_add, UInt64.ofNat_toNat]
  rfl

theorem checks_skip (count : UInt64) : Checks (skip count) (Read.skip count.toNat) := by
  intro c fits
  have short := remaining_lt_iff (n := count) fits
  rw [ChecksAt, Read.skip_outcome, skip, bind_apply, remaining_apply fits]
  dsimp only [Option.bind_some]
  by_cases room : count.toNat ≤ c.remaining
  · rw [if_pos room, if_neg (by rw [short]; omega)]
    show (sum (.ofNat c.pos) count >>= moveTo) c.toChecked = _
    rw [sum_pos fits room, pure_bind, moveTo_apply]
    rfl
  · rw [if_neg room, if_pos (by rw [short]; omega)]
    rfl

theorem checks_bytes (count : UInt64) : Checks (bytes count) (Read.bytes count.toNat) := by
  intro c fits
  have short := remaining_lt_iff (n := count) fits
  rw [ChecksAt, Read.bytes_outcome, bytes, bind_apply, remaining_apply fits]
  dsimp only [Option.bind_some]
  by_cases room : count.toNat ≤ c.remaining
  · rw [if_pos room, if_neg (by rw [short]; omega)]
    show (sum (.ofNat c.pos) count >>= fun stop => slice (.ofNat c.pos) stop >>= fun raw =>
      moveTo stop >>= fun _ => pure raw) c.toChecked = _
    rw [sum_pos fits room, pure_bind, bind_apply, slice_apply fits room]
    dsimp only [Option.bind_some]
    rw [bind_apply, moveTo_apply]
    rfl
  · rw [if_neg room, if_pos (by rw [short]; omega)]
    rfl

theorem checks_peek : Checks peek Read.peek := by
  intro c fits
  have more : UInt64.ofNat c.pos < UInt64.ofNat c.data.size ↔ c.pos < c.data.size := by
    rw [UInt64.lt_iff_toNat_lt, toNat_pos fits, toNat_size fits]
  have place := toNat_pos fits
  show (if decide (UInt64.ofNat c.pos < UInt64.ofNat c.data.size) = true then
    byteOf c.data (UInt64.ofNat c.pos).toNat else throw .outOfBounds : CheckedRead UInt8)
      c.toChecked = _
  simp only [Read.peek_outcome, decide_eq_true_eq, place]
  by_cases inside : c.pos < c.data.size
  · rw [if_pos (more.2 inside), byteOf_of_lt inside, getElem?_pos c.data c.pos inside]
    rfl
  · rw [if_neg (by rwa [more]), getElem?_neg c.data c.pos inside]
    rfl

theorem littleEndian_of_next {raw : List UInt8} (h : c.Next raw) :
    littleEndian c.data c.pos raw.length = raw.foldr (fun b n => b.toNat + 256 * n) 0 := by
  induction raw generalizing c with
  | nil => rfl
  | cons b rest ih =>
    have behind : littleEndian c.data (c.pos + 1) rest.length = _ := ih h.tail
    rw [List.length_cons, littleEndian, h.byte, Option.getD_some, behind, List.foldr_cons]

theorem ChecksAt.word (width : UInt64) (small : c.data.size < UInt64.size) (held : c.pos < UInt64.size) :
    ChecksAt (word width) (Read.word width.toNat) c := by
  have widthSmall := width.toNat_lt
  have pos : (UInt64.ofNat c.pos).toNat = c.pos := UInt64.toNat_ofNat_of_lt' held
  have size : (UInt64.ofNat c.data.size).toNat = c.data.size := UInt64.toNat_ofNat_of_lt' small
  rw [ChecksAt, Read.word_outcome]
  show (if UInt64.ofNat c.pos + width < UInt64.ofNat c.pos then throw .outOfBounds
    else if UInt64.ofNat c.data.size < UInt64.ofNat c.pos + width then throw .outOfBounds
    else slice (.ofNat c.pos) (.ofNat c.pos + width) >>= fun raw =>
      moveTo (.ofNat c.pos + width) >>= fun _ =>
        pure (raw.toList.foldr (fun b n => b.toNat + 256 * n) 0) : CheckedRead Nat) c.toChecked = _
  by_cases enough : c.pos + width.toNat ≤ c.data.size
  · have fits : c.Fits := ⟨small, by omega⟩
    have room : width.toNat ≤ c.remaining := by
      unfold Cursor.remaining
      omega
    have stop := toNat_stop fits room
    have taken : (c.data.extract c.pos (c.pos + width.toNat)).toList.length = width.toNat := by
      rw [length_toList, ByteArray.size_extract]
      omega
    have value := littleEndian_of_next (Cursor.next_of_toList (c := c) (by rw [taken]))
    rw [taken] at value
    rw [if_pos enough, if_neg, if_neg, bind_apply, slice_apply fits room]
    · dsimp only [Option.bind_some]
      rw [bind_apply, moveTo_apply, value]
      rfl
    · rw [UInt64.lt_iff_toNat_lt, stop, size]
      omega
    · rw [UInt64.lt_iff_toNat_lt, stop, pos]
      omega
  · rw [if_neg enough]
    by_cases wraps : UInt64.ofNat c.pos + width < UInt64.ofNat c.pos
    · rw [if_pos wraps]
      rfl
    · have past : UInt64.ofNat c.data.size < UInt64.ofNat c.pos + width := by
        rw [UInt64.lt_iff_toNat_lt, UInt64.toNat_add, pos] at wraps
        rw [UInt64.lt_iff_toNat_lt, UInt64.toNat_add, pos, size]
        unfold UInt64.size at small held
        omega
      rw [if_neg wraps, if_pos past]
      rfl

theorem word_apply {data : ByteArray} (small : data.size < UInt64.size) (width offset : UInt64) :
    word width ⟨data, offset⟩ = some (if offset.toNat + width.toNat ≤ data.size then
      (.ok (littleEndian data offset.toNat width.toNat), ⟨data, offset + width⟩)
    else (.error .outOfBounds, ⟨data, offset⟩)) := by
  have read := ChecksAt.word (c := ⟨data, offset.toNat⟩) width small offset.toNat_lt
  simp only [ChecksAt, Read.word_outcome, Cursor.toChecked, UInt64.ofNat_toNat] at read
  rw [read]
  split
  · simp only [Prod.map, Cursor.toChecked, Cursor.advance, UInt64.ofNat_add, UInt64.ofNat_toNat, id]
  · simp only [Prod.map, Cursor.toChecked, UInt64.ofNat_toNat, id]

theorem checks_word (width : UInt64) : Checks (word width) (Read.word width.toNat) := fun _ fits =>
  .word width fits.size (Nat.lt_of_le_of_lt fits.pos fits.size)

theorem checks_signedWord (width : UInt64) :
    Checks (signedWord width) (Read.signedWord width.toNat) :=
  (checks_word width).bind (Read.forward_word _) fun _ _ => checks_pure _

theorem checks_compressedNat : Checks compressedNat Read.compressedNat := by
  refine (checks_word 1).bind (Read.forward_word 1) fun first _ => .ite (checks_pure _)
    (.ite ?_ (.ite ?_ (checks_fail _)))
  · exact (checks_word 1).bind (Read.forward_word 1) fun second _ => checks_pure _
  · refine (checks_bytes 3).bind (Read.forward_bytes 3) fun tail took => ?_
    have size : tail.size = 3 := by
      obtain ⟨c, d, read⟩ := took
      obtain ⟨room, rfl, -⟩ := Read.bytes_ok_iff.1 read
      have three : (3 : UInt64).toNat = 3 := rfl
      rw [ByteArray.size_extract]
      unfold Cursor.remaining at room
      omega
    rw [byteOf_of_lt (by omega), byteOf_of_lt (by omega), byteOf_of_lt (by omega)]
    exact checks_pure _

theorem checks_compressedToken : Checks compressedToken Read.compressedToken := by
  refine checks_compressedNat.bind Read.forward_compressedNat fun value _ => ?_
  cases Read.tokenTable? (value % 4) with
  | some table => exact checks_pure _
  | none => exact checks_fail _

theorem checks_compressedInt : Checks compressedInt Read.compressedInt := by
  intro c fits
  refine .position ((checks_compressedNat c fits).bind fun n d came => .position ?_)
  have onward := Read.forward_compressedNat.ok came
  have behind := fits.onward onward
  have ordered : UInt64.ofNat c.pos ≤ UInt64.ofNat d.pos := by
    rw [UInt64.le_iff_toNat_le, toNat_pos fits, toNat_pos behind]
    exact onward.pos_le
  have taken : (UInt64.ofNat d.pos - UInt64.ofNat c.pos).toNat = d.pos - c.pos := by
    rw [UInt64.toNat_sub_of_le _ _ ordered, toNat_pos fits, toNat_pos behind]
  rw [difference_of_le (UInt64.le_iff_toNat_le.1 ordered), pure_bind, taken]
  exact Checks.ite (checks_pure _) (checks_pure _) d behind

theorem checks_serialString : Checks serialString Read.serialString := by
  refine checks_peek.bind Read.forward_peek fun first _ => .ite ?_ ?_
  · exact (checks_skip 1).bind (Read.forward_skip 1) fun _ _ => checks_pure _
  · refine checks_compressedNat.bind Read.forward_compressedNat fun length took => ?_
    have word : (UInt64.ofNat length).toNat = length := by
      obtain ⟨c, d, read⟩ := took
      obtain ⟨w, small, -⟩ := Read.compressedNat_ok_iff.1 read
      refine UInt64.toNat_ofNat_of_lt' (Nat.lt_trans small ?_)
      cases w <;> decide
    intro c fits
    have bytes := checks_bytes (.ofNat length) c fits
    rw [word] at bytes
    refine bytes.bind (k := fun raw => match Text.Utf8.decode raw with
      | .ok text => pure (some text)
      | .error fault => Read.fail (.textAt c.pos fault)) fun raw d came => ?_
    cases Text.Utf8.decode raw with
    | ok text => rfl
    | error fault =>
      obtain ⟨room, -, rfl⟩ := Read.bytes_ok_iff.1 (Read.outcome_eq_ok_iff.1 came)
      have place : UInt64.ofNat (c.pos + length) - UInt64.ofNat length = UInt64.ofNat c.pos := by
        rw [UInt64.ofNat_add, UInt64.add_sub_cancel]
      have ordered : (UInt64.ofNat length).toNat ≤ (UInt64.ofNat (c.pos + length)).toNat := by
        rw [word, UInt64.ofNat_add, toNat_stop fits (by rwa [word]), word]
        exact Nat.le_add_left length c.pos
      show ChecksAt (difference (.ofNat (c.pos + length)) (.ofNat length) >>= fun start =>
        throw (.malformed (.textAt start.toNat fault))) (Read.fail (.textAt c.pos fault)) _
      rw [difference_of_le ordered, pure_bind, place, toNat_pos fits]
      rfl

theorem checks_bearings : Checks bearings Cursor.Operation.bearings.read := by
  intro c fits
  have more : UInt64.ofNat c.pos < UInt64.ofNat c.data.size ↔ c.pos < c.data.size := by
    rw [UInt64.lt_iff_toNat_lt, toNat_pos fits, toNat_size fits]
  show (remaining >>= fun left => hasMore >>= fun more => pure ⟨(UInt64.ofNat c.data.size).toNat,
    (UInt64.ofNat c.pos).toNat, left.toNat, more⟩ : CheckedRead Cursor.Bearings) c.toChecked = _
  rw [bind_apply, remaining_apply fits, toNat_size fits, toNat_pos fits]
  show some (Except.ok (Cursor.Bearings.mk c.data.size c.pos (UInt64.ofNat c.remaining).toNat
    (decide (UInt64.ofNat c.pos < UInt64.ofNat c.data.size))), c.toChecked) = _
  rw [toNat_remaining fits, decide_eq_decide.2 more]
  rfl

end CheckedRead

namespace Cursor

def Operation.checked : (o : Operation) → CheckedRead o.Answer
  | bearings => CheckedRead.bearings
  | skip count => CheckedRead.skip count
  | peek => CheckedRead.peek
  | word width => CheckedRead.word width
  | signedWord width => CheckedRead.signedWord width
  | bytes count => CheckedRead.bytes count
  | compressedNat => CheckedRead.compressedNat
  | compressedInt => CheckedRead.compressedInt
  | compressedToken => CheckedRead.compressedToken
  | serialString => CheckedRead.serialString

theorem Operation.checks_read (o : Operation) : CheckedRead.Checks o.checked o.read := by
  cases o with
  | bearings => exact CheckedRead.checks_bearings
  | skip count => exact CheckedRead.checks_skip count
  | peek => exact CheckedRead.checks_peek
  | word width => exact CheckedRead.checks_word width
  | signedWord width => exact CheckedRead.checks_signedWord width
  | bytes count => exact CheckedRead.checks_bytes count
  | compressedNat => exact CheckedRead.checks_compressedNat
  | compressedInt => exact CheckedRead.checks_compressedInt
  | compressedToken => exact CheckedRead.checks_compressedToken
  | serialString => exact CheckedRead.checks_serialString

end Cursor

def CheckedCursor.after? (c : CheckedCursor) (os : List Cursor.Operation) : Option CheckedCursor :=
  os.foldlM (fun c o => (·.2) <$> o.checked c) c

namespace Cursor

open Operation

theorem after?_toChecked {c : Cursor} (fits : c.Fits) (os : List Operation) :
    c.toChecked.after? os = some (c.after os).toChecked := by
  induction os generalizing c with
  | nil => rfl
  | cons o os ih =>
    have first : (·.2) <$> o.checked c.toChecked = some (o.read.outcome c).2.toChecked := by
      rw [o.checks_read c fits]
      rfl
    have rest := ih (fits.onward (o.forward_read c))
    rw [CheckedCursor.after?, List.foldlM_cons, first]
    exact rest

/-- Wherever operations have taken a cursor from the start of some data, failed ones included, the next
one takes it forward and not past the end. One that passes over a number of bytes at once does so for all
of them or fails and does nothing, and a text that is no UTF-8 is reported at the first of its bytes.
Where the size of the data is a number of 64 bits, no sum and no difference of positions leaves 64 bits,
and no byte is taken outside of the data; for a number this holds at any offset, past the end too. -/
theorem operations_within (data : ByteArray) (done : List Operation) (next : Operation) :
    let c := (ofBytes data).after done
    let d := c.after [next]
    (c.data = data ∧ c.pos ≤ d.pos ∧ d.pos ≤ data.size ∧ c.pos + c.remaining = data.size) ∧
      (∀ n ∈ next.step?, if n ≤ c.remaining then ∃ a, next.read.outcome c = (.ok a, c.advance n)
        else next.read.outcome c = (.error .outOfBounds, c)) ∧
      (∀ offset fault stop, Read.serialString c = .error (.malformed (.textAt offset fault)) stop ↔
        ∃ (w : NumberWidth) (raw : ByteArray), raw.size < w.limit ∧
          c.Next (w.bytes raw.size ++ raw.toList) ∧ Text.Utf8.decode raw = .error fault ∧
            offset = c.pos + w.size ∧ stop = ⟨data, offset + raw.size⟩) ∧
      (data.size < UInt64.size →
        (CheckedCursor.mk data 0).after? done = some c.toChecked ∧
          next.checked c.toChecked = some ((next.read.outcome c).map id toChecked) ∧
            ∀ width offset : UInt64, CheckedRead.word width ⟨data, offset⟩ =
              some (if offset.toNat + width.toNat ≤ data.size then
                (.ok (littleEndian data offset.toNat width.toNat), ⟨data, offset + width⟩)
              else (.error .outOfBounds, ⟨data, offset⟩))) := by
  intro c d
  have onward : (ofBytes data).Onward c := onward_after _ done
  have further : c.Onward d := onward_after c [next]
  have same : c.data = data := onward.data_eq
  have inside : c.pos ≤ c.data.size := onward.pos_le_size (Nat.zero_le _)
  have whole : c.pos + c.remaining = c.data.size := Nat.add_sub_cancel' inside
  refine ⟨⟨same, further.pos_le, ?_, same ▸ whole⟩, fun n hn => step_outcome hn inside, ?_,
    fun small => ?_⟩
  · exact same ▸ further.data_eq ▸ further.pos_le_size inside
  · intro offset fault stop
    rw [Read.serialString_textAt_iff, same]
  · have start : (ofBytes data).Fits := ⟨small, Nat.zero_le _⟩
    exact ⟨after?_toChecked start done, next.checks_read c (start.onward onward),
      CheckedRead.word_apply small⟩

/-- A lead that no number has, and a text of two bytes that are no UTF-8, its length in two bytes. -/
def badText : ByteArray := ⟨#[0xE0, 0x80, 0x02, 0xC3, 0x28]⟩

/-- Operations that all fail; the second one is past the lead then. -/
def refused : List Operation := [.skip 0xFFFFFFFFFFFFFFFF, .compressedNat, .bytes 5]

theorem operations_within_badText : badText.size < UInt64.size ∧
    (ofBytes badText).after refused = ⟨badText, 1⟩ ∧
    (.skip 0xFFFFFFFFFFFFFFFF : Operation).step? = some 0xFFFFFFFFFFFFFFFF ∧
    (Operation.skip 0xFFFFFFFFFFFFFFFF).read.outcome ⟨badText, 1⟩ =
      (.error .outOfBounds, ⟨badText, 1⟩) ∧
    Read.serialString ⟨badText, 1⟩ =
      .error (.malformed (.textAt 3 (.invalid 1 0))) ⟨badText, 5⟩ ∧
    (CheckedCursor.mk badText 0).after? refused = some ⟨badText, 1⟩ ∧
    Operation.serialString.checked ⟨badText, 1⟩ =
      some (.error (.malformed (.textAt 3 (.invalid 1 0))), ⟨badText, 5⟩) ∧
    CheckedRead.word 2 ⟨badText, 0xFFFFFFFFFFFFFFFF⟩ =
      some (.error .outOfBounds, ⟨badText, 0xFFFFFFFFFFFFFFFF⟩) := by
  have small : badText.size < UInt64.size := by decide
  have place : (ofBytes badText).after refused = ⟨badText, 1⟩ := rfl
  have skipped := (operations_within badText refused (.skip 0xFFFFFFFFFFFFFFFF)).2.1 _ rfl
  obtain ⟨-, -, texts, fits⟩ := operations_within badText refused .serialString
  obtain ⟨after, checked, words⟩ := fits small
  rw [place] at skipped texts after checked
  have refusedText : Read.serialString ⟨badText, 1⟩ =
      .error (.malformed (.textAt 3 (.invalid 1 0))) ⟨badText, 5⟩ := by
    refine (texts _ _ _).2 ⟨.two, ⟨#[0xC3, 0x28]⟩, by decide, ?_, by cbv, rfl, rfl⟩
    rw [toList_mk]
    show ∀ i, i < 4 → badText[1 + i]? = [0x80, 0x02, 0xC3, 0x28][i]?
    decide
  have outcome : Operation.serialString.read.outcome ⟨badText, 1⟩ =
      (.error (.malformed (.textAt 3 (.invalid 1 0))), ⟨badText, 5⟩) :=
    Read.outcome_eq_error_iff.2 refusedText
  rw [outcome] at checked
  exact ⟨small, place, rfl, skipped, refusedText, after, checked, words 2 0xFFFFFFFFFFFFFFFF⟩

end Cursor

end FrameworkAudit
