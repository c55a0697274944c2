import FrameworkAudit.Proofs.Encoding

/-!
Where a cursor comes to, whatever is done with it and however that ends. It goes forward in the same
data and not past their end, also where a read fails halfway. An operation that passes over a number of
bytes at once passes over all of them or stays where it is, and a text that is no UTF-8 is reported at
its first byte.
-/

set_option autoImplicit false

namespace FrameworkAudit

open Bytes

variable {α β : Type}

namespace Cursor

variable {c d e : Cursor}

/-- One cursor stands where the other can come to: some of the bytes that were left lie between them. -/
def Onward (c d : Cursor) : Prop := ∃ passed, passed ≤ c.remaining ∧ d = c.advance passed

theorem onward_refl (c : Cursor) : c.Onward c := ⟨0, Nat.zero_le _, rfl⟩

theorem remaining_advance (c : Cursor) (n : Nat) : (c.advance n).remaining = c.remaining - n := by
  simp only [remaining, advance]
  omega

theorem Onward.trans (h : c.Onward d) (h' : d.Onward e) : c.Onward e := by
  obtain ⟨m, enough, rfl⟩ := h
  obtain ⟨n, more, rfl⟩ := h'
  rw [remaining_advance] at more
  exact ⟨m + n, by omega, advance_advance c m n⟩

theorem Onward.data_eq (h : c.Onward d) : d.data = c.data := by
  obtain ⟨_, -, rfl⟩ := h
  rfl

theorem Onward.pos_le (h : c.Onward d) : c.pos ≤ d.pos := by
  obtain ⟨n, -, rfl⟩ := h
  exact Nat.le_add_right c.pos n

theorem Onward.pos_le_size (h : c.Onward d) (inside : c.pos ≤ c.data.size) :
    d.pos ≤ d.data.size := by
  obtain ⟨n, enough, rfl⟩ := h
  simp only [remaining, advance] at enough ⊢
  omega

structure Bearings where
  size : Nat
  pos : Nat
  remaining : Nat
  hasMore : Bool
  deriving DecidableEq, Repr

def bearings (c : Cursor) : Bearings := ⟨c.data.size, c.pos, c.remaining, c.hasMore⟩

/-- What is done with a cursor. Counts and widths are any numbers of 64 bits. -/
inductive Operation where
  | bearings
  | skip (count : UInt64)
  | peek
  | word (width : UInt64)
  | signedWord (width : UInt64)
  | bytes (count : UInt64)
  | compressedNat
  | compressedInt
  | compressedToken
  | serialString
  deriving DecidableEq, Repr

namespace Operation

abbrev Answer : Operation → Type
  | bearings => Bearings
  | skip _ => Unit
  | peek => UInt8
  | word _ | compressedNat => Nat
  | signedWord _ | compressedInt => Int
  | bytes _ => ByteArray
  | compressedToken => Token
  | serialString => Option String

def read : (o : Operation) → Read o.Answer
  | bearings => fun c => .ok c.bearings c
  | skip count => Read.skip count.toNat
  | peek => Read.peek
  | word width => Read.word width.toNat
  | signedWord width => Read.signedWord width.toNat
  | bytes count => Read.bytes count.toNat
  | compressedNat => Read.compressedNat
  | compressedInt => Read.compressedInt
  | compressedToken => Read.compressedToken
  | serialString => Read.serialString

/-- How many bytes an operation passes over, where it passes over a number of them at once. -/
def step? : Operation → Option Nat
  | skip count | bytes count => some count.toNat
  | word width | signedWord width => some width.toNat
  | bearings | peek | compressedNat | compressedInt | compressedToken | serialString => none

end Operation

end Cursor

namespace Read

variable {c d : Cursor} {read : Read α} {k : α → Read β} {a : α} {e : Error}

def outcome (read : Read α) (c : Cursor) : Except Error α × Cursor :=
  match read c with
  | .ok a d => (.ok a, d)
  | .error e d => (.error e, d)

theorem outcome_eq_ok_iff : read.outcome c = (.ok a, d) ↔ read c = .ok a d := by
  unfold outcome
  cases read c <;> simp

theorem outcome_eq_error_iff : read.outcome c = (.error e, d) ↔ read c = .error e d := by
  unfold outcome
  cases read c <;> simp

theorem outcome_bind (read : Read α) (k : α → Read β) (c : Cursor) :
    (read >>= k).outcome c = match read.outcome c with
      | (.ok a, d) => (k a).outcome d
      | (.error e, d) => (.error e, d) := by
  unfold outcome
  rw [bind_apply]
  cases read c <;> rfl

def Forward (read : Read α) : Prop := ∀ c : Cursor, c.Onward (read.outcome c).2

theorem Forward.ok (h : Forward read) (came : read.outcome c = (.ok a, d)) : c.Onward d := by
  have onward := h c
  rwa [came] at onward

theorem forward_pure (a : α) : Forward (pure a) := fun c => c.onward_refl

theorem forward_fail (defect : Defect) : Forward (fail defect : Read α) := fun c => c.onward_refl

theorem Forward.bind (h : Forward read) (hk : ∀ a, Forward (k a)) : Forward (read >>= k) := by
  intro c
  have first := h c
  rw [outcome_bind]
  split
  · rename_i a d came
    rw [came] at first
    exact first.trans (hk a d)
  · rename_i e d came
    rwa [came] at first

theorem Forward.ite {p : Prop} [Decidable p] {other : Read α} (h : Forward read)
    (h' : Forward other) : Forward (if p then read else other) := by
  split <;> assumption

theorem forward_position : Forward position := fun c => c.onward_refl

theorem skip_outcome (count : Nat) (c : Cursor) : (skip count).outcome c =
    if count ≤ c.remaining then (.ok (), c.advance count) else (.error .outOfBounds, c) := by
  unfold outcome skip
  by_cases room : count ≤ c.remaining
  · simp only [if_pos room]
    rfl
  · simp only [if_neg room]

theorem bytes_outcome (count : Nat) (c : Cursor) : (Read.bytes count).outcome c =
    if count ≤ c.remaining then (.ok (c.data.extract c.pos (c.pos + count)), c.advance count)
    else (.error .outOfBounds, c) := by
  unfold outcome Read.bytes
  by_cases room : count ≤ c.remaining
  · simp only [if_pos room]
    rfl
  · simp only [if_neg room]

theorem word_outcome (width : Nat) (c : Cursor) : (word width).outcome c =
    if c.pos + width ≤ c.data.size then (.ok (littleEndian c.data c.pos width), c.advance width)
    else (.error .outOfBounds, c) := by
  split
  · exact outcome_eq_ok_iff.2 (word_of_room ‹_›)
  · exact outcome_eq_error_iff.2 (word_of_short (by omega))

theorem peek_outcome (c : Cursor) : peek.outcome c =
    (match c.data[c.pos]? with
      | some b => .ok b
      | none => .error .outOfBounds, c) := by
  unfold outcome peek
  cases c.data[c.pos]? <;> rfl

theorem forward_skip (count : Nat) : Forward (skip count) := by
  intro c
  rw [skip_outcome]
  split
  · exact ⟨count, ‹_›, rfl⟩
  · exact c.onward_refl

theorem forward_bytes (count : Nat) : Forward (Read.bytes count) := by
  intro c
  rw [bytes_outcome]
  split
  · exact ⟨count, ‹_›, rfl⟩
  · exact c.onward_refl

theorem forward_word (width : Nat) : Forward (word width) := by
  intro c
  rw [word_outcome]
  split
  · exact ⟨width, by unfold Cursor.remaining; omega, rfl⟩
  · exact c.onward_refl

theorem forward_peek : Forward peek := by
  intro c
  rw [peek_outcome]
  exact c.onward_refl

theorem forward_compressedNat : Forward compressedNat := by
  refine (forward_word 1).bind fun first => .ite (forward_pure _) (.ite ?_ (.ite ?_ (forward_fail _)))
  · exact (forward_word 1).bind fun second => forward_pure _
  · exact (forward_bytes 3).bind fun tail => forward_pure _

theorem forward_compressedInt : Forward compressedInt := by
  refine forward_position.bind fun start => forward_compressedNat.bind fun n => ?_
  exact forward_position.bind fun stop => .ite (forward_pure _) (forward_pure _)

theorem forward_compressedToken : Forward compressedToken := by
  refine forward_compressedNat.bind fun n => ?_
  split
  · exact forward_pure _
  · exact forward_fail _

theorem forward_serialString : Forward serialString := by
  refine forward_peek.bind fun first => .ite ?_ ?_
  · exact (forward_skip 1).bind fun _ => forward_pure _
  · refine forward_compressedNat.bind fun length => forward_position.bind fun start => ?_
    refine (forward_bytes length).bind fun raw => ?_
    split
    · exact forward_pure _
    · exact forward_fail _

theorem bind_error_iff {e : Error} : (read >>= k) c = .error e d ↔
    read c = .error e d ∨ ∃ a middle, read c = .ok a middle ∧ k a middle = .error e d := by
  rw [bind_apply]
  cases read c <;> simp [and_assoc]

theorem bytes_error {count : Nat} (h : Read.bytes count c = .error e d) : e = .outOfBounds := by
  unfold Read.bytes at h
  split at h
  · cases h
  · cases h
    rfl

theorem compressedNat_error (h : compressedNat c = .error e d) :
    e = .outOfBounds ∨ ∃ first, e = .malformed (.compressedNumber first) := by
  rcases bind_error_iff.1 h with short | ⟨first, _, -, h⟩
  · exact .inl (word_error short).1
  split at h
  · cases h
  split at h
  · rcases bind_error_iff.1 h with short | ⟨_, _, -, h⟩
    · exact .inl (word_error short).1
    · cases h
  split at h
  · rcases bind_error_iff.1 h with short | ⟨_, _, -, h⟩
    · exact .inl (bytes_error short)
    · cases h
  · cases h
    exact .inr ⟨first, rfl⟩

theorem peek_error (h : peek c = .error e d) : e = .outOfBounds := by
  unfold peek at h
  split at h
  · cases h
  · cases h
    rfl

/-- A text is refused for its bytes where these are no UTF-8; what is said then is the place of the
first of them, behind the length. -/
theorem serialString_textAt_iff {offset : Nat} {fault : Text.Utf8.Fault} :
    serialString c = .error (.malformed (.textAt offset fault)) d ↔
      ∃ (w : NumberWidth) (raw : ByteArray), raw.size < w.limit ∧
        c.Next (w.bytes raw.size ++ raw.toList) ∧ Text.Utf8.decode raw = .error fault ∧
          offset = c.pos + w.size ∧ d = ⟨c.data, offset + raw.size⟩ := by
  constructor
  · intro h
    rcases bind_error_iff.1 h with short | ⟨b, _, hp, rest⟩
    · cases peek_error short
    rw [(peek_ok_iff.1 hp).2] at rest
    split at rest
    · rcases bind_error_iff.1 rest with short | ⟨_, _, -, none⟩
      · rw [skip] at short
        split at short <;> cases short
      · cases none
    rcases bind_error_iff.1 rest with short | ⟨length, _, hl, rest⟩
    · rcases compressedNat_error short with ⟨⟨⟩⟩ | ⟨_, ⟨⟩⟩
    obtain ⟨w, fits, next, rfl⟩ := compressedNat_ok_iff.1 hl
    rcases bind_error_iff.1 rest with short | ⟨start, _, ⟨⟩, rest⟩
    · cases short
    rcases bind_error_iff.1 rest with short | ⟨raw, _, hr, rest⟩
    · cases bytes_error short
    obtain ⟨room, taken, rfl⟩ := bytes_ok_iff.1 hr
    obtain rfl : raw.size = length := by
      simp only [Cursor.remaining] at room
      rw [taken, ByteArray.size_extract]
      omega
    have behind : (c.advance w.size).Next raw.toList :=
      Cursor.next_of_toList (by rw [length_toList, ← taken])
    cases decoded : Text.Utf8.decode raw with
    | ok text =>
      rw [decoded] at rest
      cases rest
    | error found =>
      rw [decoded] at rest
      cases rest
      refine ⟨w, raw, fits, Cursor.next_append_iff.2 ⟨next, ?_⟩, decoded, rfl, rfl⟩
      rwa [NumberWidth.length_bytes]
  · rintro ⟨w, raw, fits, next, decoded, rfl, rfl⟩
    obtain ⟨b, tail, first, other⟩ := lead_of_bytes fits
    have lead : c.Next (b :: tail) := first ▸ next.left
    have content := bytes_of_next next.right
    rw [length_toList, NumberWidth.length_bytes, mk_toList] at content
    simp only [serialString, bind_apply, peek_of_next lead, if_neg other, position, content,
      compressedNat_of_next fits next.left, decoded]
    rfl

end Read

namespace Cursor

variable {c : Cursor}

theorem Operation.forward_read (o : Operation) : Read.Forward o.read := by
  cases o with
  | bearings => exact fun c => c.onward_refl
  | skip count => exact Read.forward_skip count.toNat
  | peek => exact Read.forward_peek
  | word width => exact Read.forward_word width.toNat
  | signedWord width => exact (Read.forward_word width.toNat).bind fun n => Read.forward_pure _
  | bytes count => exact Read.forward_bytes count.toNat
  | compressedNat => exact Read.forward_compressedNat
  | compressedInt => exact Read.forward_compressedInt
  | compressedToken => exact Read.forward_compressedToken
  | serialString => exact Read.forward_serialString

/-- The cursor after operations, each of them done where the one before left it, and each of them done
whether or not the one before succeeded. -/
def after (c : Cursor) (os : List Operation) : Cursor :=
  os.foldl (fun c o => (o.read.outcome c).2) c

theorem onward_after (c : Cursor) (os : List Operation) : c.Onward (c.after os) := by
  induction os generalizing c with
  | nil => exact c.onward_refl
  | cons o os ih => exact (o.forward_read c).trans (ih _)

/-- An operation that passes over a number of bytes at once fails only where fewer are left, and does
nothing then. -/
theorem Operation.step_outcome {o : Operation} {n : Nat} (h : o.step? = some n)
    (inside : c.pos ≤ c.data.size) :
    if n ≤ c.remaining then ∃ a, o.read.outcome c = (.ok a, c.advance n)
    else o.read.outcome c = (.error .outOfBounds, c) := by
  have room : n ≤ c.remaining ↔ c.pos + n ≤ c.data.size := by
    unfold remaining
    omega
  cases o with
  | bearings | peek | compressedNat | compressedInt | compressedToken | serialString => cases h
  | skip count =>
    cases h
    simp only [read, Read.skip_outcome]
    split
    · exact ⟨(), rfl⟩
    · rfl
  | bytes count =>
    cases h
    simp only [read, Read.bytes_outcome]
    split
    · exact ⟨_, rfl⟩
    · rfl
  | word width =>
    cases h
    simp only [read, Read.word_outcome, room]
    split
    · exact ⟨_, rfl⟩
    · rfl
  | signedWord width =>
    cases h
    simp only [read, Read.signedWord, Read.outcome_bind, Read.word_outcome, room]
    split
    · exact ⟨_, rfl⟩
    · rfl

end Cursor

end FrameworkAudit
