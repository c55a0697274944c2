import FrameworkAudit.Cursor
import FrameworkAudit.Proofs.Bytes

set_option autoImplicit false

namespace FrameworkAudit

open Bytes

variable {α β : Type} {a b : ByteArray} {pos m n : Nat}

namespace Cursor

variable {c : Cursor} {first last : List UInt8}

def advance (c : Cursor) (count : Nat) : Cursor := { c with pos := c.pos + count }

@[simp] theorem advance_advance (c : Cursor) (m n : Nat) :
    (c.advance m).advance n = c.advance (m + n) := by
  simp [advance, Nat.add_assoc]

def Next (c : Cursor) (bytes : List UInt8) : Prop :=
  ∀ i, i < bytes.length → c.data[c.pos + i]? = bytes[i]?

theorem next_append_iff :
    c.Next (first ++ last) ↔ c.Next first ∧ (c.advance first.length).Next last := by
  simp only [Next, advance, List.length_append]
  constructor
  · intro h
    refine ⟨fun i hi => ?_, fun i hi => ?_⟩
    · rw [h i (by omega), List.getElem?_append_left hi]
    · rw [Nat.add_assoc, h (first.length + i) (by omega), List.getElem?_append_right (by omega),
        Nat.add_sub_cancel_left]
  · rintro ⟨hf, hl⟩ i hi
    by_cases inside : i < first.length
    · rw [hf i inside, List.getElem?_append_left inside]
    · have here := hl (i - first.length) (by omega)
      rw [Nat.add_assoc, Nat.add_sub_cancel' (by omega)] at here
      rw [here, List.getElem?_append_right (by omega)]

theorem Next.left (h : c.Next (first ++ last)) : c.Next first := (next_append_iff.1 h).1

theorem Next.right (h : c.Next (first ++ last)) : (c.advance first.length).Next last :=
  (next_append_iff.1 h).2

theorem Next.tail {b : UInt8} (h : c.Next (b :: last)) : (c.advance 1).Next last := by
  have split : c.Next ([b] ++ last) := h
  exact split.right

theorem Next.byte {b : UInt8} (h : c.Next (b :: last)) : c.data[c.pos]? = some b :=
  h 0 (Nat.zero_lt_succ _)

theorem Next.lt_size {b : UInt8} (h : c.Next (b :: last)) : c.pos < c.data.size := by
  rcases Nat.lt_or_ge c.pos c.data.size with inside | past
  · exact inside
  · have here := h.byte
    rw [getElem?_neg c.data c.pos (by omega)] at here
    cases here

theorem next_cons_iff {b : UInt8} {bytes : List UInt8} :
    c.Next (b :: bytes) ↔ c.data[c.pos]? = some b ∧ (c.advance 1).Next bytes := by
  refine ⟨fun h => ⟨h.byte, h.tail⟩, fun ⟨here, behind⟩ => ?_⟩
  have one : c.Next [b] := by
    intro i hi
    obtain rfl : i = 0 := by simpa using hi
    exact here
  exact next_append_iff.2 ⟨one, behind⟩

theorem Next.length_le_remaining {bytes : List UInt8} (h : c.Next bytes) :
    bytes.length ≤ c.remaining := by
  induction bytes generalizing c with
  | nil => exact Nat.zero_le _
  | cons b rest ih =>
    have inside := h.lt_size
    have left := ih h.tail
    simp only [remaining, advance, List.length_cons] at left ⊢
    omega

theorem Next.extract_eq {bytes : List UInt8} (h : c.Next bytes) :
    c.data.extract c.pos (c.pos + bytes.length) = ⟨bytes.toArray⟩ := by
  have enough := h.length_le_remaining
  unfold remaining at enough
  apply ByteArray.ext_getElem
  · have length : (ByteArray.mk bytes.toArray).size = bytes.length := rfl
    rw [ByteArray.size_extract, length]
    omega
  · intro i hi hj
    have short : i < bytes.length := hj
    have here := h i short
    rw [getElem?_pos c.data _ (by omega), List.getElem?_eq_getElem short, Option.some.injEq] at here
    rw [ByteArray.getElem_extract, here]
    rfl

theorem next_of_toList {bytes : List UInt8}
    (h : (c.data.extract c.pos (c.pos + bytes.length)).toList = bytes) : c.Next bytes := by
  intro i hi
  rw [← h, getElem?_toList, getElem?_extract, if_pos (by omega)]

theorem next_ofBytes_iff {data : ByteArray} {bytes : List UInt8} :
    (ofBytes data).Next bytes ↔ bytes <+: data.toList := by
  simp only [List.prefix_iff_getElem?, Next, ofBytes, Nat.zero_add, getElem?_toList]
  constructor
  · intro h i hi
    rw [h i hi, List.getElem?_eq_getElem hi]
  · intro h i hi
    rw [h i hi, List.getElem?_eq_getElem hi]

theorem next_ofBytes (first last : List UInt8) :
    (ofBytes ⟨(first ++ last).toArray⟩).Next first :=
  next_ofBytes_iff.2 ⟨last, (toList_mk (first ++ last)).symm⟩

end Cursor

namespace Read

variable {c d : Cursor} {value : α}

theorem bind_apply (read : Read α) (k : α → Read β) (c : Cursor) :
    (read >>= k) c = match read c with
      | .ok value c => k value c
      | .error e c => .error e c := by
  show EStateM.bind read k c = _
  unfold EStateM.bind
  cases read c <;> rfl

theorem bind_ok_iff {read : Read α} {k : α → Read β} {value : β} :
    (read >>= k) c = .ok value d ↔
      ∃ first middle, read c = .ok first middle ∧ k first middle = .ok value d := by
  rw [bind_apply]
  cases read c <;> simp [and_assoc]

theorem pure_ok_iff {result : α} : (pure result : Read α) c = .ok value d ↔ result = value ∧ c = d := by
  show EStateM.Result.ok result c = .ok value d ↔ _
  simp

theorem check_ok_iff {p : Prop} [Decidable p] {defect : Defect} {k : β → Read α} {read : Read α} :
    (if p then fail defect >>= k else read) c = .ok value d ↔ ¬ p ∧ read c = .ok value d := by
  split
  · rename_i h
    simp only [h, not_true, false_and, iff_false]
    exact fun impossible => nomatch impossible
  · rename_i h
    simp [h]

theorem word_ok_iff {width value : Nat} :
    word width c = .ok value d ↔
      c.pos + width ≤ c.data.size ∧ value = littleEndian c.data c.pos width ∧
        d = { c with pos := c.pos + width } := by
  unfold word Bytes.word
  by_cases h : c.pos + width ≤ c.data.size <;> simp [h, eq_comm]

theorem word_error {width : Nat} {e : Error} (h : word width c = .error e d) :
    e = .outOfBounds ∧ d = c := by
  unfold word Bytes.word at h
  split at h
  · cases h
  · rename_i failed
    split at failed <;> cases failed
    cases h
    exact ⟨rfl, rfl⟩

theorem word_of_next {b : UInt8} {rest : List UInt8} (h : c.Next (b :: rest)) :
    word 1 c = .ok b.toNat (c.advance 1) := by
  refine word_ok_iff.2 ⟨h.lt_size, ?_, rfl⟩
  simp [littleEndian, h.byte]

theorem byte_ok_iff {value : Nat} :
    word 1 c = .ok value d ↔ ∃ b, c.data[c.pos]? = some b ∧ value = b.toNat ∧ d = c.advance 1 := by
  rw [word_ok_iff]
  constructor
  · rintro ⟨room, rfl, rfl⟩
    obtain ⟨b, byte⟩ : ∃ b, c.data[c.pos]? = some b := ⟨_, getElem?_pos c.data c.pos room⟩
    exact ⟨_, byte, by simp [littleEndian, byte], rfl⟩
  · rintro ⟨b, byte, rfl, rfl⟩
    have next : c.Next [b] := Cursor.next_cons_iff.2 ⟨byte, fun i hi => absurd hi (Nat.not_lt_zero i)⟩
    exact ⟨next.lt_size, by simp [littleEndian, byte], rfl⟩

theorem peek_of_next {b : UInt8} {rest : List UInt8} (h : c.Next (b :: rest)) :
    peek c = .ok b c := by
  simp [peek, h.byte]

theorem peek_ok_iff {b : UInt8} : peek c = .ok b d ↔ c.data[c.pos]? = some b ∧ d = c := by
  unfold peek
  cases c.data[c.pos]? <;> simp [eq_comm]

theorem skip_ok_iff {count : Nat} {value : Unit} :
    skip count c = .ok value d ↔ count ≤ c.remaining ∧ d = { c with pos := c.pos + count } := by
  unfold skip
  by_cases h : count ≤ c.remaining <;> simp [h, eq_comm]

theorem bytes_ok_iff {count : Nat} {value : ByteArray} :
    bytes count c = .ok value d ↔
      count ≤ c.remaining ∧ value = c.data.extract c.pos (c.pos + count) ∧
        d = { c with pos := c.pos + count } := by
  unfold bytes
  by_cases h : count ≤ c.remaining <;> simp [h, eq_comm]

theorem bytes_of_next {raw : List UInt8} (h : c.Next raw) :
    bytes raw.length c = .ok ⟨raw.toArray⟩ (c.advance raw.length) :=
  bytes_ok_iff.2 ⟨h.length_le_remaining, h.extract_eq.symm, rfl⟩

end Read

/-- Where `width` bytes are left, a read that passes over all of them if it succeeds, and whose
result they decide. -/
structure Read.Takes (width : Nat) (read : Read α) : Prop where
  passes : ∀ {data : ByteArray} {pos : Nat} {value : α} {c : Cursor}, pos + width ≤ data.size →
    read ⟨data, pos⟩ = .ok value c → c = ⟨data, pos + width⟩
  sees : ∀ {a b : ByteArray} {pos : Nat}, pos + width ≤ a.size → pos + width ≤ b.size →
    Agree a b pos (pos + width) → runAt read a pos = runAt read b pos

namespace Read

theorem takes_pure (value : α) : Takes 0 (pure value : Read α) where
  passes _ h := by cases h; rfl
  sees _ _ _ := rfl

theorem takes_throw (e : Error) : Takes 0 (throw e : Read α) where
  passes _ h := nomatch h
  sees _ _ _ := rfl

theorem runAt_eq_ok_iff {read : Read α} {value : α} :
    runAt read a pos = .ok value ↔ ∃ d, read ⟨a, pos⟩ = .ok value d := by
  unfold runAt
  cases read ⟨a, pos⟩ <;> simp

theorem runAt_word (width : Nat) : runAt (word width) a pos = Bytes.word a pos width := by
  unfold runAt word
  cases Bytes.word a pos width <;> rfl

theorem takes_word (width : Nat) : Takes width (word width) where
  passes _ h := (word_ok_iff.1 h).2.2
  sees ha hb h := by rw [runAt_word, runAt_word, h.word_eq ha hb]

/-- A read that takes `m` bytes is followed by a read from `m` bytes on. -/
theorem Takes.runAt_bind {read : Read α} (h : Takes m read) (k : α → Read β)
    (ha : pos + m ≤ a.size) :
    runAt (read >>= k) a pos = (runAt read a pos).bind fun value => runAt (k value) a (pos + m) := by
  unfold runAt
  rw [bind_apply]
  cases hr : read ⟨a, pos⟩ with
  | error e c => rfl
  | ok value c =>
    obtain rfl := h.passes ha hr
    rfl

theorem Takes.bind {read : Read α} {k : α → Read β} (h : Takes m read)
    (hk : ∀ value, Takes n (k value)) : Takes (m + n) (read >>= k) where
  passes {data pos value c} hd hr := by
    rw [bind_apply] at hr
    split at hr
    · rename_i first middle hf
      obtain rfl := h.passes (by omega) hf
      obtain rfl := (hk first).passes (by omega) hr
      rw [Nat.add_assoc]
    · cases hr
  sees {a b pos} ha hb hab := by
    rw [h.runAt_bind k (by omega), h.runAt_bind k (by omega),
      h.sees (by omega) (by omega) (hab.mono (Nat.le_refl _) (by omega))]
    refine congrArg _ (funext fun value => ?_)
    exact (hk value).sees (by omega) (by omega) (hab.mono (by omega) (by omega))

theorem Takes.map {read : Read α} {f : α → β} (h : Takes n read) : Takes n (f <$> read) := by
  rw [map_eq_pure_bind]
  exact h.bind (n := 0) fun _ => takes_pure _

section

variable {read : Read α} {c : Cursor}

def Fails (read : Read α) (c : Cursor) : Prop := ∃ e d, read c = .error e d

theorem not_fails_pure (value : α) : ¬ Fails (pure value) c := fun ⟨_, _, h⟩ => nomatch h

theorem fails_bind_iff {k : α → Read β} :
    Fails (read >>= k) c ↔ read.Fails c ∨ ∃ value d, read c = .ok value d ∧ (k value).Fails d := by
  simp only [Fails, bind_apply]
  cases read c with
  | ok value d =>
    refine ⟨fun h => .inr ⟨value, d, rfl, h⟩, ?_⟩
    rintro (⟨_, _, h⟩ | ⟨_, _, h, failed⟩)
    · cases h
    · cases h
      exact failed
  | error e d => simp

theorem map_apply (f : α → β) (c : Cursor) :
    (f <$> read) c = match read c with
      | .ok value c => .ok (f value) c
      | .error e c => .error e c := by
  rw [map_eq_pure_bind, bind_apply]
  rfl

theorem fails_map_iff {f : α → β} : Fails (f <$> read) c ↔ read.Fails c := by
  simp only [Fails, map_apply]
  cases read c <;> simp

/-- A read that takes `n` bytes stands behind them unless it fails. -/
theorem Takes.ok_or_fails (h : Takes n read) (room : c.pos + n ≤ c.data.size) :
    (∃ value, read c = .ok value (c.advance n)) ∨ read.Fails c := by
  cases hr : read c with
  | ok value d =>
    obtain rfl : d = c.advance n := h.passes room hr
    exact .inl ⟨value, rfl⟩
  | error e d => exact .inr ⟨e, d, hr⟩

theorem Takes.fails_bind_iff {k : α → Read β} {p : Prop} (h : Takes n read)
    (room : c.pos + n ≤ c.data.size) (hk : ∀ value, (k value).Fails (c.advance n) ↔ p) :
    Fails (read >>= k) c ↔ read.Fails c ∨ p := by
  rw [Read.fails_bind_iff]
  constructor
  · rintro (failed | ⟨value, d, hv, failed⟩)
    · exact .inl failed
    · obtain rfl : d = c.advance n := h.passes room hv
      exact .inr ((hk value).1 failed)
  · rintro (failed | hp)
    · exact .inl failed
    · exact (h.ok_or_fails room).symm.imp_right fun ⟨value, hv⟩ => ⟨value, _, hv, (hk value).2 hp⟩

theorem word_of_room {width : Nat} (room : c.pos + width ≤ c.data.size) :
    word width c = .ok (littleEndian c.data c.pos width) (c.advance width) :=
  word_ok_iff.2 ⟨room, rfl, rfl⟩

theorem word_of_short {width : Nat} (short : c.data.size < c.pos + width) :
    word width c = .error .outOfBounds c := by
  rw [word, Bytes.word, if_neg (by omega)]

end

end Read

end FrameworkAudit
