import FrameworkAudit.Proofs.Cursor

/-!
Reads that know where they end. Where such a read succeeds, the bytes that it passed over decide
what it does: it gives the same value wherever they stand, and it finds too few bytes where the data
end within them. A read that looks at a byte before it passes over it is one of them, as long as it
does pass over it.
-/

set_option autoImplicit false

namespace FrameworkAudit

variable {α β : Type}

namespace Cursor

variable {c : Cursor} {first last bytes : List UInt8}

/-- Whether the data end at some of these bytes: those that are left are the first of them, and not
all. -/
def EndsWithin (c : Cursor) (bytes : List UInt8) : Prop :=
  c.remaining < bytes.length ∧ c.Next (bytes.take c.remaining)

theorem not_endsWithin_nil : ¬ c.EndsWithin [] := fun h => Nat.not_lt_zero _ h.1

theorem EndsWithin.append (h : c.EndsWithin (first ++ last)) :
    c.EndsWithin first ∨ c.Next first ∧ (c.advance first.length).EndsWithin last := by
  obtain ⟨short, next⟩ := h
  rw [List.length_append] at short
  by_cases within : c.remaining < first.length
  · rw [List.take_append_of_le_length (by omega)] at next
    exact .inl ⟨within, next⟩
  · rw [List.take_append, List.take_of_length_le (by omega)] at next
    have left : (c.advance first.length).remaining = c.remaining - first.length := by
      simp only [remaining, advance]
      omega
    exact .inr ⟨next.left, by rw [left]; omega, left ▸ next.right⟩

theorem EndsWithin.cons {b : UInt8} (h : c.EndsWithin (b :: bytes)) :
    c.remaining = 0 ∨ c.Next [b] := by
  rcases Nat.eq_zero_or_pos c.remaining with none | some
  · exact .inl none
  · obtain ⟨n, more⟩ : ∃ n, c.remaining = n + 1 := ⟨c.remaining - 1, by omega⟩
    have next : c.Next ([b] ++ bytes.take n) := by
      have next := h.2
      rwa [more] at next
    exact .inr next.left

theorem endsWithin_ofBytes {data : ByteArray} {m : Nat} (h : (ofBytes data).Next bytes)
    (short : m < bytes.length) : (ofBytes (data.extract 0 m)).EndsWithin bytes := by
  have enough := h.length_le_remaining
  have left : (ofBytes (data.extract 0 m)).remaining = m := by
    simp only [remaining, ofBytes, ByteArray.size_extract] at enough ⊢
    omega
  refine ⟨by omega, fun i hi => ?_⟩
  rw [left] at hi ⊢
  rw [List.length_take] at hi
  have here := h i (by omega)
  simp only [ofBytes, Nat.zero_add] at here ⊢
  rw [List.getElem?_take_of_lt (by omega), Bytes.getElem?_extract, Nat.zero_add,
    if_pos (by omega), here]

theorem exists_next {count : Nat} (room : count ≤ c.remaining) :
    ∃ raw : List UInt8, raw.length = count ∧ c.Next raw := by
  have length : (c.data.extract c.pos (c.pos + count)).toList.length = count := by
    unfold remaining at room
    rw [Bytes.length_toList, ByteArray.size_extract]
    omega
  exact ⟨_, length, next_of_toList (by rw [length])⟩

end Cursor

namespace Read

variable {read : Read α} {k : α → Read β} {first last bytes : List UInt8} {a : α} {b : β}
  {m n : Nat}

/-- What some bytes make of a read, wherever they stand: it passes over all of them with the value,
and where the data end within them it finds too few. -/
structure Settled (read : Read α) (bytes : List UInt8) (value : α) : Prop where
  whole : ∀ c : Cursor, c.Next bytes → read c = .ok value (c.advance bytes.length)
  short : ∀ c : Cursor, c.EndsWithin bytes → ∃ d, read c = .error .outOfBounds d

theorem Settled.bind (h : Settled read first a) (hk : Settled (k a) last b) :
    Settled (read >>= k) (first ++ last) b where
  whole c next := by
    rw [bind_apply, h.whole c next.left]
    simp only [hk.whole _ next.right, Cursor.advance_advance, List.length_append]
  short c ends := by
    rw [bind_apply]
    rcases ends.append with early | ⟨next, late⟩
    · obtain ⟨d, failed⟩ := h.short c early
      exact ⟨d, by rw [failed]⟩
    · rw [h.whole c next]
      exact hk.short _ late

/-- A read that is settled, wherever it succeeds, by the bytes that it passed over, and these are at
least `least`. -/
def Delimited (least : Nat) (read : Read α) : Prop :=
  ∀ c value d, read c = .ok value d →
    ∃ bytes, least ≤ bytes.length ∧ c.Next bytes ∧ Settled read bytes value

theorem Delimited.mono (h : Delimited m read) (le : n ≤ m) : Delimited n read := by
  intro c value d ok
  obtain ⟨bytes, enough, settled⟩ := h c value d ok
  exact ⟨bytes, Nat.le_trans le enough, settled⟩

theorem delimited_pure (a : α) : Delimited 0 (pure a) := by
  intro c value d ok
  obtain ⟨rfl, -⟩ := pure_ok_iff.1 ok
  have here : c.Next [] := fun i hi => absurd hi (Nat.not_lt_zero i)
  exact ⟨[], Nat.le_refl 0, here, fun _ _ => rfl,
    fun c ends => absurd ends Cursor.not_endsWithin_nil⟩

theorem delimited_throw (e : Error) : Delimited n (throw e : Read α) := fun _ _ _ ok => nomatch ok

theorem delimited_fail (defect : Defect) : Delimited n (fail defect : Read α) := delimited_throw _

theorem Delimited.bind (h : Delimited m read) (hk : ∀ a, Delimited n (k a)) :
    Delimited (m + n) (read >>= k) := by
  intro c value d ok
  obtain ⟨a, middle, first, second⟩ := bind_ok_iff.1 ok
  obtain ⟨front, enough, next, settled⟩ := h c a middle first
  obtain ⟨-, rfl⟩ := EStateM.Result.ok.inj ((settled.whole c next).symm.trans first)
  obtain ⟨back, others, behind, rest⟩ := hk a _ value d second
  refine ⟨front ++ back, ?_, Cursor.next_append_iff.2 ⟨next, behind⟩, settled.bind rest⟩
  rw [List.length_append]
  omega

theorem Delimited.ite {p : Prop} [Decidable p] {other : Read α} (h : Delimited n read)
    (h' : Delimited n other) : Delimited n (if p then read else other) := by
  split <;> assumption

theorem Delimited.check {p : Prop} [Decidable p] {defect : Defect} {k : Unit → Read α}
    (h : Delimited n (k ())) : Delimited n (if p then fail defect >>= k else k ()) :=
  .ite (fun _ _ _ ok => nomatch ok) h

theorem delimited_word : Delimited 1 (word 1) := by
  intro c value d ok
  obtain ⟨b, byte, rfl, -⟩ := byte_ok_iff.1 ok
  have here : c.Next [b] :=
    Cursor.next_cons_iff.2 ⟨byte, fun i hi => absurd hi (Nat.not_lt_zero i)⟩
  refine ⟨[b], Nat.le_refl 1, here, fun c next => word_of_next next, fun c ends => ⟨c, ?_⟩⟩
  have none := ends.1
  rw [Cursor.remaining, List.length_singleton] at none
  exact word_of_short (by omega)

theorem delimited_bytes (count : Nat) : Delimited count (Read.bytes count) := by
  intro c value d ok
  obtain ⟨raw, rfl, next⟩ := Cursor.exists_next (bytes_ok_iff.1 ok).1
  obtain ⟨rfl, -⟩ := EStateM.Result.ok.inj ((bytes_of_next next).symm.trans ok)
  refine ⟨raw, Nat.le_refl _, next, fun c next => bytes_of_next next, fun c ends => ⟨c, ?_⟩⟩
  have few := ends.1
  rw [Read.bytes, if_neg (by omega)]

theorem delimited_skip (count : Nat) : Delimited count (skip count) := by
  intro c value d ok
  obtain ⟨raw, rfl, next⟩ := Cursor.exists_next (skip_ok_iff.1 ok).1
  refine ⟨raw, Nat.le_refl _, next, fun c next => ?_, fun c ends => ⟨c, ?_⟩⟩
  · exact skip_ok_iff.2 ⟨next.length_le_remaining, rfl⟩
  · have few := ends.1
    rw [skip, if_neg (by omega)]

theorem delimited_peek {k : UInt8 → Read α} (h : ∀ next, Delimited (n + 1) (k next)) :
    Delimited (n + 1) (peek >>= k) := by
  intro c value d ok
  obtain ⟨first, _, seen, rest⟩ := bind_ok_iff.1 ok
  obtain ⟨byte, rfl⟩ := peek_ok_iff.1 seen
  obtain ⟨bytes, enough, next, settled⟩ := h first _ value d rest
  -- At least one byte is passed over, so the one that was looked at is the first of them.
  obtain ⟨head, tail, rfl⟩ := List.exists_cons_of_length_pos (Nat.lt_of_lt_of_le n.succ_pos enough)
  obtain rfl : head = first := Option.some.inj (next.byte.symm.trans byte)
  refine ⟨head :: tail, enough, next, fun c next => ?_, fun c ends => ?_⟩
  · rw [bind_apply, peek_of_next next]
    exact settled.whole c next
  · rw [bind_apply]
    rcases ends.cons with empty | only
    · have past : c.data[c.pos]? = none := by
        unfold Cursor.remaining at empty
        exact getElem?_neg c.data c.pos (by omega)
      exact ⟨c, by rw [peek, past]⟩
    · rw [peek_of_next only]
      exact settled.short c ends

theorem delimited_compressedNat : Delimited 1 compressedNat := by
  refine delimited_word.bind (n := 0) fun first => ?_
  refine .ite (delimited_pure _) (.ite ?_ (.ite ?_ (delimited_fail _)))
  · exact (delimited_word.bind fun second => delimited_pure _).mono (Nat.zero_le _)
  · exact ((delimited_bytes 3).bind fun tail => delimited_pure _).mono (Nat.zero_le _)

theorem compressedInt_apply (c : Cursor) :
    compressedInt c = match compressedNat c with
      | .ok n d =>
        .ok (if n % 2 = 0 then ↑(n / 2) else ↑(n / 2) - ↑(signedCount (d.pos - c.pos))) d
      | .error e d => .error e d := by
  simp only [compressedInt, bind_apply, position]
  cases compressedNat c with
  | error e d => rfl
  | ok n d =>
    dsimp only
    split <;> rfl

theorem delimited_compressedInt : Delimited 1 compressedInt := by
  intro c value d ok
  rw [compressedInt_apply] at ok
  split at ok
  · rename_i n middle read
    obtain ⟨bytes, enough, next, settled⟩ := delimited_compressedNat c n middle read
    -- The value depends on how many bytes the number takes, and these are as many anywhere.
    have width (c : Cursor) : (c.advance bytes.length).pos - c.pos = bytes.length :=
      Nat.add_sub_cancel_left _ _
    obtain ⟨-, rfl⟩ := EStateM.Result.ok.inj ((settled.whole c next).symm.trans read)
    obtain ⟨rfl, -⟩ := EStateM.Result.ok.inj ok
    refine ⟨bytes, enough, next, fun c next => ?_, fun c ends => ?_⟩
    · simp only [compressedInt_apply, settled.whole c next, width]
    · obtain ⟨d, failed⟩ := settled.short c ends
      exact ⟨d, by rw [compressedInt_apply, failed]⟩
  · cases ok

theorem delimited_compressedToken : Delimited 1 compressedToken := by
  refine delimited_compressedNat.bind (n := 0) fun value => ?_
  split
  · exact delimited_pure _
  · exact delimited_fail _

theorem Delimited.times (h : Delimited 1 read) (count : Nat) :
    Delimited count (times count read) := by
  induction count with
  | zero => exact delimited_pure []
  | succ count ih =>
    exact (h.bind fun first => ih.bind fun rest => delimited_pure _).mono (by omega)

end Read

end FrameworkAudit
