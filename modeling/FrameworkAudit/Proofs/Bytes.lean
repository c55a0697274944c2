import FrameworkAudit.Bytes

set_option autoImplicit false

namespace FrameworkAudit.Bytes

variable {a b data : ByteArray} {start stop first last offset width : Nat}

theorem getElem?_extract (data : ByteArray) (start stop i : Nat) :
    (data.extract start stop)[i]? = if start + i < stop then data[start + i]? else none := by
  by_cases hi : i < (data.extract start stop).size
  · have inside : start + i < stop ∧ start + i < data.size := by
      rw [ByteArray.size_extract] at hi
      omega
    rw [getElem?_pos (data.extract start stop) i hi, if_pos inside.1,
      getElem?_pos data (start + i) inside.2, ByteArray.getElem_extract]
  · rw [getElem?_neg (data.extract start stop) i hi]
    rw [ByteArray.size_extract] at hi
    split
    · rw [getElem?_neg data (start + i) (by omega)]
    · rfl

theorem toList_loop (data : ByteArray) (i : Nat) (before : List UInt8) :
    ByteArray.toList.loop data i before = before.reverse ++ data.data.toList.drop i := by
  induction i, before using ByteArray.toList.loop.induct data with
  | case1 i before hi ih =>
    have inside : i < data.data.toList.length := by simpa using hi
    have byte : data.get! i = data.data.toList[i] := by
      simp only [ByteArray.get!, Array.getElem_toList]
      exact getElem!_pos data.data i hi
    rw [ByteArray.toList.loop, if_pos hi, ih, List.drop_eq_getElem_cons inside, byte]
    simp
  | case2 i before hi =>
    have past : data.data.toList.length ≤ i := by simpa using hi
    rw [ByteArray.toList.loop, if_neg hi, List.drop_eq_nil_of_le past, List.append_nil]

theorem toList_eq (data : ByteArray) : data.toList = data.data.toList := by
  rw [ByteArray.toList, toList_loop, List.reverse_nil, List.nil_append, List.drop_zero]

theorem toList_toUTF8 (s : String) : s.toUTF8.toList = s.toList.flatMap String.utf8EncodeChar := by
  rw [toList_eq, String.toUTF8_eq_toByteArray, ← String.utf8Encode_toList, List.utf8Encode,
    List.data_toByteArray, List.toList_toArray]

theorem length_toList (data : ByteArray) : data.toList.length = data.size := by
  rw [toList_eq]
  rfl

theorem toList_mk (bytes : List UInt8) : (ByteArray.mk bytes.toArray).toList = bytes := by
  rw [toList_eq]

theorem prefix_toList_mk (bytes : List UInt8) : bytes <+: (ByteArray.mk bytes.toArray).toList :=
  ⟨[], (List.append_nil bytes).trans (toList_mk bytes).symm⟩

theorem mk_toList (data : ByteArray) : ByteArray.mk data.toList.toArray = data := by
  rw [toList_eq]

theorem getElem?_toList (data : ByteArray) (i : Nat) : data.toList[i]? = data[i]? := by
  rw [toList_eq, Array.getElem?_toList]
  rfl

theorem word_eq_ok_iff {value : Nat} :
    word data offset width = .ok value ↔
      offset + width ≤ data.size ∧ value = littleEndian data offset width := by
  unfold word
  split
  · rename_i h
    simp [h, eq_comm]
  · rename_i h
    simp [h]

theorem zeroFrom?_eq_some_iff :
    zeroFrom? data start = some stop ↔
      start ≤ stop ∧ data[stop]? = some 0 ∧ ∀ i, start ≤ i → i < stop → data[i]? ≠ some 0 := by
  fun_induction zeroFrom? data start with
  | case1 start h hz =>
    have here : data[start]? = some 0 := by rw [getElem?_pos data start h, hz]
    constructor
    · rintro ⟨rfl⟩
      exact ⟨Nat.le_refl _, here, fun i hi hs => by omega⟩
    · rintro ⟨hle, -, none⟩
      have : ¬ start < stop := fun hlt => none start (Nat.le_refl _) hlt here
      exact congrArg some (by omega)
  | case2 start h hz ih =>
    have here : data[start]? ≠ some 0 := by rwa [getElem?_pos data start h, ne_eq, Option.some.injEq]
    rw [ih]
    constructor
    · rintro ⟨hle, hstop, none⟩
      refine ⟨by omega, hstop, fun i hi hs => ?_⟩
      obtain rfl | hlt := Nat.eq_or_lt_of_le hi
      · exact here
      · exact none i hlt hs
    · rintro ⟨hle, hstop, none⟩
      have : start ≠ stop := fun e => here (e ▸ hstop)
      exact ⟨by omega, hstop, fun i hi hs => none i (by omega) hs⟩
  | case3 start h =>
    simp only [reduceCtorEq, false_iff]
    rintro ⟨hle, hstop, -⟩
    rw [getElem?_neg data stop (by omega)] at hstop
    cases hstop

/-- Whether two byte strings hold the same bytes from `start` up to `stop`. -/
def Agree (a b : ByteArray) (start stop : Nat) : Prop :=
  ∀ i, start ≤ i → i < stop → a[i]? = b[i]?

namespace Agree

theorem mono (h : Agree a b start stop) (hf : start ≤ first) (hl : last ≤ stop) :
    Agree a b first last :=
  fun i hi hs => h i (by omega) (by omega)

theorem littleEndian_eq (h : Agree a b offset (offset + width)) :
    littleEndian a offset width = littleEndian b offset width := by
  induction width generalizing offset with
  | zero => rfl
  | succ width ih =>
    have here : a[offset]? = b[offset]? := h offset (Nat.le_refl _) (by omega)
    have rest := ih (h.mono (Nat.le_succ offset) (by omega))
    simp only [littleEndian, here, rest]

theorem word_eq (h : Agree a b offset (offset + width)) (ha : offset + width ≤ a.size)
    (hb : offset + width ≤ b.size) : word a offset width = word b offset width := by
  rw [word, word, if_pos ha, if_pos hb, h.littleEndian_eq]

theorem word_ok {value : Nat} (h : Agree a b offset (offset + width)) (hs : a.size ≤ b.size)
    (ha : word a offset width = .ok value) : word b offset width = .ok value := by
  have inside := (word_eq_ok_iff.1 ha).1
  rw [← h.word_eq inside (by omega), ha]

theorem extract_eq (h : Agree a b start stop) (ha : stop ≤ a.size) (hb : stop ≤ b.size) :
    a.extract start stop = b.extract start stop := by
  apply ByteArray.ext_getElem
  · simp only [ByteArray.size_extract]
    omega
  · intro i hi hj
    simp only [ByteArray.size_extract] at hi hj
    have here := h (start + i) (by omega) (by omega)
    rw [getElem?_pos a (start + i) (by omega), getElem?_pos b (start + i) (by omega),
      Option.some.injEq] at here
    simpa only [ByteArray.getElem_extract] using here

end Agree

/-- Byte strings of one length that hold the same bytes before `start` and from `stop` on. -/
structure DifferWithin (a b : ByteArray) (start stop : Nat) : Prop where
  size : a.size = b.size
  outside : ∀ i, i < start ∨ stop ≤ i → a[i]? = b[i]?

instance (a b : ByteArray) (start stop : Nat) : Decidable (DifferWithin a b start stop) :=
  decidable_of_iff
    (a.size = b.size ∧ ∀ i < a.size, i < start ∨ stop ≤ i → a[i]? = b[i]?)
    ⟨fun h => ⟨h.1, fun i hi => by
      by_cases inside : i < a.size
      · exact h.2 i inside hi
      · rw [getElem?_neg a i inside, getElem?_neg b i (h.1 ▸ inside)]⟩,
      fun h => ⟨h.size, fun i _ hi => h.outside i hi⟩⟩

namespace DifferWithin

theorem agree (h : DifferWithin a b start stop) (apart : last ≤ start ∨ stop ≤ first) :
    Agree a b first last :=
  fun i _ _ => h.outside i (by omega)

/-- In a part that begins `first` bytes later, the difference begins as many bytes earlier. -/
theorem extract (h : DifferWithin a b (first + start) (first + stop)) :
    DifferWithin (a.extract first last) (b.extract first last) start stop where
  size := by rw [ByteArray.size_extract, ByteArray.size_extract, h.size]
  outside i hi := by
    rw [getElem?_extract, getElem?_extract, h.outside (first + i) (by omega)]

end DifferWithin

end FrameworkAudit.Bytes
