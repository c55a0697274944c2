import FrameworkAudit.Proofs.Metadata.RowCounts

/-!
The header of a tables stream as it is written: fixed fields, and behind them a count for each table
that is marked as present, in the order of the numbers. The layout that is read from it is that of
the counts of the tables with a known number, and only data that end before the last count are
refused.
-/

set_option autoImplicit false

namespace FrameworkAudit

open Bytes

/-- What a header says. Of `count`, the counts of the present tables matter, whether their numbers
are known or not. -/
structure TablesHeader where
  reserved : UInt32
  majorVersion : UInt8
  minorVersion : UInt8
  flags : UInt8
  rowIdBits : UInt8
  valid : UInt64
  sorted : UInt64
  count : Nat → UInt32

namespace TablesHeader

variable (h : TablesHeader)

def present : List Nat := Layout.presentNumbers h.valid.toNat

def bytes : List UInt8 :=
  ofNat 4 h.reserved.toNat ++ ([h.majorVersion, h.minorVersion, h.flags, h.rowIdBits] ++
    (ofNat 8 h.valid.toNat ++ (ofNat 8 h.sorted.toNat ++
      h.present.flatMap fun number => ofNat 4 (h.count number).toNat)))

def known : List (TableId × Nat) :=
  (TableId.all.filter fun table => h.valid.toNat.testBit table.number).map fun table =>
    (table, (h.count table.number).toNat)

def layout : Layout :=
  .ofCounts h.known (h.flags.toNat.testBit 0) (h.flags.toNat.testBit 2) (h.flags.toNat.testBit 1)

theorem filterMap_present :
    (h.present.filterMap fun number =>
      (TableId.ofNumber? number).map (·, (h.count number).toNat)) = h.known := by
  -- The known numbers come first, in the order of the tables.
  have split : List.range 64 = TableId.all.map TableId.number ++ (List.range 64).drop 45 := by
    decide
  have unknown : ∀ number ∈ (List.range 64).drop 45, TableId.ofNumber? number = none := by decide
  have none : (((List.range 64).drop 45).filter h.valid.toNat.testBit).filterMap (fun number =>
      (TableId.ofNumber? number).map (·, (h.count number).toNat)) = [] := by
    rw [List.filterMap_eq_nil_iff]
    intro number hn
    rw [unknown number (List.mem_filter.1 hn).1, Option.map_none]
  rw [present, Layout.presentNumbers, split, List.filter_append, List.filterMap_append, none,
    List.append_nil, List.filter_map, List.filterMap_map]
  simp only [Function.comp_def, TableId.ofNumber?_number, Option.map_some]
  exact congrFun List.filterMap_eq_map' _

end TablesHeader

namespace Layout

variable {data : ByteArray} {offset valid : Nat} {numbers : List Nat}

theorem exists_readCounts (offset : Nat) (room : offset + 4 * numbers.length ≤ data.size) :
    ∃ counts, readCounts data offset numbers = .ok counts := by
  induction numbers generalizing offset with
  | nil => exact ⟨[], rfl⟩
  | cons number rest ih =>
    rw [List.length_cons] at room
    obtain ⟨tail, read⟩ := ih (offset + 4) (by omega)
    exact ⟨_, readCounts_cons_eq_ok_iff.2 ⟨tail, by omega, read, rfl⟩⟩

theorem readCounts_of_short (some : numbers ≠ [])
    (short : data.size < offset + 4 * numbers.length) :
    readCounts data offset numbers = .error .outOfBounds := by
  induction numbers generalizing offset with
  | nil => exact absurd rfl some
  | cons number rest ih =>
    rw [List.length_cons] at short
    rw [readCounts]
    by_cases here : offset + 4 ≤ data.size
    · have more : rest ≠ [] := by
        rintro rfl
        rw [List.length_nil] at short
        omega
      rw [word_eq_ok_iff.2 ⟨here, rfl⟩, ih more (by omega)]
      rfl
    · rw [word, if_neg here]
      rfl

theorem readCounts_of_next {count : Nat → UInt32}
    (h : (⟨data, offset⟩ : Cursor).Next
      (numbers.flatMap fun number => ofNat 4 (count number).toNat)) :
    readCounts data offset numbers = .ok (numbers.filterMap fun number =>
      (TableId.ofNumber? number).map (·, (count number).toNat)) := by
  induction numbers generalizing offset with
  | nil => rfl
  | cons number rest ih =>
    rw [List.flatMap_cons] at h
    have value : littleEndian data offset 4 = (count number).toNat :=
      littleEndian_of_next h.left (count number).toNat_lt
    have room : offset + 4 ≤ data.size := by
      have enough := h.left.length_le_remaining
      simp only [length_ofNat, Cursor.remaining] at enough
      omega
    have behind := h.right
    rw [length_ofNat] at behind
    refine readCounts_cons_eq_ok_iff.2 ⟨_, room, ih behind, ?_⟩
    rw [value, List.filterMap_cons]
    cases TableId.ofNumber? number <;> rfl

end Layout

namespace TablesHeader

variable {header : TablesHeader} {data : ByteArray}

theorem fields_of_next (h : (Cursor.ofBytes data).Next header.bytes) :
    word data 6 1 = .ok header.flags.toNat ∧ word data 8 8 = .ok header.valid.toNat ∧
      (⟨data, 24⟩ : Cursor).Next
        (header.present.flatMap fun number => ofNat 4 (header.count number).toNat) := by
  simp only [bytes, Cursor.next_append_iff, length_ofNat, Cursor.advance, Cursor.ofBytes,
    List.length_cons, List.length_nil, Nat.reduceAdd] at h
  obtain ⟨-, single, valid, -, counts⟩ := h
  obtain ⟨room, value, -⟩ :=
    Read.word_ok_iff.1 (Read.word_of_next (c := ⟨data, 6⟩) single.tail.tail)
  refine ⟨word_eq_ok_iff.2 ⟨room, value⟩, ?_, counts⟩
  exact (word_eq_ok_iff_next (c := ⟨data, 8⟩) (by decide)).2 ⟨header.valid.toNat_lt, valid⟩

theorem present_eq_nil_iff : header.present = [] ↔ header.valid = 0 := by
  have bound : header.valid.toNat < 2 ^ 64 := header.valid.toNat_lt
  rw [present, Layout.presentNumbers, List.filter_eq_nil_iff, ← UInt64.toNat_inj]
  constructor
  · intro none
    refine Nat.eq_of_testBit_eq fun n => ?_
    rw [UInt64.toNat_zero, Nat.zero_testBit]
    by_cases small : n < 64
    · simpa using none n (List.mem_range.2 small)
    · have beyond : 2 ^ 64 ≤ 2 ^ n := Nat.pow_le_pow_right (by decide) (by omega)
      exact Nat.testBit_lt_two_pow (Nat.lt_of_lt_of_le bound beyond)
  · intro zero n _
    rw [zero, UInt64.toNat_zero, Nat.zero_testBit]
    exact Bool.false_ne_true

theorem rowCount_layout (header : TablesHeader) (table : TableId) :
    header.layout.rowCount table =
      if header.valid.toNat.testBit table.number then (header.count table.number).toNat else 0 := by
  have tables : header.known.map Prod.fst =
      TableId.all.filter fun table => header.valid.toNat.testBit table.number := by
    rw [known, List.map_map]
    exact List.map_id _
  have distinct : TableId.all.Nodup := by decide
  split
  · rename_i present
    refine Layout.rowCount_ofCounts_of_mem (tables ▸ distinct.filter _) ?_
    exact List.mem_map.2 ⟨table, List.mem_filter.2 ⟨table.mem_all, present⟩, rfl⟩
  · rename_i absent
    refine Layout.rowCount_ofCounts_of_not_mem ?_
    rw [tables, List.mem_filter]
    exact fun h => absent h.2

end TablesHeader

namespace Layout

theorem ofHeader_eq_error_iff {header : TablesHeader} {data : ByteArray} :
    ofHeader data header.valid.toNat = .error .outOfBounds ↔
      data.size < if header.valid = 0 then 7 else 24 + 4 * header.present.length := by
  have counted : presentNumbers header.valid.toNat = header.present := rfl
  have flagged (h : 7 ≤ data.size) : word data 6 1 = .ok (littleEndian data 6 1) :=
    word_eq_ok_iff.2 ⟨h, rfl⟩
  rw [ofHeader, counted]
  split
  · rename_i none
    rw [TablesHeader.present_eq_nil_iff.2 none]
    by_cases short : data.size < 7
    · rw [word, if_neg (by omega)]
      exact iff_of_true rfl short
    · rw [flagged (by omega)]
      exact iff_of_false (by rintro ⟨⟩) short
  · rename_i some
    by_cases short : data.size < 24 + 4 * header.present.length
    · rw [readCounts_of_short (mt TablesHeader.present_eq_nil_iff.1 some) short]
      exact iff_of_true rfl short
    · obtain ⟨counts, read⟩ := exists_readCounts 24 (Nat.le_of_not_lt short)
      rw [read, flagged (by omega)]
      exact iff_of_false (by rintro ⟨⟩) short

/-- A header is read as the layout of the counts of its known tables, whatever follows: each present
table has its count, wherever it stands among the others, and no other table has rows. Data are
refused only if they end before the last count, or before the flags if there is none. -/
theorem ofHeader_bytes (header : TablesHeader) (rest : List UInt8) :
    let data : ByteArray := ⟨(header.bytes ++ rest).toArray⟩
    word data 8 8 = .ok header.valid.toNat ∧
      ofHeader data header.valid.toNat = .ok header.layout ∧
      (∀ table, header.layout.rowCount table =
        if header.valid.toNat.testBit table.number then (header.count table.number).toNat else 0) ∧
      ∀ other : ByteArray, ofHeader other header.valid.toNat = .error .outOfBounds ↔
        other.size < if header.valid = 0 then 7 else 24 + 4 * header.present.length := by
  intro data
  obtain ⟨flags, valid, counts⟩ :=
    TablesHeader.fields_of_next (Cursor.next_ofBytes header.bytes rest)
  refine ⟨valid, ?_, header.rowCount_layout, fun other => ofHeader_eq_error_iff⟩
  have read := readCounts_of_next counts
  rw [header.filterMap_present] at read
  have counted : presentNumbers header.valid.toNat = header.present := rfl
  rw [ofHeader, counted, read, flags]
  rfl

end Layout

end FrameworkAudit
