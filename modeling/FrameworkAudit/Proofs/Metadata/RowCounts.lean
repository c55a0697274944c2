import FrameworkAudit.Metadata.TableStream
import FrameworkAudit.Proofs.Metadata.Columns
import FrameworkAudit.Proofs.Result
import Mathlib.Data.List.Induction
import Mathlib.Data.List.Nodup

/-!
What the header of a tables stream says of the tables. Every present table has a count in the order
of the numbers, those without a known number behind all others, so that the place of a count is the
number of present tables before it.
-/

set_option autoImplicit false

namespace FrameworkAudit

open Bytes

namespace TableId

theorem slot_getElem_all : ∀ i : Fin 45, all[i].slot = i := by decide

theorem exists_slot_eq (i : Fin 45) : ∃ table : TableId, table.slot = i := ⟨_, slot_getElem_all i⟩

theorem ofNumber?_eq_some_iff {n : Nat} {table : TableId} :
    ofNumber? n = some table ↔ n = table.number := by
  refine ⟨fun h => ?_, fun h => h ▸ ofNumber?_number table⟩
  obtain ⟨known, here⟩ := List.getElem?_eq_some_iff.1 h
  have slot := congrArg Fin.val (slot_getElem_all ⟨n, known⟩)
  exact here ▸ slot.symm

end TableId

namespace Layout

variable {data : ByteArray} {offset valid number : Nat} {numbers : List Nat} {table : TableId}
  {counts tail : List (TableId × Nat)} {l : Layout}

def rank (valid number : Nat) : Nat := ((List.range number).filter valid.testBit).length

theorem rank_congr {other : Nat} (h : ∀ n < number, valid.testBit n = other.testBit n) :
    rank valid number = rank other number := by
  refine congrArg List.length (List.filter_congr fun n hn => ?_)
  exact h n (List.mem_range.1 hn)

theorem rank_lt_rank {m n : Nat} (present : valid.testBit m) (h : m < n) :
    rank valid m < rank valid n := by
  have next : rank valid (m + 1) = rank valid m + 1 := by
    rw [rank, List.range_succ, List.filter_append, List.filter_singleton, present, List.length_append]
    rfl
  have later : rank valid (m + 1) ≤ rank valid n :=
    ((List.range_sublist.2 h).filter _).length_le
  omega

theorem getElem?_presentNumbers (present : valid.testBit number) (h : number < 64) :
    (presentNumbers valid)[rank valid number]? = some number := by
  have split : List.range 64 = List.range number ++ number :: (List.range 64).drop (number + 1) := by
    have inside : number < (List.range 64).length := by simpa using h
    calc List.range 64
        = (List.range 64).take number ++ (List.range 64).drop number :=
          (List.take_append_drop number _).symm
      _ = List.range number ++ number :: (List.range 64).drop (number + 1) := by
          rw [List.take_range, Nat.min_eq_left (Nat.le_of_lt h), List.drop_eq_getElem_cons inside,
            List.getElem_range]
  rw [presentNumbers, split, List.filter_append, List.filter_cons_of_pos present, rank,
    List.getElem?_append_right (Nat.le_refl _), Nat.sub_self]
  rfl

theorem readCounts_cons_eq_ok_iff :
    readCounts data offset (number :: numbers) = .ok counts ↔
      ∃ tail, offset + 4 ≤ data.size ∧ readCounts data (offset + 4) numbers = .ok tail ∧
        counts = ((TableId.ofNumber? number).map (·, littleEndian data offset 4)).toList ++ tail := by
  simp only [readCounts, bind_eq_ok_iff, word_eq_ok_iff]
  cases TableId.ofNumber? number <;> simp [eq_comm]

theorem map_fst_readCounts (h : readCounts data offset numbers = .ok counts) :
    counts.map Prod.fst = numbers.filterMap TableId.ofNumber? := by
  induction numbers generalizing offset counts with
  | nil => cases h; rfl
  | cons number rest ih =>
    obtain ⟨tail, -, ht, rfl⟩ := readCounts_cons_eq_ok_iff.1 h
    rw [List.filterMap_cons, List.map_append, ih ht]
    cases TableId.ofNumber? number <;> rfl

theorem mem_readCounts {i : Nat} (h : readCounts data offset numbers = .ok counts)
    (hi : numbers[i]? = some table.number) :
    (table, littleEndian data (offset + 4 * i) 4) ∈ counts := by
  induction numbers generalizing offset counts i with
  | nil => cases hi
  | cons number rest ih =>
    obtain ⟨tail, -, ht, rfl⟩ := readCounts_cons_eq_ok_iff.1 h
    rw [List.mem_append]
    cases i with
    | zero =>
      obtain rfl : number = table.number := Option.some.inj hi
      left
      simp
    | succ i =>
      right
      have place : offset + 4 * (i + 1) = offset + 4 + 4 * i := by omega
      exact place ▸ ih ht hi

section

variable {text blob guid : Bool} {count : Nat}

theorem rowCount_ofCounts_concat {entry : TableId × Nat} :
    (ofCounts (counts ++ [entry]) text blob guid).rowCount table =
      if entry.1 = table then entry.2 else (ofCounts counts text blob guid).rowCount table := by
  simp only [ofCounts, rowCount, List.foldl_append, List.foldl_cons, List.foldl_nil]
  split
  · rename_i here
    subst here
    exact Vector.getElem_set_self _
  · rename_i elsewhere
    exact Vector.getElem_set_ne _ _ fun e => elsewhere (TableId.number_inj.1 e)

theorem rowCount_ofCounts_of_not_mem (h : table ∉ counts.map Prod.fst) :
    (ofCounts counts text blob guid).rowCount table = 0 := by
  induction counts using List.reverseRecOn with
  | nil => exact Vector.getElem_replicate _
  | append_singleton counts entry ih =>
    rw [List.map_append, List.mem_append, not_or] at h
    have elsewhere : entry.1 ≠ table := fun e => h.2 (List.mem_singleton.2 e.symm)
    rw [rowCount_ofCounts_concat, if_neg elsewhere, ih h.1]

theorem rowCount_ofCounts_of_mem (distinct : (counts.map Prod.fst).Nodup)
    (h : (table, count) ∈ counts) : (ofCounts counts text blob guid).rowCount table = count := by
  induction counts using List.reverseRecOn with
  | nil => cases h
  | append_singleton counts entry ih =>
    rw [List.map_append, List.nodup_append] at distinct
    rw [rowCount_ofCounts_concat]
    rcases List.mem_append.1 h with earlier | last
    · have mem : table ∈ counts.map Prod.fst := List.mem_map_of_mem earlier
      have elsewhere : entry.1 ≠ table := fun e =>
        distinct.2.2 table mem entry.1 (List.mem_singleton.2 rfl) e.symm
      rw [if_neg elsewhere, ih distinct.1 earlier]
    · obtain rfl := List.mem_singleton.1 last
      exact if_pos rfl

end

theorem rowCount_ofHeader (h : ofHeader data valid = .ok l) :
    l.rowCount table =
      if valid.testBit table.number then
        littleEndian data (24 + 4 * rank valid table.number) 4
      else 0 := by
  simp only [ofHeader, bind_eq_ok_iff] at h
  obtain ⟨counts, hc, flags, -, h⟩ := h
  obtain rfl := Except.ok.inj h
  have small := table.number_lt
  have tables := map_fst_readCounts hc
  split
  · rename_i present
    -- No table is counted twice, so no later count takes the place of this one.
    refine rowCount_ofCounts_of_mem ?_ (mem_readCounts hc (getElem?_presentNumbers present (by omega)))
    rw [tables]
    refine List.Nodup.filterMap ?_ (List.nodup_range.filter _)
    intro m n t hm hn
    rw [TableId.ofNumber?_eq_some_iff.1 hm, TableId.ofNumber?_eq_some_iff.1 hn]
  · rename_i absent
    refine rowCount_ofCounts_of_not_mem ?_
    rw [tables, List.mem_filterMap]
    rintro ⟨n, hn, known⟩
    obtain rfl := TableId.ofNumber?_eq_some_iff.1 known
    exact absent (List.mem_filter.1 hn).2

theorem rowCount_lt (h : ofHeader data valid = .ok l) (table : TableId) :
    l.rowCount table < 1 <<< 32 := by
  rw [rowCount_ofHeader h]
  split
  · exact littleEndian_lt _ _ 4
  · decide

theorem flags_ofHeader (h : ofHeader data valid = .ok l) :
    l.largeText = (littleEndian data 6 1).testBit 0 ∧
      l.largeGuid = (littleEndian data 6 1).testBit 1 ∧
      l.largeBlob = (littleEndian data 6 1).testBit 2 := by
  simp only [ofHeader, bind_eq_ok_iff, word_eq_ok_iff] at h
  obtain ⟨counts, -, flags, ⟨-, rfl⟩, h⟩ := h
  obtain rfl := Except.ok.inj h
  exact ⟨rfl, rfl, rfl⟩

theorem ext_rowCount {m : Layout} (rows : ∀ table, l.rowCount table = m.rowCount table)
    (text : l.largeText = m.largeText) (guid : l.largeGuid = m.largeGuid)
    (blob : l.largeBlob = m.largeBlob) : l = m := by
  have same : l.rows = m.rows := by
    refine Vector.ext fun i hi => ?_
    obtain ⟨table, slot⟩ := TableId.exists_slot_eq ⟨i, hi⟩
    obtain rfl : table.slot.val = i := congrArg Fin.val slot
    exact rows table
  obtain ⟨_, _, _, _⟩ := l
  simp only at same text guid blob
  rw [same, text, guid, blob]

end Layout

namespace Column

def maxBytes : Column → Nat
  | .fixed width => width
  | .text | .guid | .blob | .row _ | .coded _ => 4

def maxSize (columns : List Column) : Nat :=
  columns.foldr (fun column size => column.maxBytes + size) 0

end Column

namespace Layout

variable (l : Layout)

theorem columnBytes_le (column : Column) : l.columnBytes column ≤ column.maxBytes := by
  have heap (large : Bool) : heapBytes large ≤ 4 := by cases large <;> decide
  have index (bits : Nat) : indexBytes bits ≤ 4 := by
    unfold indexBytes
    split <;> decide
  cases column with
  | fixed width => exact Nat.le_refl _
  | text | guid | blob => exact heap _
  | row table | coded kind => exact index _

theorem columnsSize_le (columns : List Column) :
    l.columnsSize columns ≤ Column.maxSize columns := by
  induction columns with
  | nil => exact Nat.le_refl _
  | cons column rest ih => exact Nat.add_le_add (l.columnBytes_le column) ih

theorem rowSize_le (table : TableId) : l.rowSize table ≤ 28 := by
  refine Nat.le_trans (l.columnsSize_le table.columns) ?_
  cases table <;> decide

end Layout

end FrameworkAudit
