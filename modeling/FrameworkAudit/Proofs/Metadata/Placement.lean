import FrameworkAudit.Proofs.Metadata.RowCounts
import FrameworkAudit.Proofs.Metadata.TableStream
import Mathlib.Data.List.Chain

/-!
Where the rows of a tables stream stand. The tables that have rows follow one another behind the
header, in the order of their numbers and without gaps, and a row is read from its own bytes. A
header may announce tables without a known number: each of them takes a count, and moves all rows by
the four bytes of it.
-/

set_option autoImplicit false

namespace FrameworkAudit

open Bytes

def Region.shift (count : Nat) (r : Region) : Region := { r with start := r.start + count }

namespace TableStream

variable {data : ByteArray} {s t : TableStream} {l : Layout} {start count : Nat}
  {tables : List TableId} {r : Region}

theorem map_table_regionsFrom :
    (regionsFrom l start tables).map Region.table = tables.filter (l.rowCount · ≠ 0) := by
  induction tables generalizing start with
  | nil => rfl
  | cons table rest ih =>
    unfold regionsFrom
    split
    · rename_i empty
      rw [ih, List.filter_cons_of_neg (by simpa using empty)]
    · rename_i filled
      rw [List.map_cons, ih, List.filter_cons_of_pos (by simpa using filled)]

theorem start_eq_of_mem_head? (h : r ∈ (regionsFrom l start tables).head?) : r.start = start := by
  induction tables with
  | nil => cases h
  | cons table rest ih =>
    unfold regionsFrom at h
    split at h
    · exact ih h
    · cases h
      rfl

theorem isChain_regionsFrom :
    (regionsFrom l start tables).IsChain fun r q => q.start = r.start + r.length := by
  induction tables generalizing start with
  | nil => exact .nil
  | cons table rest ih =>
    unfold regionsFrom
    split
    · exact ih
    · exact ih.cons fun q hq => start_eq_of_mem_head? hq

theorem regionsFrom_add :
    regionsFrom l (start + count) tables = (regionsFrom l start tables).map (Region.shift count) := by
  induction tables generalizing start with
  | nil => rfl
  | cons table rest ih =>
    unfold regionsFrom
    split
    · exact ih
    · dsimp only
      rw [Nat.add_right_comm, ih, List.map_cons, Region.shift]

/-- What the header of a stream decides: the row counts, the order and the places of the tables that
have rows, and with them the places of the rows. No sum that places a table in fewer than 2 ^ 63
bytes needs more than 64 bits. -/
structure Placed (s : TableStream) : Prop where
  valid_eq : s.valid = littleEndian s.data 8 8
  rowCount_eq : ∀ table, s.rowCount table =
    if s.valid.testBit table.number then
      littleEndian s.data (24 + 4 * Layout.rank s.valid table.number) 4
    else 0
  tables_eq : s.regions.map Region.table = TableId.all.filter (s.rowCount · ≠ 0)
  ordered : s.regions.Pairwise fun r q => r.table.number < q.table.number
  first : ∀ r ∈ s.regions.head?, r.start =
    24 + 4 * s.tableCount + if (littleEndian s.data 6 1).testBit 6 then 4 else 0
  consecutive : s.regions.IsChain fun r q => q.start = r.start + r.length
  apart : s.regions.Pairwise Region.Apart
  length_eq : ∀ r ∈ s.regions, r.length = s.rowCount r.table * s.layout.rowSize r.table
  inside : ∀ r ∈ s.regions, r.start + r.length ≤ s.data.size
  rows_apart : ∀ {table other row i place elsewhere}, s.rowExtent? table row = some place →
    s.rowExtent? other i = some elsewhere → (other, i) ≠ (table, row) →
    elsewhere.offset + elsewhere.length ≤ place.offset ∨
      place.offset + place.length ≤ elsewhere.offset
  no_overflow : s.data.size < 1 <<< 63 → ∀ table start, start ≤ s.data.size →
    start + s.rowCount table * s.layout.rowSize table < 1 <<< 64

theorem size_lt (h : Layout.ofHeader data s.valid = .ok s.layout) (table : TableId) :
    s.rowCount table * s.layout.rowSize table < 1 <<< 37 :=
  calc s.rowCount table * s.layout.rowSize table ≤ s.rowCount table * 28 :=
        Nat.mul_le_mul_left _ (s.layout.rowSize_le table)
    _ < (1 <<< 32) * 32 := by
        have few : s.rowCount table < 1 <<< 32 := Layout.rowCount_lt h table
        omega

theorem placed_ofBytes (h : ofBytes data = .ok s) : s.Placed := by
  obtain ⟨rfl, laid⟩ := laid_ofBytes h
  obtain ⟨flags, -, hv, -, hl, -⟩ := ofBytes_eq_ok_iff.1 h
  have tables : s.regions.map Region.table = TableId.all.filter (s.rowCount · ≠ 0) := by
    rw [laid.regions_eq, map_table_regionsFrom]
    rfl
  refine ⟨(word_eq_ok_iff.1 hv).2, fun table => Layout.rowCount_ofHeader hl, tables, ?_, ?_, ?_, ?_,
    ?_, laid.inside, laid.rowExtents_apart, ?_⟩
  · have numbers : TableId.all.Pairwise fun t u => t.number < u.number := by decide
    have kept := numbers.filter (s.rowCount · ≠ 0)
    rw [← tables, List.pairwise_map] at kept
    exact kept
  · rw [laid.regions_eq]
    intro r hr
    rw [start_eq_of_mem_head? hr]
    rfl
  · rw [laid.regions_eq]
    exact isChain_regionsFrom
  · rw [laid.regions_eq]
    exact pairwise_regionsFrom.imp Or.inl
  · rw [laid.regions_eq]
    exact fun r hr => length_eq_of_mem hr
  · intro small table start hs
    have size := size_lt hl table
    omega

/-- How rows of a kind are read: if there are any, their table is there, and each of them is read
from a place of its own in the region of the table, whatever stands elsewhere. -/
structure HoldsRows (s : TableStream) (ρ : Type) [Row ρ] : Prop where
  isSome : s.rowCount (Row.table ρ) ≠ 0 → (s.table? ρ).isSome
  own : ∀ t : RowTable ρ, s.table? ρ = some t → ∀ row, 0 < row → row ≤ s.rowCount (Row.table ρ) →
    ∃ place, s.rowExtent? (Row.table ρ) row = some place ∧
      place.length = s.layout.rowSize (Row.table ρ) ∧
      (∃ r ∈ s.regions, r.table = Row.table ρ ∧ r.start ≤ place.offset ∧
        place.offset + place.length ≤ r.start + r.length) ∧
      t.get row = Read.runAt (Row.read s.layout) s.data place.offset ∧
      ∀ other : ByteArray, place.offset + place.length ≤ other.size →
        Agree s.data other place.offset (place.offset + place.length) →
        t.get row = { t with data := other }.get row

theorem Laid.holdsRows {ρ : Type} [Row ρ] [LawfulRow ρ] (h : s.Laid start) : s.HoldsRows ρ where
  isSome filled := by
    rw [h.table?_eq, Option.isSome_map, Option.isSome_iff_ne_none, ne_eq, h.region?_eq_none_iff]
    exact filled
  own t ht row hpos hrow := by
    rw [h.table?_eq, Option.map_eq_some_iff] at ht
    obtain ⟨r, hr, rfl⟩ := ht
    have place := rowExtent?_eq_some_iff.2 ⟨r, hr, ⟨hpos, hrow⟩, rfl⟩
    have inside := (h.rowExtent_inside place).2
    have within := h.row_within hr hpos hrow
    have known : ¬ (row = 0 ∨ s.rowCount (Row.table ρ) < row) := by omega
    obtain ⟨hm, same⟩ := mem_of_region? hr
    refine ⟨_, place, rfl, ⟨r, hm, same, Nat.le_add_right _ _, within⟩, ?_, fun other room agree => ?_⟩
    · rw [RowTable.get, if_neg known]
      rfl
    · exact RowTable.get_eq_of_agree rfl rfl rfl inside room agree

/-- A stream that announces `count` more tables without a known number than another one. It has the
other's known tables, with the same counts, and its widths of heap indexes. -/
structure AddsUnknown (s t : TableStream) (count : Nat) : Prop where
  known : ∀ table : TableId, t.valid.testBit table.number = s.valid.testBit table.number
  tableCount_eq : t.tableCount = s.tableCount + count
  counts : Agree s.data t.data 24 (24 + 4 * Layout.rank s.valid 45)
  flags : littleEndian t.data 6 1 = littleEndian s.data 6 1

theorem AddsUnknown.layout_eq (h : s.AddsUnknown t count) (hs : ofBytes s.data = .ok s)
    (ht : ofBytes t.data = .ok t) : t.layout = s.layout := by
  obtain ⟨-, -, -, -, source, -⟩ := ofBytes_eq_ok_iff.1 hs
  obtain ⟨-, -, -, -, target, -⟩ := ofBytes_eq_ok_iff.1 ht
  obtain ⟨text, guid, blob⟩ := Layout.flags_ofHeader source
  obtain ⟨text', guid', blob'⟩ := Layout.flags_ofHeader target
  rw [h.flags] at text' guid' blob'
  refine Layout.ext_rowCount (fun table => ?_) (text'.trans text.symm) (guid'.trans guid.symm)
    (blob'.trans blob.symm)
  rw [Layout.rowCount_ofHeader source, Layout.rowCount_ofHeader target, h.known table]
  split
  · rename_i present
    -- The unknown tables have the highest numbers, so none of them stands before a known one.
    have before : Layout.rank t.valid table.number = Layout.rank s.valid table.number := by
      refine Layout.rank_congr fun n hn => ?_
      obtain ⟨other, slot⟩ := TableId.exists_slot_eq ⟨n, Nat.lt_trans hn table.number_lt⟩
      obtain rfl : other.number = n := congrArg Fin.val slot
      exact h.known other
    have inside := Layout.rank_lt_rank present table.number_lt
    rw [before]
    exact (h.counts.mono (by omega) (by omega)).littleEndian_eq.symm
  · rfl

theorem AddsUnknown.regions_eq (h : s.AddsUnknown t count) (hs : ofBytes s.data = .ok s)
    (ht : ofBytes t.data = .ok t) : t.regions = s.regions.map (Region.shift (4 * count)) := by
  have source := (laid_ofBytes hs).2.regions_eq
  have target := (laid_ofBytes ht).2.regions_eq
  have start : headerSize t.valid (littleEndian t.data 6 1) =
      headerSize s.valid (littleEndian s.data 6 1) + 4 * count := by
    have more : (Layout.presentNumbers t.valid).length =
        (Layout.presentNumbers s.valid).length + count := h.tableCount_eq
    rw [headerSize, headerSize, h.flags, more]
    omega
  rw [source, target, h.layout_eq hs ht, start, regionsFrom_add]

/-- What is known of a tables stream that was accepted: where its tables and rows stand, that they
stand there whatever other tables it announces, and that rows of all kinds are read from there. -/
theorem ofBytes_placed (h : ofBytes data = .ok s) :
    s.data = data ∧ s.Placed ∧
      (∀ t count, ofBytes t.data = .ok t → s.AddsUnknown t count →
        t.layout = s.layout ∧ t.regions = s.regions.map (Region.shift (4 * count))) ∧
      s.HoldsRows ModuleRow ∧ s.HoldsRows TypeRefRow ∧ s.HoldsRows TypeDefRow ∧
      s.HoldsRows MemberRefRow ∧ s.HoldsRows CustomAttributeRow ∧ s.HoldsRows TypeSpecRow ∧
      s.HoldsRows AssemblyRow ∧ s.HoldsRows AssemblyRefRow ∧ s.HoldsRows NestedClassRow := by
  obtain ⟨rfl, laid⟩ := laid_ofBytes h
  refine ⟨rfl, placed_ofBytes h, fun t count ht adds => ⟨adds.layout_eq h ht, adds.regions_eq h ht⟩,
    ?_⟩
  exact ⟨laid.holdsRows, laid.holdsRows, laid.holdsRows, laid.holdsRows, laid.holdsRows,
    laid.holdsRows, laid.holdsRows, laid.holdsRows, laid.holdsRows⟩

/-- A stream with one row. With `unknown` it announces a table 63 of seven rows, which no kind of rows
is known for. -/
def oneSpec (unknown : Bool) : ByteArray :=
  ⟨#[0, 0, 0, 0, 2, 0, 0, 1, 0, 0, 0, 8, 0, 0, 0, if unknown then 0x80 else 0, 0, 0, 0, 0, 0, 0, 0, 0,
     1, 0, 0, 0] ++ (if unknown then #[7, 0, 0, 0] else #[]) ++ #[5, 0]⟩

/-- The unknown table takes four bytes for its count, and none for its rows. -/
theorem ofBytes_placed_unknown : ∃ s t, ofBytes (oneSpec false) = .ok s ∧
    ofBytes (oneSpec true) = .ok t ∧ s.AddsUnknown t 1 ∧ s.regions = [⟨.typeSpec, 28, 2⟩] ∧
    t.regions = [⟨.typeSpec, 32, 2⟩] ∧ t.Placed ∧ t.HoldsRows TypeSpecRow := by
  have single : (ofBytes (oneSpec false)).toOption.map (fun s => (s.valid, s.regions)) =
      some (0x8000000, [⟨.typeSpec, 28, 2⟩]) := by decide +kernel
  have both : (ofBytes (oneSpec true)).toOption.map (·.valid) = some 0x8000000008000000 := by
    decide +kernel
  obtain ⟨s, hs, single⟩ := Option.map_eq_some_iff.1 single
  obtain ⟨t, ht, both⟩ := Option.map_eq_some_iff.1 both
  rw [toOption_eq_some_iff] at hs ht
  obtain ⟨valid, regions⟩ := Prod.mk.inj single
  obtain ⟨source, -, moved, -⟩ := ofBytes_placed hs
  obtain ⟨target, placed, -, -, -, -, -, -, specs, -⟩ := ofBytes_placed ht
  have adds : s.AddsUnknown t 1 := by
    refine ⟨fun table => ?_, ?_, ?_, ?_⟩
    · rw [valid, both]
      cases table <;> decide
    · rw [tableCount, tableCount, valid, both]
      decide +kernel
    · have rank : Layout.rank 0x8000000 45 = 1 := by decide +kernel
      have count : ∀ i < 4, (oneSpec false)[24 + i]? = (oneSpec true)[24 + i]? := by decide
      rw [valid, source, target, rank]
      intro i hi hj
      obtain ⟨i, rfl⟩ := Nat.exists_eq_add_of_le hi
      exact count i (by omega)
    · rw [source, target]
      decide
  obtain ⟨-, shifted⟩ := moved t 1 (by rw [target, ht]) adds
  rw [regions] at shifted
  exact ⟨s, t, hs, ht, adds, regions, shifted, placed, specs⟩

end TableStream

end FrameworkAudit
