import FrameworkAudit.Proofs.Metadata.Columns
import Mathlib.Logic.Basic

/-!
The widths of indexes. An index takes four bytes as soon as there is a row that two bytes cannot
name, with its tag if it has one, so that every row of a table has a number that its column is wide
enough for, and is read back from it.
-/

set_option autoImplicit false

namespace FrameworkAudit

namespace CodedKind

theorem tagBits_le (kind : CodedKind) : kind.tagBits ≤ 5 := by
  cases kind <;> decide

end CodedKind

namespace CodedIndex

variable {kind : CodedKind} {tag row width : Nat}

theorem shiftLeft_or_eq_pack (h : tag < kind.tagCount) :
    row <<< kind.tagBits ||| tag = pack kind tag row := by
  rw [CodedKind.tagCount, Nat.one_shiftLeft] at h
  rw [← Nat.shiftLeft_add_eq_or_of_lt h, pack, CodedKind.tagCount, Nat.shiftLeft_eq,
    Nat.one_shiftLeft]

theorem pack_lt (h : tag < kind.tagCount) (bits : kind.tagBits ≤ width)
    (fits : row < 1 <<< (width - kind.tagBits)) : pack kind tag row < 1 <<< width := by
  have split : 1 <<< width = 1 <<< (width - kind.tagBits) * kind.tagCount := by
    rw [CodedKind.tagCount, Nat.one_shiftLeft, Nat.one_shiftLeft, Nat.one_shiftLeft, ← Nat.pow_add,
      Nat.sub_add_cancel bits]
  calc pack kind tag row < row * kind.tagCount + kind.tagCount := Nat.add_lt_add_left h _
    _ = (row + 1) * kind.tagCount := (Nat.succ_mul _ _).symm
    _ ≤ 1 <<< (width - kind.tagBits) * kind.tagCount := Nat.mul_le_mul_right _ fits
    _ = 1 <<< width := split.symm

end CodedIndex

namespace Layout

open Read

variable {l : Layout} {kind : CodedKind} {table : TableId} {tag row : Nat}

theorem lt_foldl_max_iff {xs : List Nat} {a b : Nat} :
    b < xs.foldl max a ↔ b < a ∨ ∃ x ∈ xs, b < x := by
  have greatest : (a :: xs).max? = some (xs.foldl max a) := List.max?_cons'
  obtain ⟨attained, bound⟩ := List.max?_eq_some_iff.1 greatest
  rw [List.mem_cons] at attained
  rw [List.forall_mem_cons] at bound
  constructor
  · intro h
    rcases attained with first | later
    · exact .inl (first ▸ h)
    · exact .inr ⟨_, later, h⟩
  · rintro (h | ⟨x, hx, h⟩)
    · exact Nat.lt_of_lt_of_le h bound.1
    · exact Nat.lt_of_lt_of_le h (bound.2 x hx)

/-- Row numbers need more than `n` bits if there are as many rows as `n` bits have numbers. -/
theorem lt_bitsFor_iff {n rows : Nat} (h : 0 < n) : n < bitsFor rows ↔ 1 <<< n ≤ rows := by
  rw [bitsFor, Nat.lt_add_one_iff, Nat.one_shiftLeft]
  by_cases empty : rows = 0
  · have some := Nat.two_pow_pos n
    rw [empty, Nat.log2_zero]
    omega
  · exact Nat.le_log2 empty

theorem lt_codedBits_iff {width : Nat} (h : kind.tagBits + 1 < width) :
    width < l.codedBits kind ↔
      ∃ table ∈ kind.tables, 1 <<< (width - kind.tagBits) ≤ l.rowCount table := by
  have apart : width < l.codedBits kind ↔ width - kind.tagBits <
      (kind.tables.map fun table => bitsFor (l.rowCount table)).foldl max 1 := by
    unfold codedBits
    omega
  rw [apart, lt_foldl_max_iff, or_iff_right (by omega)]
  simp only [List.mem_map, exists_exists_and_eq_and]
  exact exists_congr fun table => and_congr_right fun _ => lt_bitsFor_iff (by omega)

theorem codedBytes_eq (l : Layout) (kind : CodedKind) :
    l.codedBytes kind =
      if ∃ table ∈ kind.tables, 1 <<< (16 - kind.tagBits) ≤ l.rowCount table then 4 else 2 := by
  have bits := kind.tagBits_le
  unfold codedBytes indexBytes
  exact if_congr (lt_codedBits_iff (by omega)) rfl rfl

theorem pack_lt_of_le_rowCount (selects : kind.tables[tag]? = some table)
    (known : row ≤ l.rowCount table) (fits : row < 1 <<< (32 - kind.tagBits)) :
    CodedIndex.pack kind tag row < 1 <<< (8 * l.codedBytes kind) := by
  have bits := kind.tagBits_le
  obtain ⟨small, here⟩ := List.getElem?_eq_some_iff.1 selects
  have member : table ∈ kind.tables := here ▸ List.getElem_mem small
  have small : tag < kind.tagCount := Nat.lt_of_lt_of_le small kind.length_tables_le
  rw [codedBytes_eq]
  split
  · exact CodedIndex.pack_lt small (by omega) fits
  · rename_i few
    have rows : l.rowCount table < 1 <<< (16 - kind.tagBits) :=
      Nat.lt_of_not_le fun many => few ⟨table, member, many⟩
    exact CodedIndex.pack_lt small (by omega) (Nat.lt_of_le_of_lt known rows)

/-- The widths of indexes follow the row counts: two bytes name fewer than 2 ^ 16 rows, less the
bits of a tag. So every row of a table that four bytes can name at all has a raw value that fits
into the column, and the row is read back from that value wherever it was written. -/
theorem widths_by_rows (l : Layout) :
    (∀ table, l.rowBytes table = (if 0x10000 ≤ l.rowCount table then 4 else 2) ∧
      (l.isLarge table = true ↔ 0x10000 ≤ l.rowCount table)) ∧
    (∀ kind, l.codedBytes kind =
      if ∃ table ∈ kind.tables, 1 <<< (16 - kind.tagBits) ≤ l.rowCount table then 4 else 2) ∧
    ∀ (kind : CodedKind) (tag row : Nat) (table : TableId), kind.tables[tag]? = some table →
      row ≤ l.rowCount table → row < 1 <<< (32 - kind.tagBits) →
      row <<< kind.tagBits ||| tag < 1 <<< (8 * l.codedBytes kind) ∧
        ∀ c : Cursor, c.Next (Bytes.ofNat (l.codedBytes kind) (row <<< kind.tagBits ||| tag)) →
          l.readCoded kind c = .ok ⟨table, row⟩ (c.advance (l.codedBytes kind)) := by
  have large (table : TableId) : l.isLarge table = true ↔ 0x10000 ≤ l.rowCount table := by
    rw [isLarge, decide_eq_true_iff]
    omega
  refine ⟨fun table => ⟨?_, large table⟩, l.codedBytes_eq, ?_⟩
  · rw [rowBytes_eq]
    exact if_congr (large table) rfl rfl
  · intro kind tag row table selects known fits
    obtain ⟨small, here⟩ := List.getElem?_eq_some_iff.1 selects
    rw [CodedIndex.shiftLeft_or_eq_pack (Nat.lt_of_lt_of_le small kind.length_tables_le)]
    have narrow := pack_lt_of_le_rowCount selects known fits
    refine ⟨narrow, fun c next => ?_⟩
    have some : 0 < l.codedBytes kind := by
      rw [codedBytes_eq]
      split <;> decide
    have room := next.length_le_remaining
    rw [Bytes.length_ofNat, Cursor.remaining] at room
    have codes : (Column.coded kind).Codes (CodedIndex.pack kind tag row) ⟨table, row⟩ :=
      ⟨tag, selects, rfl⟩
    exact readColumn_of_next codes narrow
      (show c.pos + l.codedBytes kind ≤ c.data.size by omega) next

/-- With 2 ^ 14 references to assemblies a scope takes four bytes, as the last of them would not fit
into two. -/
theorem widths_by_rows_scope :
    let l := ofCounts [(.assemblyRef, 0x4000)] false false false
    CodedKind.resolutionScope.tables[2]? = some .assemblyRef ∧
      0x4000 ≤ l.rowCount .assemblyRef ∧ 0x4000 < 1 <<< (32 - CodedKind.resolutionScope.tagBits) ∧
      0x4000 <<< CodedKind.resolutionScope.tagBits ||| 2 = 0x10002 ∧
      l.codedBytes .resolutionScope = 4 ∧
      l.readCoded .resolutionScope ⟨⟨#[7, 2, 0, 1, 0]⟩, 1⟩ =
        .ok ⟨.assemblyRef, 0x4000⟩ ⟨⟨#[7, 2, 0, 1, 0]⟩, 5⟩ := by
  intro l
  have selects : CodedKind.resolutionScope.tables[2]? = some .assemblyRef := rfl
  have known : 0x4000 ≤ l.rowCount .assemblyRef := by decide
  have fits : 0x4000 < 1 <<< (32 - CodedKind.resolutionScope.tagBits) := by decide
  have width : l.codedBytes .resolutionScope = 4 := by decide
  obtain ⟨-, read⟩ :=
    (widths_by_rows l).2.2 .resolutionScope 2 0x4000 .assemblyRef selects known fits
  refine ⟨selects, known, fits, rfl, width, ?_⟩
  rw [width] at read
  exact read ⟨⟨#[7, 2, 0, 1, 0]⟩, 1⟩ (by unfold Cursor.Next; decide)

end Layout

end FrameworkAudit
