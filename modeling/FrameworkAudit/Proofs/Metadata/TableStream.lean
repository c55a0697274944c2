import FrameworkAudit.Container
import FrameworkAudit.Metadata.TableStream
import FrameworkAudit.Proofs.Metadata.Row
import FrameworkAudit.Proofs.Result
import Mathlib.Data.List.Pairwise

set_option autoImplicit false

namespace FrameworkAudit

open Bytes

theorem Layout.readCounts_of_agree {a b : ByteArray} {offset : Nat} {numbers : List Nat}
    {counts : List (TableId × Nat)} (size : a.size ≤ b.size)
    (agree : Agree a b offset (offset + 4 * numbers.length))
    (h : readCounts a offset numbers = .ok counts) : readCounts b offset numbers = .ok counts := by
  induction numbers generalizing offset counts with
  | nil => exact h
  | cons number rest ih =>
    rw [List.length_cons] at agree
    simp only [readCounts, bind_eq_ok_iff] at h ⊢
    obtain ⟨count, hcount, tail, htail, h⟩ := h
    have here := (agree.mono (Nat.le_refl _) (by omega)).word_ok size hcount
    exact ⟨count, here, tail, ih (agree.mono (by omega) (by omega)) htail, h⟩

theorem Layout.ofHeader_of_agree {a b : ByteArray} {valid : Nat} {l : Layout}
    (size : a.size ≤ b.size) (agree : Agree a b 0 (24 + 4 * (presentNumbers valid).length))
    (h : ofHeader a valid = .ok l) : ofHeader b valid = .ok l := by
  simp only [ofHeader, bind_eq_ok_iff] at h ⊢
  obtain ⟨counts, hcounts, flags, hflags, h⟩ := h
  have counted := readCounts_of_agree size (agree.mono (by omega) (by omega)) hcounts
  exact ⟨counts, counted, flags, (agree.mono (by omega) (by omega)).word_ok size hflags, h⟩

def Region.Apart (r q : Region) : Prop :=
  r.start + r.length ≤ q.start ∨ q.start + q.length ≤ r.start

instance : Std.Symm Region.Apart := ⟨fun _ _ => Or.symm⟩

namespace TableStream

variable {a b data : ByteArray} {s : TableStream} {l : Layout} {length start : Nat}
  {tables : List TableId} {regions : List Region} {r : Region}

/-- The regions of tables that stand one after the other from `start` on. A table without rows has
no region. -/
def regionsFrom (l : Layout) (start : Nat) : List TableId → List Region
  | [] => []
  | table :: rest =>
    if l.rowCount table = 0 then regionsFrom l start rest
    else
      let size := l.rowCount table * l.rowSize table
      ⟨table, start, size⟩ :: regionsFrom l (start + size) rest

theorem place_eq_ok_iff :
    place l length start tables = .ok regions ↔
      regions = regionsFrom l start tables ∧ ∀ r ∈ regions, r.start + r.length ≤ length := by
  induction tables generalizing start regions with
  | nil => cases regions <;> simp [place, regionsFrom]
  | cons table rest ih =>
    unfold place regionsFrom
    split
    · exact ih
    · simp only [check_eq_ok_iff, bind_eq_ok_iff, pure_eq_ok_iff, ih, Nat.not_lt]
      constructor
      · rintro ⟨fits, others, ⟨rfl, inside⟩, rfl⟩
        exact ⟨rfl, by simpa using ⟨fits, inside⟩⟩
      · rintro ⟨rfl, inside⟩
        have inside := List.forall_mem_cons.1 inside
        exact ⟨inside.1, _, ⟨rfl, inside.2⟩, rfl⟩

theorem start_le_of_mem (h : r ∈ regionsFrom l start tables) : start ≤ r.start := by
  induction tables generalizing start with
  | nil => cases h
  | cons table rest ih =>
    unfold regionsFrom at h
    split at h
    · exact ih h
    · rcases List.mem_cons.1 h with rfl | h
      · exact Nat.le_refl _
      · exact Nat.le_trans (Nat.le_add_right _ _) (ih h)

theorem length_eq_of_mem (h : r ∈ regionsFrom l start tables) :
    r.length = l.rowCount r.table * l.rowSize r.table := by
  induction tables generalizing start with
  | nil => cases h
  | cons table rest ih =>
    unfold regionsFrom at h
    split at h
    · exact ih h
    · rcases List.mem_cons.1 h with rfl | h
      · rfl
      · exact ih h

theorem pairwise_regionsFrom :
    (regionsFrom l start tables).Pairwise fun r s => r.start + r.length ≤ s.start := by
  induction tables generalizing start with
  | nil => exact .nil
  | cons table rest ih =>
    unfold regionsFrom
    split
    · exact ih
    · exact .cons (fun r hr => start_le_of_mem hr) ih

theorem exists_mem_regionsFrom {table : TableId} :
    (∃ r ∈ regionsFrom l start tables, r.table = table) ↔
      table ∈ tables ∧ l.rowCount table ≠ 0 := by
  induction tables generalizing start with
  | nil => simp [regionsFrom]
  | cons head rest ih =>
    unfold regionsFrom
    split
    · rename_i empty
      rw [ih, List.mem_cons]
      constructor
      · rintro ⟨hm, hc⟩
        exact ⟨.inr hm, hc⟩
      · rintro ⟨rfl | hm, hc⟩
        · exact absurd empty hc
        · exact ⟨hm, hc⟩
    · rename_i filled
      simp only [List.exists_mem_cons_iff, ih]
      rw [List.mem_cons]
      constructor
      · rintro (rfl | ⟨hm, hc⟩)
        · exact ⟨.inl rfl, filled⟩
        · exact ⟨.inr hm, hc⟩
      · rintro ⟨rfl | hm, hc⟩
        · exact .inl rfl
        · exact .inr ⟨hm, hc⟩

theorem ofBytes_eq_ok_iff :
    ofBytes data = .ok s ↔
      ∃ flags, 24 ≤ data.size ∧ word data 8 8 = .ok s.valid ∧ s.valid ≠ 0 ∧
        Layout.ofHeader data s.valid = .ok s.layout ∧ word data 6 1 = .ok flags ∧
        place s.layout data.size (headerSize s.valid flags) TableId.all = .ok s.regions ∧
        word data 4 1 = .ok s.majorVersion ∧ word data 5 1 = .ok s.minorVersion ∧
        word data 16 8 = .ok s.sorted ∧ s.data = data := by
  simp only [ofBytes, check_eq_ok_iff, bind_eq_ok_iff, pure_eq_ok_iff, Nat.not_lt]
  constructor
  · rintro ⟨size, valid, hv, some, layout, hl, flags, hf, regions, hr, major, hj, minor, hn, sorted,
      hs, rfl⟩
    exact ⟨flags, size, hv, some, hl, hf, hr, hj, hn, hs, rfl⟩
  · rintro ⟨flags, size, hv, some, hl, hf, hr, hj, hn, hs, rfl⟩
    exact ⟨size, _, hv, some, _, hl, flags, hf, _, hr, _, hj, _, hn, _, hs, rfl⟩

theorem ofBytes_of_agree (size : a.size ≤ b.size)
    (agree : Agree a b 0 (headerSize s.valid (littleEndian a 6 1))) (h : ofBytes a = .ok s) :
    ofBytes b = .ok { s with data := b } := by
  obtain ⟨flags, bound, hv, some, hl, hf, hr, hj, hn, hs, -⟩ := ofBytes_eq_ok_iff.1 h
  obtain ⟨-, rfl⟩ := word_eq_ok_iff.1 hf
  have fixed : Agree a b 0 (24 + 4 * (Layout.presentNumbers s.valid).length) :=
    agree.mono (Nat.le_refl _) (by unfold headerSize; omega)
  have sees {offset width value : Nat} (hw : offset + width ≤ 24)
      (ha : word a offset width = .ok value) : word b offset width = .ok value :=
    (fixed.mono (Nat.zero_le _) (by omega)).word_ok size ha
  obtain ⟨placed, inside⟩ := place_eq_ok_iff.1 hr
  refine ofBytes_eq_ok_iff.2 ⟨_, by omega, sees (by omega) hv, some,
    Layout.ofHeader_of_agree size fixed hl, sees (by omega) hf, ?_, sees (by omega) hj,
    sees (by omega) hn, sees (by omega) hs, rfl⟩
  exact place_eq_ok_iff.2 ⟨placed, fun r hr => Nat.le_trans (inside r hr) size⟩

/-- The tables that have rows stand one after the other from `start` on, inside the data. -/
structure Laid (s : TableStream) (start : Nat) : Prop where
  regions_eq : s.regions = regionsFrom s.layout start TableId.all
  inside : ∀ r ∈ s.regions, r.start + r.length ≤ s.data.size

theorem laid_ofBytes (h : ofBytes data = .ok s) :
    s.data = data ∧ s.Laid (headerSize s.valid (littleEndian data 6 1)) := by
  obtain ⟨flags, -, -, -, -, hf, hr, -, -, -, rfl⟩ := ofBytes_eq_ok_iff.1 h
  obtain ⟨-, rfl⟩ := word_eq_ok_iff.1 hf
  obtain ⟨placed, inside⟩ := place_eq_ok_iff.1 hr
  exact ⟨rfl, placed, inside⟩

def rowExtent? (s : TableStream) (table : TableId) (row : Nat) : Option Extent := do
  let region ← s.region? table
  if 0 < row ∧ row ≤ s.rowCount table then
    some ⟨region.start + (row - 1) * s.layout.rowSize table, s.layout.rowSize table⟩
  else none

section

variable {table other : TableId} {row i : Nat} {place : Extent}

theorem row_end_le {j width : Nat} (h : i < j) : i * width + width ≤ j * width := by
  rw [← Nat.succ_mul]
  exact Nat.mul_le_mul_right width h

theorem mem_of_region? (h : s.region? table = some r) : r ∈ s.regions ∧ r.table = table :=
  ⟨List.mem_of_find?_eq_some h, by simpa using List.find?_some h⟩

theorem rowExtent?_eq_some_iff :
    s.rowExtent? table row = some place ↔
      ∃ r, s.region? table = some r ∧ (0 < row ∧ row ≤ s.rowCount table) ∧
        place = ⟨r.start + (row - 1) * s.layout.rowSize table, s.layout.rowSize table⟩ := by
  simp [rowExtent?, Option.bind_eq_some_iff, eq_comm (a := place)]

namespace Laid

theorem region?_eq_none_iff (h : s.Laid start) : s.region? table = none ↔ s.rowCount table = 0 := by
  have filled : (∃ r ∈ s.regions, r.table = table) ↔ s.layout.rowCount table ≠ 0 := by
    rw [h.regions_eq, exists_mem_regionsFrom]
    simp only [TableId.mem_all, true_and]
  rw [region?, List.find?_eq_none, rowCount, ← not_iff_not, ← ne_eq (Layout.rowCount _ _), ← filled]
  simp

theorem row_within (h : s.Laid start) (hr : s.region? table = some r) (hpos : 0 < row)
    (hrow : row ≤ s.rowCount table) :
    r.start + (row - 1) * s.layout.rowSize table + s.layout.rowSize table ≤ r.start + r.length := by
  obtain ⟨hm, rfl⟩ := mem_of_region? hr
  have before : (row - 1) * s.layout.rowSize r.table + s.layout.rowSize r.table ≤
      s.rowCount r.table * s.layout.rowSize r.table :=
    row_end_le (by omega)
  have length : r.length = s.rowCount r.table * s.layout.rowSize r.table :=
    length_eq_of_mem (h.regions_eq ▸ hm)
  omega

theorem rowExtent_inside (h : s.Laid start) (hp : s.rowExtent? table row = some place) :
    start ≤ place.offset ∧ place.offset + place.length ≤ s.data.size := by
  obtain ⟨r, hr, ⟨hpos, hrow⟩, rfl⟩ := rowExtent?_eq_some_iff.1 hp
  have within := h.row_within hr hpos hrow
  have inside := h.inside r (mem_of_region? hr).1
  have first : start ≤ r.start := start_le_of_mem (h.regions_eq ▸ (mem_of_region? hr).1)
  dsimp only
  omega

theorem regions_apart (h : s.Laid start) {q : Region} (hr : r ∈ s.regions) (hq : q ∈ s.regions)
    (ne : r ≠ q) : r.Apart q := by
  have apart : s.regions.Pairwise Region.Apart := by
    rw [h.regions_eq]
    exact pairwise_regionsFrom.imp Or.inl
  exact apart.forall hr hq ne

theorem rowExtents_apart (h : s.Laid start) {elsewhere : Extent}
    (hp : s.rowExtent? table row = some place) (he : s.rowExtent? other i = some elsewhere)
    (ne : (other, i) ≠ (table, row)) :
    elsewhere.offset + elsewhere.length ≤ place.offset ∨
      place.offset + place.length ≤ elsewhere.offset := by
  obtain ⟨r, hr, ⟨hpos, hrow⟩, rfl⟩ := rowExtent?_eq_some_iff.1 hp
  obtain ⟨q, hq, ⟨ipos, hi⟩, rfl⟩ := rowExtent?_eq_some_iff.1 he
  by_cases same : other = table
  · subst same
    obtain rfl : q = r := Option.some.inj (hq.symm.trans hr)
    have hne : i ≠ row := fun e => ne (by rw [e])
    dsimp only
    rcases Nat.lt_or_gt_of_ne hne with hlt | hgt
    · have before : (i - 1) * s.layout.rowSize other + s.layout.rowSize other ≤
          (row - 1) * s.layout.rowSize other := row_end_le (by omega)
      omega
    · have before : (row - 1) * s.layout.rowSize other + s.layout.rowSize other ≤
          (i - 1) * s.layout.rowSize other := row_end_le (by omega)
      omega
  · have rowWithin := h.row_within hr hpos hrow
    have otherWithin := h.row_within hq ipos hi
    obtain ⟨hrm, hrt⟩ := mem_of_region? hr
    obtain ⟨hqm, hqt⟩ := mem_of_region? hq
    have distinct : r ≠ q := fun e => same (by rw [← hqt, ← hrt, e])
    have apart := h.regions_apart hrm hqm distinct
    simp only [Region.Apart] at apart ⊢
    omega

variable {ρ : Type} [Row ρ]

theorem table?_eq (h : s.Laid start) :
    s.table? ρ = (s.region? (Row.table ρ)).map fun r =>
      ⟨s.data, r.start, s.rowCount (Row.table ρ), s.layout⟩ := by
  unfold table?
  cases hr : s.region? (Row.table ρ) with
  | none => rfl
  | some r =>
    obtain ⟨hm, ht⟩ := mem_of_region? hr
    have inside := h.inside r hm
    have length : r.length = s.rowCount r.table * s.layout.rowSize r.table :=
      length_eq_of_mem (h.regions_eq ▸ hm)
    rw [ht] at length
    have room : ¬ s.data.size - r.start < s.rowCount (Row.table ρ) * s.layout.rowSize (Row.table ρ) := by
      omega
    simp [RowTable.ofBytes, RowTable.size, RowTable.rowSize, room, Except.toOption]

theorem of_size_eq (h : s.Laid start) (size : s.data.size = b.size) :
    Laid { s with data := b } start :=
  ⟨h.regions_eq, size ▸ h.inside⟩

theorem table?_of_size_eq (h : s.Laid start) (size : s.data.size = b.size) :
    { s with data := b }.table? ρ = (s.table? ρ).map fun t => { t with data := b } := by
  rw [h.table?_eq, (h.of_size_eq size).table?_eq, Option.map_map]
  rfl

theorem get_eq_of_agree [LawfulRow ρ] (h : s.Laid start) {t : RowTable ρ}
    (ht : s.table? ρ = some t) (size : s.data.size = b.size)
    (agree : ∀ place, s.rowExtent? (Row.table ρ) row = some place →
      Agree s.data b place.offset (place.offset + place.length)) :
    t.get row = { t with data := b }.get row := by
  rw [h.table?_eq, Option.map_eq_some_iff] at ht
  obtain ⟨r, hr, rfl⟩ := ht
  by_cases hrow : 0 < row ∧ row ≤ s.rowCount (Row.table ρ)
  · have place := rowExtent?_eq_some_iff.2 ⟨r, hr, hrow, rfl⟩
    have inside := (h.rowExtent_inside place).2
    exact RowTable.get_eq_of_agree rfl rfl rfl inside (size ▸ inside) (agree _ place)
  · have outside : row = 0 ∨ s.rowCount (Row.table ρ) < row := by omega
    unfold RowTable.get
    rw [if_pos outside, if_pos outside]

end Laid

end

end TableStream

end FrameworkAudit
