import FrameworkAudit.Assembly.Extract
import FrameworkAudit.Proofs.Metadata.Root
import FrameworkAudit.Proofs.Metadata.TableStream

/-!
Images that differ in the bytes of one row. As long as no stream shares a byte with another one or
with the stream directory, such images are opened alike: the heaps are the same, and the tables stand
in the same places of streams that differ in that row only.
-/

set_option autoImplicit false

namespace FrameworkAudit

open Bytes

namespace Extent

def Covers (e : Extent) (i : Nat) : Prop := e.offset ≤ i ∧ i < e.offset + e.length

def Apart (x y : Extent) : Prop := ∀ i, x.Covers i → ¬ y.Covers i

theorem apart_iff {x y : Extent} :
    x.Apart y ↔ x.length = 0 ∨ y.length = 0 ∨ x.offset + x.length ≤ y.offset ∨
      y.offset + y.length ≤ x.offset := by
  simp only [Apart, Covers]
  constructor
  · intro h
    have later := h (max x.offset y.offset)
    omega
  · intro h i
    omega

instance (x y : Extent) : Decidable (x.Apart y) := decidable_of_iff _ apart_iff.symm

theorem Apart.symm {x y : Extent} (h : x.Apart y) : y.Apart x := fun i hy hx => h i hx hy

end Extent

theorem Bytes.DifferWithin.agree_of_apart {a b : ByteArray} {x y : Extent}
    (h : DifferWithin a b x.offset (x.offset + x.length)) (apart : y.Apart x) :
    Agree a b y.offset (y.offset + y.length) := by
  intro i hle hlt
  have outside : ¬ (x.offset ≤ i ∧ i < x.offset + x.length) := apart i ⟨hle, hlt⟩
  exact h.outside i (by omega)

namespace StreamHeader

def extent (header : StreamHeader) : Extent := ⟨header.offset, header.size⟩

end StreamHeader

namespace Root

/-- No stream shares a byte with another one or with the directory. -/
structure Separate (data : ByteArray) (root : Root) : Prop where
  streams : root.streams.Pairwise fun x y => x.extent.Apart y.extent
  directory : ∀ x ∈ root.streams, x.extent.Apart (root.directory data)

instance (data : ByteArray) (root : Root) : Decidable (Separate data root) :=
  decidable_of_iff _ ⟨fun h => ⟨h.1, h.2⟩, fun h => And.intro h.streams h.directory⟩

/-- The stream that holds the tables: the packed one, or else the editable one. -/
def tablesStream? (root : Root) : Option StreamHeader :=
  (root.stream? .tables).or (root.stream? .editableTables)

variable {data : ByteArray} {root : Root} {x y : StreamHeader}

theorem mem_of_tablesStream? (h : root.tablesStream? = some x) :
    x ∈ root.streams ∧ (x.name = .tables ∨ x.name = .editableTables) := by
  rcases Option.or_eq_some_iff.1 h with h | ⟨-, h⟩
  · exact ⟨(mem_of_stream? h).1, .inl (mem_of_stream? h).2⟩
  · exact ⟨(mem_of_stream? h).1, .inr (mem_of_stream? h).2⟩

theorem Separate.apart (h : root.Separate data) (hx : x ∈ root.streams) (hy : y ∈ root.streams)
    (ne : x.name ≠ y.name) : x.extent.Apart y.extent := by
  have symm : Std.Symm fun x y : StreamHeader => x.extent.Apart y.extent :=
    ⟨fun _ _ => Extent.Apart.symm⟩
  exact List.Pairwise.forall h.streams hx hy fun e => ne (e ▸ rfl)

end Root

namespace Metadata

variable {data damaged : ByteArray} {root : Root} {header : StreamHeader} {m : Metadata}
  {table : TableId} {row : Nat} {place : Extent}

def rowExtent? (data : ByteArray) (table : TableId) (row : Nat) : Option Extent := do
  let root ← (Root.ofBytes data).toOption
  let header ← root.tablesStream?
  let tables ← (TableStream.ofBytes (header.extent.bytes data)).toOption
  let place ← tables.rowExtent? table row
  return ⟨header.offset + place.offset, place.length⟩

theorem ofBytes_eq (opened : Root.ofBytes data = .ok root) (hh : root.tablesStream? = some header) :
    ofBytes data = (do
      let tables ← TableStream.ofBytes (header.extent.bytes data)
      let texts? ← (root.streamData? data .texts).mapM TextHeap.ofBytes
      let blobs? ← (root.streamData? data .blobs).mapM BlobHeap.ofBytes
      return { root, tables, texts?, blobs? }) := by
  have stream : (root.streamData? data .tables).or (root.streamData? data .editableTables) =
      some (header.extent.bytes data) := by
    rw [Root.streamData?_eq opened, Root.streamData?_eq opened, ← Option.map_or]
    exact congrArg (Option.map _) hh
  simp only [ofBytes, opened, bind, Except.bind, stream]

theorem exists_laid [Host] (opened : ofFile data = .ok m) :
    ∃ start, m.tables.Laid start := by
  obtain ⟨extent, -, opened⟩ := bind_eq_ok_iff.1 opened
  obtain ⟨root, -, opened⟩ := bind_eq_ok_iff.1 opened
  dsimp only at opened
  split at opened
  · obtain ⟨tables, ht, opened⟩ := bind_eq_ok_iff.1 opened
    obtain ⟨texts, -, opened⟩ := bind_eq_ok_iff.1 opened
    obtain ⟨blobs, -, opened⟩ := bind_eq_ok_iff.1 opened
    rw [← pure_eq_ok_iff.1 opened]
    exact ⟨_, (TableStream.laid_ofBytes ht).2⟩
  · cases opened

theorem rowExtent?_eq_some_iff :
    rowExtent? data table row = some place ↔
      ∃ root header tables inner, Root.ofBytes data = .ok root ∧ root.tablesStream? = some header ∧
        TableStream.ofBytes (header.extent.bytes data) = .ok tables ∧
        tables.rowExtent? table row = some inner ∧
        place = ⟨header.offset + inner.offset, inner.length⟩ := by
  simp only [rowExtent?, Option.bind_eq_bind, Option.bind_eq_some_iff, toOption_eq_some_iff,
    Option.pure_def, Option.some.injEq, eq_comm (a := place)]
  constructor
  · rintro ⟨root, hr, header, hh, tables, ht, inner, hi, e⟩
    exact ⟨root, header, tables, inner, hr, hh, ht, hi, e⟩
  · rintro ⟨root, header, tables, inner, hr, hh, ht, hi, e⟩
    exact ⟨root, hr, header, hh, tables, ht, inner, hi, e⟩

def withBytes (m : Metadata) (root : Root) (bytes : ByteArray) : Metadata :=
  { m with root, tables := { m.tables with data := bytes } }

structure Damages (m : Metadata) (bytes : ByteArray) (table : TableId) (row : Nat) : Prop where
  laid : ∃ start, m.tables.Laid start
  within : ∃ place, m.tables.rowExtent? table row = some place ∧
    DifferWithin m.tables.data bytes place.offset (place.offset + place.length)

/-- An image whose bytes differ in one row is opened like the other one, up to that row and the
front of the root, or it fails with the same error. -/
theorem ofBytes_of_differ (opened : Root.ofBytes data = .ok root) (separate : root.Separate data)
    (placed : rowExtent? data table row = some place)
    (differ : DifferWithin data damaged place.offset (place.offset + place.length)) :
    ∃ other, Root.ofBytes damaged = .ok other ∧
      ((∃ e, ofBytes data = .error e ∧ ofBytes damaged = .error e) ∨
        ∃ m bytes, ofBytes data = .ok m ∧ ofBytes damaged = .ok (m.withBytes other bytes) ∧
          m.Damages bytes table row) := by
  obtain ⟨_, header, tables, inner, hr, hh, ht, hi, rfl⟩ := rowExtent?_eq_some_iff.1 placed
  obtain rfl : root = _ := Except.ok.inj (opened.symm.trans hr)
  obtain ⟨hm, hn⟩ := Root.mem_of_tablesStream? hh
  have stop := Root.inside_of_ofBytes opened header hm
  obtain ⟨hdata, laid⟩ := TableStream.laid_ofBytes ht
  obtain ⟨behind, inside⟩ := laid.rowExtent_inside hi
  have streamSize : (header.extent.bytes data).size = header.size := by
    simp only [Extent.bytes, StreamHeader.extent, ByteArray.size_extract]
    omega
  rw [hdata, streamSize] at inside
  -- the row lies inside the stream of the tables, so what is apart from the stream is untouched
  have untouched {other : Extent} (apart : header.extent.Apart other) :
      Agree data damaged other.offset (other.offset + other.length) := by
    refine differ.agree_of_apart fun i hother hrow => apart i ?_ hother
    simp only [Extent.Covers, StreamHeader.extent] at hrow ⊢
    omega
  have far : 24 ≤ inner.offset := by
    unfold TableStream.headerSize at behind
    omega
  have reopened := Root.ofBytes_of_agree (Nat.le_of_eq differ.size)
    (differ.agree (.inl (by dsimp only; omega))) (differ.agree (.inl (by dsimp only; omega)))
    (untouched (separate.directory header hm)) opened
  have rows : DifferWithin (header.extent.bytes data) (header.extent.bytes damaged) inner.offset
      (inner.offset + inner.length) :=
    DifferWithin.extract (by rwa [← Nat.add_assoc])
  have retabled := TableStream.ofBytes_of_agree (Nat.le_of_eq rows.size)
    (rows.agree (.inl behind)) ht
  have heap (name : StreamName) (hne : header.name ≠ name) :
      Root.streamData? { Root.front damaged with streams := root.streams } damaged name =
        root.streamData? data name := by
    rw [Root.streamData?_eq reopened, Root.streamData?_eq opened]
    show (root.stream? name).map _ = _
    cases hs : root.stream? name with
    | none => rfl
    | some other =>
      obtain ⟨ho, rfl⟩ := Root.mem_of_stream? hs
      have bound := Root.inside_of_ofBytes opened other ho
      have same := untouched (separate.apart hm ho hne)
      exact congrArg some (same.extract_eq bound (differ.size ▸ bound)).symm
  have damages (texts? : Option TextHeap) (blobs? : Option BlobHeap) :
      Damages ⟨root, tables, texts?, blobs?⟩ (header.extent.bytes damaged) table row :=
    ⟨⟨_, laid⟩, inner, hi, hdata ▸ rows⟩
  refine ⟨_, reopened, ?_⟩
  rw [ofBytes_eq opened hh, ofBytes_eq reopened hh, ht, retabled,
    heap .texts (by rcases hn with hn | hn <;> simp [hn]),
    heap .blobs (by rcases hn with hn | hn <;> simp [hn])]
  cases (root.streamData? data .texts).mapM TextHeap.ofBytes with
  | error e => exact .inl ⟨e, rfl, rfl⟩
  | ok texts? =>
    cases (root.streamData? data .blobs).mapM BlobHeap.ofBytes with
    | error e => exact .inl ⟨e, rfl, rfl⟩
    | ok blobs? => exact .inr ⟨_, _, rfl, rfl, damages texts? blobs?⟩

section

variable {ρ α : Type} [Row ρ] {bytes : ByteArray} {i : Nat}

def decode? (m : Metadata) (resolve : ρ → Except Error α) (row : Nat) : Option α := do
  let table ← m.tables.table? ρ
  ((table.get row).bind resolve).toOption

theorem rowOf_kept (m : Metadata) (resolve : ρ → Except Error α) (row : Nat) :
    Assembly.rowOf (Assembly.kept (m.entries resolve)) row = m.decode? resolve row := by
  unfold entries decode?
  cases m.tables.table? ρ with
  | none => cases row <;> rfl
  | some t =>
    cases row with
    | zero => rfl
    | succ i =>
      simp only [Assembly.rowOf, Assembly.kept, RowTable.toList, List.map_map,
        List.getElem?_toArray, List.getElem?_map]
      by_cases hi : i < t.count
      · simp [hi]
      · have past : t.get (i + 1) = .error (.malformed (.rowOutOfRange (Row.table ρ) (i + 1) t.count)) := by
          rw [RowTable.get, if_pos (by omega)]
        simp [hi, past, Except.bind, Except.toOption]

theorem filterMap_kept {start : Nat} (laid : m.tables.Laid start)
    (resolve : ρ → Except Error α) :
    (Assembly.kept (m.entries resolve)).toList.filterMap id =
      (List.range (m.tables.rowCount (Row.table ρ))).filterMap fun i => m.decode? resolve (i + 1) := by
  unfold entries decode?
  rw [laid.table?_eq]
  cases hr : m.tables.region? (Row.table ρ) with
  | none => simp [Assembly.kept, laid.region?_eq_none_iff.1 hr]
  | some r =>
    simp [Assembly.kept, RowTable.toList, List.filterMap_map]

theorem size_kept {start : Nat} (laid : m.tables.Laid start) (resolve : ρ → Except Error α) :
    (Assembly.kept (m.entries resolve)).size = m.tables.rowCount (Row.table ρ) := by
  unfold entries
  rw [laid.table?_eq]
  cases hr : m.tables.region? (Row.table ρ) with
  | none => simp [Assembly.kept, laid.region?_eq_none_iff.1 hr]
  | some r => simp [Assembly.kept, RowTable.toList]

namespace Damages

theorem laid_withBytes (h : m.Damages bytes table row) :
    ∃ start, (m.withBytes root bytes).tables.Laid start := by
  obtain ⟨start, laid⟩ := h.laid
  obtain ⟨place, -, differ⟩ := h.within
  exact ⟨start, laid.of_size_eq differ.size⟩

theorem table?_eq (h : m.Damages bytes table row) :
    (m.withBytes root bytes).tables.table? ρ =
      (m.tables.table? ρ).map fun t => { t with data := bytes } := by
  obtain ⟨start, laid⟩ := h.laid
  obtain ⟨place, -, differ⟩ := h.within
  exact laid.table?_of_size_eq differ.size

theorem get_eq [LawfulRow ρ] (h : m.Damages bytes table row) {t : RowTable ρ}
    (ht : m.tables.table? ρ = some t) (ne : (Row.table ρ, i) ≠ (table, row)) :
    { t with data := bytes }.get i = t.get i := by
  obtain ⟨start, laid⟩ := h.laid
  obtain ⟨place, hp, differ⟩ := h.within
  refine (laid.get_eq_of_agree ht differ.size fun elsewhere he => ?_).symm
  exact differ.agree (laid.rowExtents_apart hp he ne)

theorem decode?_eq [LawfulRow ρ] (h : m.Damages bytes table row) (resolve : ρ → Except Error α)
    (ne : (Row.table ρ, i) ≠ (table, row)) :
    (m.withBytes root bytes).decode? resolve i = m.decode? resolve i := by
  unfold decode?
  rw [h.table?_eq]
  cases ht : m.tables.table? ρ with
  | none => rfl
  | some t => exact congrArg (fun read => (Except.bind read resolve).toOption) (h.get_eq ht ne)

theorem identity_eq [Host] (h : m.Damages bytes table row) (hmodule : table ≠ .module)
    (hassembly : table ≠ .assembly) : (m.withBytes root bytes).identity = m.identity := by
  unfold identity
  rw [h.table?_eq, h.table?_eq]
  cases ha : m.tables.table? AssemblyRow with
  | some t =>
    have row := h.get_eq ha (i := 1) fun e => hassembly (Prod.mk.inj e).1.symm
    simp only [Option.map_some, row]
    rfl
  | none =>
    cases hm : m.tables.table? ModuleRow with
    | none => rfl
    | some t =>
      have row := h.get_eq hm (i := 1) fun e => hmodule (Prod.mk.inj e).1.symm
      simp only [Option.map_some, Option.map_none, row]
      rfl

end Damages

end

end Metadata

end FrameworkAudit
