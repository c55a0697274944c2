import FrameworkAudit.Metadata.Layout
import FrameworkAudit.Proofs.Cursor

/-!
Columns in general. A layout reads any list of columns, one after the other, and gives the list a
size. The read takes exactly this size, only the tag of a coded index can make it fail, and it gives
back what was written in columns of the layout's widths.
-/

set_option autoImplicit false

namespace FrameworkAudit

open Bytes

namespace Bytes

def ofNat : Nat → Nat → List UInt8
  | 0, _ => []
  | width + 1, n => UInt8.ofNat n :: ofNat width (n / 256)

@[simp] theorem length_ofNat (width n : Nat) : (ofNat width n).length = width := by
  induction width generalizing n with
  | zero => rfl
  | succ width ih => rw [ofNat, List.length_cons, ih]

theorem littleEndian_of_next {c : Cursor} {width n : Nat} (h : c.Next (ofNat width n))
    (fits : n < 1 <<< (8 * width)) : littleEndian c.data c.pos width = n := by
  induction width generalizing c n with
  | zero =>
    have zero : n = 0 := by simpa using fits
    rw [zero, littleEndian]
  | succ width ih =>
    -- The lowest byte comes first, and the bytes behind it are those of the number without it.
    have high : n / 256 < 1 <<< (8 * width) := by
      rw [Nat.mul_succ, Nat.shiftLeft_add, Nat.shiftLeft_eq _ 8] at fits
      omega
    have rest : littleEndian c.data (c.pos + 1) width = n / 256 := ih h.tail high
    rw [littleEndian, h.byte, rest, Option.getD_some, UInt8.toNat_ofNat']
    exact Nat.mod_add_div n 256

theorem next_ofNat_littleEndian {c : Cursor} {width : Nat} (room : c.pos + width ≤ c.data.size) :
    c.Next (ofNat width (littleEndian c.data c.pos width)) := by
  induction width generalizing c with
  | zero => exact fun i hi => absurd hi (Nat.not_lt_zero i)
  | succ width ih =>
    obtain ⟨b, byte⟩ : ∃ b, c.data[c.pos]? = some b := ⟨_, getElem?_pos c.data c.pos (by omega)⟩
    have small := b.toNat_lt
    have rest := ih (c := c.advance 1) (by simp only [Cursor.advance]; omega)
    have number : littleEndian c.data c.pos (width + 1) =
        b.toNat + 256 * littleEndian (c.advance 1).data (c.advance 1).pos width := by
      rw [littleEndian, byte]
      rfl
    have low : UInt8.ofNat (littleEndian c.data c.pos (width + 1)) = b := by
      rw [← UInt8.toNat_inj, UInt8.toNat_ofNat', number]
      omega
    have high : littleEndian c.data c.pos (width + 1) / 256 =
        littleEndian (c.advance 1).data (c.advance 1).pos width := by omega
    rw [ofNat, low, high]
    exact Cursor.next_cons_iff.2 ⟨byte, rest⟩

theorem word_eq_ok_iff_next {c : Cursor} {width n : Nat} (some : 0 < width) :
    word c.data c.pos width = .ok n ↔ n < 1 <<< (8 * width) ∧ c.Next (ofNat width n) := by
  rw [word_eq_ok_iff]
  constructor
  · rintro ⟨room, rfl⟩
    exact ⟨littleEndian_lt _ _ _, next_ofNat_littleEndian room⟩
  · rintro ⟨fits, h⟩
    have room := h.length_le_remaining
    rw [length_ofNat, Cursor.remaining] at room
    exact ⟨by omega, (littleEndian_of_next h fits).symm⟩

end Bytes

theorem Read.word_ok_iff_next {c d : Cursor} {width n : Nat} (some : 0 < width) :
    word width c = .ok n d ↔ (n < 1 <<< (8 * width) ∧ c.Next (ofNat width n)) ∧ d = c.advance width := by
  rw [word_ok_iff, ← word_eq_ok_iff_next some, word_eq_ok_iff, and_assoc]
  rfl

namespace Column

abbrev Value : Column → Type
  | .fixed _ | .text | .guid | .blob | .row _ => Nat
  | .coded _ => CodedIndex

abbrev Values : List Column → Type
  | [] => Unit
  | column :: rest => column.Value × Values rest

def decode? : (column : Column) → Nat → Option column.Value
  | .fixed _, n | .text, n | .guid, n | .blob, n | .row _, n => some n
  | .coded kind, n => CodedIndex.decode? kind n

/-- Whether a number stands for a value. A coded index may stand in a column under any tag that
selects its table. -/
def Codes : (column : Column) → Nat → column.Value → Prop
  | .fixed _, n, value | .text, n, value | .guid, n, value | .blob, n, value | .row _, n, value =>
    n = value
  | .coded kind, n, index =>
    ∃ tag, kind.tables[tag]? = some index.table ∧ n = CodedIndex.pack kind tag index.row

def HasBadTag : Column → Nat → Prop
  | .fixed _, _ | .text, _ | .guid, _ | .blob, _ | .row _, _ => False
  | .coded kind, n => kind.tables.length ≤ n % kind.tagCount

theorem decode?_of_codes {column : Column} {n : Nat} {value : column.Value}
    (h : column.Codes n value) : column.decode? n = some value := by
  cases column with
  | coded kind =>
    obtain ⟨tag, selects, rfl⟩ := h
    obtain ⟨known, table⟩ := List.getElem?_eq_some_iff.1 selects
    rw [decode?, CodedIndex.decode?_pack kind tag _ known, table]
  | _ => exact congrArg some h

theorem decode?_eq_none_iff {column : Column} {n : Nat} :
    column.decode? n = none ↔ column.HasBadTag n := by
  cases column with
  | coded kind =>
    show (kind.tables[n % kind.tagCount]?.map _) = none ↔ _
    rw [Option.map_eq_none_iff, List.getElem?_eq_none_iff, HasBadTag]
  | _ => simp [decode?, HasBadTag]

end Column

namespace Layout

open Read Column

variable (l : Layout)

theorem rowBytes_eq (table : TableId) : l.rowBytes table = if l.isLarge table then 4 else 2 := by
  -- Row numbers of more than 16 bits are those that two bytes cannot hold.
  have bits : 16 < bitsFor (l.rowCount table) ↔ 0xFFFF < l.rowCount table := by
    by_cases h : l.rowCount table = 0
    · simp [bitsFor, h]
    · rw [bitsFor, Nat.lt_add_one_iff, Nat.le_log2 h]
      omega
  simp [rowBytes, indexBytes, isLarge, bits]

def columnsSize (columns : List Column) : Nat :=
  columns.foldr (fun column size => l.columnBytes column + size) 0

theorem columnsSize_cons (column : Column) (rest : List Column) :
    l.columnsSize (column :: rest) = l.columnBytes column + l.columnsSize rest := rfl

def readColumn : (column : Column) → Read column.Value
  | .fixed width => word width
  | .text => l.readText
  | .guid => l.readGuid
  | .blob => l.readBlob
  | .row table => l.readRow table
  | .coded kind => l.readCoded kind

def readValues : (columns : List Column) → Read (Values columns)
  | [] => pure ()
  | column :: rest => do
    let value ← l.readColumn column
    (value, ·) <$> readValues rest

theorem readColumn_eq (column : Column) :
    l.readColumn column = word (l.columnBytes column) >>= fun n =>
      match column.decode? n with
      | some value => pure value
      | none => throw .outOfBounds := by
  cases column with
  | coded kind =>
    refine bind_congr fun n => ?_
    dsimp only [decode?]
    cases CodedIndex.decode? kind n <;> rfl
  | row table =>
    rw [columnBytes, rowBytes_eq]
    exact (bind_pure _).symm
  | _ => exact (bind_pure _).symm

theorem takes_readColumn (column : Column) :
    Takes (l.columnBytes column) (l.readColumn column) := by
  rw [readColumn_eq]
  refine (takes_word _).bind (n := 0) fun n => ?_
  split
  · exact takes_pure _
  · exact takes_throw _

theorem takes_readValues (columns : List Column) :
    Takes (l.columnsSize columns) (l.readValues columns) := by
  induction columns with
  | nil => exact takes_pure ()
  | cons column rest ih =>
    exact (l.takes_readColumn column).bind fun _ => ih.map

variable {l} {c : Cursor} {column : Column} {columns : List Column}

theorem fails_readColumn_iff (room : c.pos + l.columnBytes column ≤ c.data.size) :
    (l.readColumn column).Fails c ↔
      column.HasBadTag (littleEndian c.data c.pos (l.columnBytes column)) := by
  rw [readColumn_eq, Fails, bind_apply, word_of_room room, ← decode?_eq_none_iff]
  dsimp only
  cases column.decode? (littleEndian c.data c.pos (l.columnBytes column)) with
  | none => exact ⟨fun _ => rfl, fun _ => ⟨_, _, rfl⟩⟩
  | some value => exact ⟨fun h => absurd h (not_fails_pure value),
      fun h => absurd h (Option.some_ne_none value)⟩

/-- Whether one of the columns from `offset` on has a tag that selects no table. -/
def HasBadTag (l : Layout) (data : ByteArray) : Nat → List Column → Prop
  | _, [] => False
  | offset, column :: rest =>
    column.HasBadTag (littleEndian data offset (l.columnBytes column)) ∨
      HasBadTag l data (offset + l.columnBytes column) rest

/-- Only a tag that selects no table keeps columns from being read, wherever it stands. -/
theorem fails_readValues_iff (room : c.pos + l.columnsSize columns ≤ c.data.size) :
    (l.readValues columns).Fails c ↔ l.HasBadTag c.data c.pos columns := by
  induction columns generalizing c with
  | nil => exact ⟨fun h => absurd h (not_fails_pure _), False.elim⟩
  | cons column rest ih =>
    rw [columnsSize_cons] at room
    have here : c.pos + l.columnBytes column ≤ c.data.size := by omega
    have behind : c.pos + l.columnBytes column + l.columnsSize rest ≤ c.data.size := by omega
    rw [readValues, HasBadTag, ← fails_readColumn_iff here]
    exact (l.takes_readColumn column).fails_bind_iff here fun value =>
      fails_map_iff.trans (ih (c := c.advance (l.columnBytes column)) behind)

def Encodes (l : Layout) : (columns : List Column) → List Nat → Values columns → Prop
  | [], [], () => True
  | column :: rest, n :: numbers, (value, values) =>
    (column.Codes n value ∧ n < 1 <<< (8 * l.columnBytes column)) ∧ Encodes l rest numbers values
  | _, _, _ => False

def write (l : Layout) : List Column → List Nat → List UInt8
  | column :: rest, n :: numbers => Bytes.ofNat (l.columnBytes column) n ++ write l rest numbers
  | _, _ => []

theorem length_write {numbers : List Nat} {values : Values columns}
    (h : l.Encodes columns numbers values) :
    (l.write columns numbers).length = l.columnsSize columns := by
  induction columns generalizing numbers with
  | nil => simp [write, columnsSize]
  | cons column rest ih =>
    cases numbers with
    | nil => exact h.elim
    | cons n numbers =>
      rw [write, List.length_append, length_ofNat, ih h.2, columnsSize_cons]

theorem readColumn_of_next {n : Nat} {value : column.Value} (codes : column.Codes n value)
    (fits : n < 1 <<< (8 * l.columnBytes column)) (room : c.pos + l.columnBytes column ≤ c.data.size)
    (h : c.Next (Bytes.ofNat (l.columnBytes column) n)) :
    l.readColumn column c = .ok value (c.advance (l.columnBytes column)) := by
  rw [readColumn_eq, bind_apply, word_of_room room, littleEndian_of_next h fits]
  dsimp only
  rw [decode?_of_codes codes]
  rfl

theorem readValues_of_next {numbers : List Nat} {values : Values columns}
    (encodes : l.Encodes columns numbers values)
    (room : c.pos + l.columnsSize columns ≤ c.data.size) (h : c.Next (l.write columns numbers)) :
    l.readValues columns c = .ok values (c.advance (l.columnsSize columns)) := by
  induction columns generalizing c numbers with
  | nil => rfl
  | cons column rest ih =>
    cases numbers with
    | nil => exact encodes.elim
    | cons n numbers =>
      obtain ⟨value, values⟩ := values
      obtain ⟨⟨codes, fits⟩, encodes⟩ := encodes
      rw [columnsSize_cons] at room
      have here : c.pos + l.columnBytes column ≤ c.data.size := by omega
      have behind : c.pos + l.columnBytes column + l.columnsSize rest ≤ c.data.size := by omega
      have first := readColumn_of_next codes fits here h.left
      have next := h.right
      rw [length_ofNat] at next
      have later := ih encodes (c := c.advance (l.columnBytes column)) behind next
      rw [readValues, bind_apply, first]
      dsimp only
      rw [map_apply, later, Cursor.advance_advance]
      rfl

end Layout

end FrameworkAudit
