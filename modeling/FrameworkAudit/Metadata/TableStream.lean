import FrameworkAudit.Metadata.RowTable

/-!
The tables stream: a header with the vector of present tables, their row counts and the heap flags,
followed by the rows of the tables in the order of their numbers.
-/

set_option autoImplicit false

namespace FrameworkAudit

structure Region where
  table : TableId
  start : Nat
  length : Nat
  deriving DecidableEq, Repr

structure TableStream where
  data : ByteArray
  majorVersion : Nat
  minorVersion : Nat
  valid : Nat
  sorted : Nat
  layout : Layout
  regions : List Region

namespace TableStream

/-- Lays out tables one after the other from `start`; none may pass the end of the stream. -/
def place (layout : Layout) (length : Nat) (start : Nat) :
    List TableId → Except Error (List Region)
  | [] => .ok []
  | table :: rest => do
    if layout.rowCount table = 0 then
      place layout length start rest
    else
      let size := layout.rowCount table * layout.rowSize table
      if length < start + size then
        throw (.malformed (.tablePastEnd table (start + size) length))
      let regions ← place layout length (start + size) rest
      return ⟨table, start, size⟩ :: regions

/-- The first byte after the header: 24 bytes, a count for each present table, and four bytes more
if the flags announce them. -/
def headerSize (valid flags : Nat) : Nat :=
  24 + 4 * (Layout.presentNumbers valid).length + if flags.testBit 6 then 4 else 0

def ofBytes (data : ByteArray) : Except Error TableStream := do
  if data.size < 24 then throw .outOfBounds
  let valid ← Bytes.word data 8 8
  if valid = 0 then throw (.malformed .noTables)
  let layout ← Layout.ofHeader data valid
  let flags ← Bytes.word data 6 1
  let regions ← place layout data.size (headerSize valid flags) TableId.all
  return {
    data, valid, layout, regions
    majorVersion := ← Bytes.word data 4 1
    minorVersion := ← Bytes.word data 5 1
    sorted := ← Bytes.word data 16 8 }

def tableCount (s : TableStream) : Nat := (Layout.presentNumbers s.valid).length

def region? (s : TableStream) (table : TableId) : Option Region :=
  s.regions.find? fun region => region.table == table

def hasTable (s : TableStream) (table : TableId) : Bool := (s.region? table).isSome

def rowCount (s : TableStream) (table : TableId) : Nat := s.layout.rowCount table

def table? (s : TableStream) (ρ : Type) [Row ρ] : Option (RowTable ρ) := do
  let region ← s.region? (Row.table ρ)
  (RowTable.ofBytes s.data region.start (s.rowCount (Row.table ρ)) s.layout).toOption

end TableStream

end FrameworkAudit
