import FrameworkAudit.Cursor
import FrameworkAudit.Metadata.CodedIndex

/-!
The layout of an image's tables. A column is two or four bytes wide according to the number of rows
that it may refer to, or to a flag for each heap, so the size of a row follows from the row counts
of all tables and three flags.
-/

set_option autoImplicit false

namespace FrameworkAudit

inductive Column where
  /-- A number of a given width in bytes. -/
  | fixed (width : Nat)
  | text
  | guid
  | blob
  | row (table : TableId)
  | coded (kind : CodedKind)
  deriving DecidableEq, Repr

def TableId.columns : TableId → List Column
  | .module => [.fixed 2, .text, .guid, .guid, .guid]
  | .typeRef => [.coded .resolutionScope, .text, .text]
  | .typeDef =>
    [.fixed 4, .text, .text, .coded .typeDefOrRef, .row .field, .row .methodDef]
  | .fieldPtr => [.row .field]
  | .field => [.fixed 2, .text, .blob]
  | .methodPtr => [.row .methodDef]
  | .methodDef => [.fixed 4, .fixed 2, .fixed 2, .text, .blob, .row .param]
  | .paramPtr => [.row .param]
  | .param => [.fixed 2, .fixed 2, .text]
  | .interfaceImpl => [.row .typeDef, .coded .typeDefOrRef]
  | .memberRef => [.coded .memberRefParent, .text, .blob]
  | .constant => [.fixed 2, .coded .hasConstant, .blob]
  | .customAttribute => [.coded .hasCustomAttribute, .coded .customAttributeType, .blob]
  | .fieldMarshal => [.coded .hasFieldMarshal, .blob]
  | .declSecurity => [.fixed 2, .coded .hasDeclSecurity, .blob]
  | .classLayout => [.fixed 2, .fixed 4, .row .typeDef]
  | .fieldLayout => [.fixed 4, .row .field]
  | .standAloneSig => [.blob]
  | .eventMap => [.row .typeDef, .row .event]
  | .eventPtr => [.row .event]
  | .event => [.fixed 2, .text, .coded .typeDefOrRef]
  | .propertyMap => [.row .typeDef, .row .property]
  | .propertyPtr => [.row .property]
  | .property => [.fixed 2, .text, .blob]
  | .methodSemantics => [.fixed 2, .row .methodDef, .coded .hasSemantics]
  | .methodImpl => [.row .typeDef, .coded .methodDefOrRef, .coded .methodDefOrRef]
  | .moduleRef => [.text]
  | .typeSpec => [.blob]
  | .implMap => [.fixed 2, .coded .memberForwarded, .text, .row .moduleRef]
  | .fieldRva => [.fixed 4, .row .field]
  | .encLog => [.fixed 4, .fixed 4]
  | .encMap => [.fixed 4]
  | .assembly =>
    [.fixed 4, .fixed 2, .fixed 2, .fixed 2, .fixed 2, .fixed 4, .blob, .text, .text]
  | .assemblyProcessor => [.fixed 4]
  | .assemblyOs => [.fixed 4, .fixed 4, .fixed 4]
  | .assemblyRef =>
    [.fixed 2, .fixed 2, .fixed 2, .fixed 2, .fixed 4, .blob, .text, .text, .blob]
  | .assemblyRefProcessor => [.fixed 4, .row .assemblyRef]
  | .assemblyRefOs => [.fixed 4, .fixed 4, .fixed 4, .row .assemblyRef]
  | .file => [.fixed 4, .text, .blob]
  | .exportedType => [.fixed 4, .fixed 4, .text, .text, .coded .implementation]
  | .manifestResource => [.fixed 4, .fixed 4, .text, .coded .implementation]
  | .nestedClass => [.row .typeDef, .row .typeDef]
  | .genericParam => [.fixed 2, .fixed 2, .coded .typeOrMethodDef, .text]
  | .methodSpec => [.coded .methodDefOrRef, .blob]
  | .genericParamConstraint => [.row .genericParam, .coded .typeDefOrRef]

structure Layout where
  rows : Vector Nat 45
  largeText : Bool
  largeGuid : Bool
  largeBlob : Bool
  deriving DecidableEq

namespace Layout

/-- The bits that a row number of a table with `rows` rows needs, at least one. -/
def bitsFor (rows : Nat) : Nat := Nat.log2 rows + 1

def heapBytes (large : Bool) : Nat := if large then 4 else 2

def indexBytes (bits : Nat) : Nat := if 16 < bits then 4 else 2

variable (l : Layout)

def rowCount (table : TableId) : Nat := l.rows[table.slot]

def isLarge (table : TableId) : Bool := 0xFFFF < l.rowCount table

def textBytes : Nat := heapBytes l.largeText

def guidBytes : Nat := heapBytes l.largeGuid

def blobBytes : Nat := heapBytes l.largeBlob

def rowBytes (table : TableId) : Nat := indexBytes (bitsFor (l.rowCount table))

/-- The bits of the largest row number among the tables of a kind, and of its tag. -/
def codedBits (kind : CodedKind) : Nat :=
  (kind.tables.map fun table => bitsFor (l.rowCount table)).foldl max 1 + kind.tagBits

def codedBytes (kind : CodedKind) : Nat := indexBytes (l.codedBits kind)

def columnBytes : Column → Nat
  | .fixed width => width
  | .text => l.textBytes
  | .guid => l.guidBytes
  | .blob => l.blobBytes
  | .row table => l.rowBytes table
  | .coded kind => l.codedBytes kind

def rowSize (table : TableId) : Nat :=
  table.columns.foldr (fun column size => l.columnBytes column + size) 0

/-- The layout of given row counts; of two counts for one table the later holds. -/
def ofCounts (counts : List (TableId × Nat)) (largeText largeBlob largeGuid : Bool) : Layout where
  rows := counts.foldl (fun rows entry => rows.set entry.1.slot entry.2) (Vector.replicate 45 0)
  largeText := largeText
  largeGuid := largeGuid
  largeBlob := largeBlob

def presentNumbers (valid : Nat) : List Nat := (List.range 64).filter valid.testBit

/-- The counts of the present tables, four bytes each from `offset` on. A table without a known
number takes its four bytes and is left out. -/
def readCounts (data : ByteArray) (offset : Nat) :
    List Nat → Except Error (List (TableId × Nat))
  | [] => .ok []
  | number :: rest => do
    let count ← Bytes.word data offset 4
    let counts ← readCounts data (offset + 4) rest
    match TableId.ofNumber? number with
    | some table => .ok ((table, count) :: counts)
    | none => .ok counts

def ofHeader (data : ByteArray) (valid : Nat) : Except Error Layout := do
  let counts ← readCounts data 24 (presentNumbers valid)
  let flags ← Bytes.word data 6 1
  .ok (ofCounts counts (flags.testBit 0) (flags.testBit 2) (flags.testBit 1))

/-! Reading the columns that refer to a heap or to a row. -/

def readText : Read Nat := Read.word l.textBytes

def readGuid : Read Nat := Read.word l.guidBytes

def readBlob : Read Nat := Read.word l.blobBytes

def readRow (table : TableId) : Read Nat := Read.word (if l.isLarge table then 4 else 2)

/-- A coded index; a tag that selects no table is an error. -/
def readCoded (kind : CodedKind) : Read CodedIndex := do
  let value ← Read.word (l.codedBytes kind)
  match CodedIndex.decode? kind value with
  | some index => return index
  | none => throw .outOfBounds

end Layout

end FrameworkAudit
