import FrameworkAudit.Metadata.Row

set_option autoImplicit false

namespace FrameworkAudit

structure RowTable (ρ : Type) where
  data : ByteArray
  start : Nat
  count : Nat
  layout : Layout

namespace RowTable

variable {ρ : Type} [Row ρ]

def rowSize (t : RowTable ρ) : Nat := t.layout.rowSize (Row.table ρ)

def size (t : RowTable ρ) : Nat := t.count * t.rowSize

/-- The table of `count` rows from `start` on, if the data is long enough to hold them. -/
def ofBytes (data : ByteArray) (start count : Nat) (layout : Layout) :
    Except Error (RowTable ρ) :=
  let t : RowTable ρ := ⟨data, start, count, layout⟩
  let available := data.size - start
  if available < t.size then
    .error (.malformed (.tableTooShort (Row.table ρ) t.size available))
  else .ok t

def get (t : RowTable ρ) (row : Nat) : Except Error ρ :=
  if row = 0 ∨ t.count < row then
    .error (.malformed (.rowOutOfRange (Row.table ρ) row t.count))
  else Read.runAt (Row.read t.layout) t.data (t.start + (row - 1) * t.rowSize)

def toList (t : RowTable ρ) : List (Nat × Except Error ρ) :=
  (List.range t.count).map fun i => (i + 1, t.get (i + 1))

end RowTable

end FrameworkAudit
