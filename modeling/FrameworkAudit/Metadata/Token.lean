import FrameworkAudit.Metadata.TableId
import FrameworkAudit.Text.Hex

set_option autoImplicit false

namespace FrameworkAudit

structure Token where
  value : UInt32
  deriving DecidableEq, Repr, Inhabited

namespace Token

/-- The token of a row; only the low 24 bits of `row` have a place in it. -/
def ofParts (table : TableId) (row : Nat) : Token :=
  ⟨UInt32.ofNat (table.number * 0x1000000 + row % 0x1000000)⟩

def tableNumber (t : Token) : Nat := t.value.toNat / 0x1000000

def table? (t : Token) : Option TableId := TableId.ofNumber? t.tableNumber

def row (t : Token) : Nat := t.value.toNat % 0x1000000

def isNull (t : Token) : Bool := t.row == 0

def text (t : Token) : String := "0x" ++ String.ofList (Text.Hex.padded 8 t.value.toNat)

def detail (t : Token) : String :=
  let table := String.ofList (Text.Hex.padded 2 t.tableNumber)
  "Token(" ++ t.text ++ s!", table: 0x{table}, row: {t.row})"

theorem toNat_ofParts (table : TableId) (row : Nat) :
    (ofParts table row).value.toNat = table.number * 0x1000000 + row % 0x1000000 := by
  have := table.number_lt
  have := Nat.mod_lt row (show 0 < 0x1000000 by decide)
  simp only [ofParts, UInt32.toNat_ofNat']
  omega

@[simp] theorem tableNumber_ofParts (table : TableId) (row : Nat) :
    (ofParts table row).tableNumber = table.number := by
  have := Nat.mod_lt row (show 0 < 0x1000000 by decide)
  rw [tableNumber, toNat_ofParts]
  omega

@[simp] theorem table?_ofParts (table : TableId) (row : Nat) :
    (ofParts table row).table? = some table := by
  simp [table?]

@[simp] theorem row_ofParts (table : TableId) (row : Nat) :
    (ofParts table row).row = row % 0x1000000 := by
  rw [Token.row, toNat_ofParts]
  omega

end Token

end FrameworkAudit
