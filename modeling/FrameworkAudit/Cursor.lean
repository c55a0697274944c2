import FrameworkAudit.Bytes

/-!
A cursor over a byte string, and the reads that move it. A read that fails keeps the position it
had reached, so that the caller can tell where it stopped.

The encodings that signatures, attribute values and heaps share are read here: compressed
numbers of one, two or four bytes, compressed tokens, and text with its length in front.
-/

set_option autoImplicit false

namespace FrameworkAudit

structure Cursor where
  data : ByteArray
  pos : Nat

namespace Cursor

def ofBytes (data : ByteArray) : Cursor := ⟨data, 0⟩

def remaining (c : Cursor) : Nat := c.data.size - c.pos

def hasMore (c : Cursor) : Bool := c.pos < c.data.size

end Cursor

/-- A computation that consumes bytes; an error carries the cursor where it stopped. -/
abbrev Read (α : Type) := EStateM Error Cursor α

namespace Read

def fail {α : Type} (defect : Defect) : Read α := throw (.malformed defect)

def position : Read Nat := fun c => .ok c.pos c

/-- Passes over `count` bytes, or over none if fewer remain. -/
def skip (count : Nat) : Read Unit := fun c =>
  if count ≤ c.remaining then .ok () { c with pos := c.pos + count } else .error .outOfBounds c

def peek : Read UInt8 := fun c =>
  match c.data[c.pos]? with
  | some b => .ok b c
  | none => .error .outOfBounds c

def word (width : Nat) : Read Nat := fun c =>
  match Bytes.word c.data c.pos width with
  | .ok value => .ok value { c with pos := c.pos + width }
  | .error e => .error e c

def signedWord (width : Nat) : Read Int := return Bytes.signed width (← word width)

def bytes (count : Nat) : Read ByteArray := fun c =>
  if count ≤ c.remaining then
    .ok (c.data.extract c.pos (c.pos + count)) { c with pos := c.pos + count }
  else .error .outOfBounds c

/-- An unsigned number in one, two or four bytes; the high bits of the first say how many. -/
def compressedNat : Read Nat := do
  let first ← word 1
  if first < 0x80 then return first
  else if first < 0xC0 then return (first - 0x80) * 0x100 + (← word 1)
  else if first < 0xE0 then
    let tail ← bytes 3
    return (first - 0xC0) * 0x1000000 + (tail[0]?.getD 0).toNat * 0x10000 +
      (tail[1]?.getD 0).toNat * 0x100 + (tail[2]?.getD 0).toNat
  else fail (.compressedNumber first)

def signedCount : Nat → Nat
  | 1 => 0x40
  | 2 => 0x2000
  | _ => 0x10000000

/-- A signed number. Its sign stands in the lowest bit of the encoded value. -/
def compressedInt : Read Int := do
  let start ← position
  let value ← compressedNat
  let stop ← position
  let magnitude := value / 2
  if value % 2 = 0 then return magnitude
  else return (magnitude : Int) - signedCount (stop - start)

def tokenTable? : Nat → Option TableId
  | 0 => some .typeDef
  | 1 => some .typeRef
  | 2 => some .typeSpec
  | _ => none

/-- A token of a type: the table in the low two bits, and the row set into the token above them. -/
def compressedToken : Read Token := do
  let value ← compressedNat
  match tokenTable? (value % 4) with
  | some table => return ⟨UInt32.ofNat ((table.number * 0x1000000) ||| (value / 4))⟩
  | none => fail (.compressedToken value)

/-- Text with its length in bytes in front; the single byte 0xFF stands for no text. -/
def serialString : Read (Option String) := do
  if (← peek) = 0xFF then
    skip 1
    return none
  else
    let length ← compressedNat
    let start ← position
    let raw ← bytes length
    match Text.Utf8.decode raw with
    | .ok text => return some text
    | .error fault => fail (.textAt start fault)

def run {α : Type} (read : Read α) (data : ByteArray) : Except Error α :=
  match read (.ofBytes data) with
  | .ok value _ => .ok value
  | .error e _ => .error e

def runAt {α : Type} (read : Read α) (data : ByteArray) (offset : Nat) : Except Error α :=
  match read ⟨data, offset⟩ with
  | .ok value _ => .ok value
  | .error e _ => .error e

def times {α : Type} : Nat → Read α → Read (List α)
  | 0, _ => return []
  | count + 1, read => do
    let first ← read
    let rest ← times count read
    return first :: rest

end Read

end FrameworkAudit
