set_option autoImplicit false

namespace FrameworkAudit.Text.Utf8

/-- The first place where bytes stop being UTF-8, `index` bytes of valid text before it. -/
inductive Fault where
  /-- The `size` bytes at `index` begin no sequence. -/
  | invalid (size index : Nat)
  /-- The bytes end inside the sequence at `index`. -/
  | incomplete (index : Nat)
  deriving DecidableEq, Repr

def Fault.message : Fault → String
  | .invalid size index => s!"invalid utf-8 sequence of {size} bytes from index {index}"
  | .incomplete index => s!"incomplete utf-8 byte sequence from index {index}"

/-- What a leading byte announces: the bits it gives, the number of bytes that follow, and the
range of the first of them. -/
structure Lead where
  bits : Nat
  owed : Nat
  low : Nat
  high : Nat

def Lead.ofByte? (b : UInt8) : Option Lead :=
  let n := b.toNat
  if n ≤ 0x7F then some ⟨n, 0, 0x80, 0xBF⟩
  else if n < 0xC2 then none
  else if n ≤ 0xDF then some ⟨n - 0xC0, 1, 0x80, 0xBF⟩
  else if n = 0xE0 then some ⟨0, 2, 0xA0, 0xBF⟩
  else if n = 0xED then some ⟨n - 0xE0, 2, 0x80, 0x9F⟩
  else if n ≤ 0xEF then some ⟨n - 0xE0, 2, 0x80, 0xBF⟩
  else if n = 0xF0 then some ⟨0, 3, 0x90, 0xBF⟩
  else if n ≤ 0xF3 then some ⟨n - 0xF0, 3, 0x80, 0xBF⟩
  else if n = 0xF4 then some ⟨n - 0xF0, 3, 0x80, 0x8F⟩
  else none

inductive Head where
  | scalar (c : Char) (size : Nat)
  | invalid (size : Nat)
  | incomplete (size : Nat)

/-- Reads the bytes that follow a leading byte; `size` bytes are read and give `bits`. -/
def Head.finish (size bits : Nat) : Nat → Nat → Nat → List UInt8 → Head
  | 0, _, _, _ => .scalar (Char.ofNat bits) size
  | _ + 1, _, _, [] => .incomplete size
  | owed + 1, low, high, b :: rest =>
    if low ≤ b.toNat ∧ b.toNat ≤ high then
      finish (size + 1) (bits * 64 + b.toNat % 64) owed 0x80 0xBF rest
    else .invalid size

def Head.ofBytes (b : UInt8) (rest : List UInt8) : Head :=
  match Lead.ofByte? b with
  | none => .invalid 1
  | some lead => finish 1 lead.bits lead.owed lead.low lead.high rest

/-- The first fault at or after `index`, where `skip` more bytes belong to the sequence before. -/
def faultFrom? (skip index : Nat) : List UInt8 → Option Fault
  | [] => none
  | b :: rest =>
    match skip with
    | skip + 1 => faultFrom? skip (index + 1) rest
    | 0 =>
      match Head.ofBytes b rest with
      | .scalar _ size => faultFrom? (size - 1) (index + 1) rest
      | .invalid size => some (.invalid size index)
      | .incomplete _ => some (.incomplete index)

def decode (bytes : ByteArray) : Except Fault String :=
  match String.fromUTF8? bytes with
  | some text => .ok text
  | none => .error ((faultFrom? 0 0 bytes.toList).getD (.incomplete bytes.size))

def lossyFrom (skip : Nat) : List UInt8 → List Char
  | [] => []
  | b :: rest =>
    match skip with
    | skip + 1 => lossyFrom skip rest
    | 0 =>
      match Head.ofBytes b rest with
      | .scalar c size => c :: lossyFrom (size - 1) rest
      | .invalid size => '\uFFFD' :: lossyFrom (size - 1) rest
      | .incomplete size => '\uFFFD' :: lossyFrom (size - 1) rest

/-- The text of any bytes, with U+FFFD for what is not UTF-8. -/
def lossy (bytes : ByteArray) : String := String.ofList (lossyFrom 0 bytes.toList)

end FrameworkAudit.Text.Utf8
