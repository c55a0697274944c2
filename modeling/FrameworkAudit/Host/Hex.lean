import FrameworkAudit.Text.Hex

set_option autoImplicit false

namespace FrameworkAudit.Text.Hex

def byte (b : UInt8) : List Char := [digit (b.toNat / 16), digit (b.toNat % 16)]

def encode (bytes : List UInt8) : String := String.ofList (bytes.flatMap byte)

inductive Fault where
  | oddLength
  /-- The byte at `position` of the text is no hexadecimal digit. -/
  | badDigit (found : UInt8) (position : Nat)
  deriving DecidableEq, Repr

/-- The Latin-1 character of a byte as it stands between quotes. Quotes, backslashes and the
characters that leave no mark are escaped. -/
def quotable (b : UInt8) : String :=
  match b.toNat with
  | 0 => "\\0"
  | 9 => "\\t"
  | 10 => "\\n"
  | 13 => "\\r"
  | 39 => "\\'"
  | 92 => "\\\\"
  | n =>
    if n < 0x20 ∨ (0x7F ≤ n ∧ n ≤ 0xA0) ∨ n = 0xAD then "\\u\x7b" ++ natural n ++ "\x7d"
    else (Char.ofNat n).toString

def Fault.message : Fault → String
  | .oddLength => "Odd number of digits"
  | .badDigit found position =>
    "Invalid character '" ++ quotable found ++ s!"' at position {position}"

def digitValue? (b : UInt8) : Option Nat :=
  let n := b.toNat
  if 48 ≤ n ∧ n ≤ 57 then some (n - 48)
  else if 97 ≤ n ∧ n ≤ 102 then some (n - 87)
  else if 65 ≤ n ∧ n ≤ 70 then some (n - 55)
  else none

def decodePairs (position : Nat) : List UInt8 → Except Fault (List UInt8)
  | high :: low :: rest =>
    match digitValue? high, digitValue? low with
    | none, _ => .error (.badDigit high position)
    | _, none => .error (.badDigit low (position + 1))
    | some h, some l => do
      let bytes ← decodePairs (position + 2) rest
      .ok (UInt8.ofNat (16 * h + l) :: bytes)
  | _ => .ok []

def decode (text : String) : Except Fault (List UInt8) :=
  let bytes := text.toUTF8.toList
  if bytes.length % 2 = 1 then .error .oddLength else decodePairs 0 bytes

end FrameworkAudit.Text.Hex
