set_option autoImplicit false

namespace FrameworkAudit.Text

def digitsFrom? (acc : Nat) : List Char → Option Nat
  | [] => some acc
  | c :: cs => if c.isDigit then digitsFrom? (acc * 10 + (c.toNat - '0'.toNat)) cs else none

def unsignedChars? : List Char → Option Nat
  | [] => none
  | cs => digitsFrom? 0 cs

def numeral? (limit : Nat) (s : String) : Option Nat :=
  let digits := match s.toList with
    | '+' :: cs => cs
    | cs => cs
  (unsignedChars? digits).filter (· < limit)

example : numeral? 100 "+007" = some 7 ∧ numeral? 100 "100" = none ∧ numeral? 100 "+" = none := by
  decide +kernel

end FrameworkAudit.Text
