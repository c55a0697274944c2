set_option autoImplicit false

namespace FrameworkAudit.Text.Hex

def digit (n : Nat) : Char := Nat.digitChar n

def natural (n : Nat) : String := String.ofList (Nat.toDigits 16 n)

def padded : Nat → Nat → List Char
  | 0, _ => []
  | width + 1, n => padded width (n / 16) ++ [digit (n % 16)]

end FrameworkAudit.Text.Hex
