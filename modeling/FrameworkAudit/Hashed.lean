import FrameworkAudit.Dependency.Member

set_option autoImplicit false

namespace FrameworkAudit

def Text.lowerByte (b : UInt8) : UInt8 := if 0x41 ≤ b ∧ b ≤ 0x5A then b + 0x20 else b

inductive HashInput where
  | byte (b : UInt8)
  | short (n : UInt16)
  /-- A number as wide as an address. -/
  | word (n : Nat)
  | bytes (bytes : List UInt8)
  deriving DecidableEq, Repr

namespace HashInput

def ofText (s : String) : List HashInput := [.bytes s.toUTF8.toList, .byte 0xFF]

def ofOption {α : Type} (hashed : α → List HashInput) : Option α → List HashInput
  | none => [.word 0]
  | some a => .word 1 :: hashed a

end HashInput

open HashInput

def Version.hashed (v : Version) : List HashInput := v.parts.map .short

def KeyToken.hashed (t : KeyToken) : List HashInput := [.word t.toList.length, .bytes t.toList]

/-- The bytes of the name go one by one, in lower case, and no byte ends them. -/
def Identity.hashed (i : Identity) : List HashInput :=
  (i.name.toUTF8.toList.map fun b => .byte (Text.lowerByte b)) ++ i.version.hashed ++
    ofOption ofText i.culture? ++ ofOption KeyToken.hashed i.token?

def MemberInfo.hashed (m : MemberInfo) : List HashInput :=
  ofText m.id ++ ofOption Identity.hashed m.assembly?

def AssemblyInfo.hashed (a : AssemblyInfo) : List HashInput :=
  ofText a.identity ++ ofText a.framework

end FrameworkAudit
