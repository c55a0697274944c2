import FrameworkAudit.Defect

set_option autoImplicit false

namespace FrameworkAudit

namespace Executable

/-- A section: an address range of the loaded image, and the bytes of the file that fill it. -/
structure Segment where
  virtualSize : Nat
  address : Nat
  rawSize : Nat
  rawOffset : Nat
  deriving DecidableEq, Repr

/-- How sections are aligned in the file, and the address of the runtime header, if there is one. -/
structure OptionalHeader where
  alignment : Nat
  runtimeAddress? : Option Nat
  deriving DecidableEq, Repr

end Executable

structure Executable where
  optional? : Option Executable.OptionalHeader
  segments : List Executable.Segment
  deriving DecidableEq, Repr

structure Place where
  file : String
  line : Nat
  deriving DecidableEq, Repr

def Place.text (p : Place) : String := s!"{p.file}:{p.line}"

/-- What the program takes from elsewhere: the packages that it calls, the turns of the threads that
share its work, and the places in its own text that its messages name. -/
class Host where
  /-- The executable in a file, or why it cannot be read. -/
  executable : ByteArray → Except String Executable
  hexText : List UInt8 → String
  /-- The bytes that a hexadecimal text spells, or why it spells none. -/
  hexBytes : String → Except String (List UInt8)
  /-- The SHA-1 digest. -/
  digest : List UInt8 → Vector UInt8 20
  /-- Which of so many tasks take the next steps. -/
  turns : Nat → List Nat
  /-- Where a defect is reported. -/
  place : Defect → Place

/-- What is documented of hexadecimal text: two small digits for each byte, which can be read back. -/
class LawfulHost [Host] : Prop where
  hexBytes_hexText : ∀ bytes, Host.hexBytes (Host.hexText bytes) = .ok bytes
  length_hexText : ∀ bytes, (Host.hexText bytes).toList.length = 2 * bytes.length
  mem_hexText : ∀ bytes, ∀ c ∈ (Host.hexText bytes).toList, c ∈ "0123456789abcdef".toList

end FrameworkAudit
