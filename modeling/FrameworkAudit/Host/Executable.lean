import FrameworkAudit.Container

set_option autoImplicit false

namespace FrameworkAudit.Executable

def roundUp (n unit : Nat) : Nat := (n + unit - 1) / unit * unit

def isPowerOfTwo (n : Nat) : Bool := n != 0 && 1 <<< Nat.log2 n == n

/-- The bytes of a section that a file can fill, by the size of the raw data in whole pages and by
the virtual size. -/
def Segment.filledSize (alignment : Nat) (s : Segment) : Nat :=
  if s.rawSize = 0 then 0
  else
    let inFile := roundUp (s.rawOffset + s.rawSize) alignment - s.rawOffset / 0x200 * 0x200
    let size := min inFile (roundUp s.rawSize 0x1000)
    if s.virtualSize = 0 then size else min size (roundUp s.virtualSize 0x1000)

def filledOffset? (alignment : Nat) (segments : List Segment) (address : Nat) : Option Nat :=
  if isPowerOfTwo alignment then
    let holder? := segments.find? fun s =>
      s.address ≤ address && address < s.address + s.filledSize alignment
    holder?.map fun s => s.rawOffset + (address - s.address)
  else none

/-- The directory count and the start of the directories in an optional header at `start`. -/
def directoryPlace? (data : ByteArray) (start : Nat) : Option (Nat × Nat) := do
  let magic ← (Bytes.word data start 2).toOption
  let fixedSize ← if magic = 0x10B then some 96 else if magic = 0x20B then some 112 else none
  let count ← (Bytes.word data (start + fixedSize - 4) 4).toOption
  return (count, start + fixedSize)

def maxDirectories : Nat := 16

def runtimeDirectory : Nat := 14

def readOptional? (data : ByteArray) (start : Nat) : Option OptionalHeader := do
  let (count, directories) ← directoryPlace? data start
  guard (count ≤ maxDirectories ∧ directories + 8 * count ≤ data.size)
  let alignment ← (Bytes.word data (start + 36) 4).toOption
  if count ≤ runtimeDirectory then
    return ⟨alignment, none⟩
  else
    let address ← (Bytes.word data (directories + 8 * runtimeDirectory) 4).toOption
    let size ← (Bytes.word data (directories + 8 * runtimeDirectory + 4) 4).toOption
    return ⟨alignment, if address = 0 ∧ size = 0 then none else some address⟩

def segmentSize : Nat := 40

def readSegment? (data : ByteArray) (start : Nat) : Option Segment := do
  let virtualSize ← (Bytes.word data (start + 8) 4).toOption
  let address ← (Bytes.word data (start + 12) 4).toOption
  let rawSize ← (Bytes.word data (start + 16) 4).toOption
  let rawOffset ← (Bytes.word data (start + 20) 4).toOption
  guard (start + segmentSize ≤ data.size)
  return { virtualSize, address, rawSize, rawOffset }

/-- Whether metadata at `offset` has a version text that is valid and followed by four bytes. -/
def hasVersionText (data : ByteArray) (offset : Nat) : Bool :=
  match Bytes.word data (offset + 12) 4 with
  | .error _ => false
  | .ok length =>
    offset + 16 + length + 4 ≤ data.size &&
      (data.extract (offset + 16) (offset + 16 + length)).validateUTF8

def runtimeReadable (data : ByteArray) (alignment : Nat) (segments : List Segment)
    (address : Nat) : Option Unit := do
  let header ← filledOffset? alignment segments address
  guard (header + RuntimeHeader.byteSize ≤ data.size)
  let metadataAddress ← (Bytes.word data (header + 8) 4).toOption
  let size ← (Bytes.word data (header + 12) 4).toOption
  let offset ← filledOffset? alignment segments metadataAddress
  guard (offset + size ≤ data.size)
  guard (hasVersionText data offset)

def ofBytes? (data : ByteArray) : Option Executable := do
  guard (64 ≤ data.size)
  let start ← (Bytes.word data 0x3C 4).toOption
  guard ((Bytes.word data start 4).toOption = some 0x4550 ∧ 0x40 ≤ start)
  guard (start + 24 ≤ data.size)
  let count ← (Bytes.word data (start + 6) 2).toOption
  let optionalSize ← (Bytes.word data (start + 20) 2).toOption
  let optional? ←
    if optionalSize = 0 then some none else (readOptional? data (start + 24)).map some
  guard (count ≤ data.size / segmentSize)
  let first := start + 24 + optionalSize
  let segments ← (List.range count).mapM fun i => readSegment? data (first + segmentSize * i)
  if let some header := optional? then
    if let some address := header.runtimeAddress? then
      runtimeReadable data header.alignment segments address
  return { optional?, segments }

/-- The executable in a file. A file that ends within the two byte numbers at its start lacks the next
of them. -/
def parse (data : ByteArray) : Except String Executable :=
  match ofBytes? data with
  | some executable => .ok executable
  | none =>
    if data.size < 28 then .error s!"type is too big (2) for {data.size % 2}"
    else .error "Malformed executable container"

end FrameworkAudit.Executable
