import FrameworkAudit.Metadata.Root

set_option autoImplicit false

namespace FrameworkAudit

structure Extent where
  offset : Nat
  length : Nat
  deriving DecidableEq, Repr

structure RuntimeHeader where
  size : Nat
  majorVersion : Nat
  minorVersion : Nat
  metadataAddress : Nat
  metadataSize : Nat
  flags : Nat
  deriving DecidableEq, Repr

namespace RuntimeHeader

def byteSize : Nat := 72

def read : Read RuntimeHeader := do
  let size ← Read.word 4
  if size ≠ byteSize then Read.fail (.runtimeHeaderSize size)
  let majorVersion ← Read.word 2
  let minorVersion ← Read.word 2
  let metadataAddress ← Read.word 4
  let metadataSize ← Read.word 4
  if metadataAddress = 0 ∨ metadataSize = 0 then Read.fail .noMetadataDirectory
  let flags ← Read.word 4
  return { size, majorVersion, minorVersion, metadataAddress, metadataSize, flags }

def ofBytes (data : ByteArray) : Except Error RuntimeHeader :=
  if data.size < byteSize then .error .outOfBounds else Read.run read data

end RuntimeHeader

namespace Executable

/-- The file offset of an address. The first section that holds the address gives it, and no
section before that may reach past the end of the address space. -/
def offsetOf (address : Nat) : List Segment → Except Error Nat
  | [] => .error (.malformed (.unmappedAddress address))
  | s :: rest =>
    if UInt32.size ≤ s.address + s.virtualSize then
      .error (.malformed (.sectionOverflow s.address s.virtualSize))
    else if s.address ≤ address ∧ address < s.address + s.virtualSize then
      .ok (address - s.address + s.rawOffset)
    else offsetOf address rest

def metadataExtent (data : ByteArray) (executable : Executable) : Except Error Extent := do
  let some header := executable.optional? | throw (.malformed .noOptionalHeader)
  let some address := header.runtimeAddress? | throw (.malformed .noRuntimeHeader)
  let headerOffset ← offsetOf address executable.segments
  let runtime ← RuntimeHeader.ofBytes (← Bytes.slice data headerOffset RuntimeHeader.byteSize)
  let offset ← offsetOf runtime.metadataAddress executable.segments
  let _ ← Bytes.slice data offset runtime.metadataSize
  return ⟨offset, runtime.metadataSize⟩

end Executable

/-- Where the metadata of a file lies. Bare metadata reaches from the start to the end; elsewhere the
runtime header of the executable says. -/
def Extent.ofFile [Host] (data : ByteArray) : Except Error Extent :=
  if data.size = 0 then .error .emptyInput
  else if (Bytes.word data 0 4).toOption = some Root.magic then .ok ⟨0, data.size⟩
  else if data[0]? ≠ some 0x4D ∨ data[1]? ≠ some 0x5A then .error .notSupported
  else
    match Host.executable data with
    | .error reason => .error (.container reason)
    | .ok executable => Executable.metadataExtent data executable

def Extent.bytes (extent : Extent) (data : ByteArray) : ByteArray :=
  data.extract extent.offset (extent.offset + extent.length)

end FrameworkAudit
