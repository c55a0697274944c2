import FrameworkAudit.Cursor

set_option autoImplicit false

namespace FrameworkAudit

/-- The streams that an image may hold. The tables come in a packed and an editable form. -/
inductive StreamName where
  | texts
  | userTexts
  | blobs
  | guids
  | tables
  | editableTables
  deriving DecidableEq, Repr

namespace StreamName

def all : List StreamName := [.texts, .userTexts, .blobs, .guids, .tables, .editableTables]

def text : StreamName → String
  | .texts => "#Strings"
  | .userTexts => "#US"
  | .blobs => "#Blob"
  | .guids => "#GUID"
  | .tables => "#~"
  | .editableTables => "#-"

def ofText? (s : String) : Option StreamName := all.find? fun name => name.text == s

theorem ofText?_text (name : StreamName) : ofText? name.text = some name := by
  cases name <;> decide

end StreamName

structure StreamHeader where
  name : StreamName
  offset : Nat
  size : Nat
  deriving DecidableEq, Repr

namespace StreamHeader

/-- The bytes of the header: the offset, the size, and the name with its terminator, padded to a
multiple of four. -/
def headerSize (h : StreamHeader) : Nat := 8 + (h.name.text.utf8ByteSize + 1 + 3) / 4 * 4

/-- A name ends with a zero byte within 32 bytes. -/
def readName (data : ByteArray) : Except Error StreamName :=
  let room := data.extract 8 40
  match Bytes.zeroFrom? room 0 with
  | none => .error (.malformed .streamNameUnterminated)
  | some stop =>
    let text := Text.Utf8.lossy (room.extract 0 stop)
    match StreamName.ofText? text with
    | some name => .ok name
    | none => .error (.malformed (.streamNameUnknown text))

def ofBytes (data : ByteArray) : Except Error StreamHeader := do
  if data.size < 9 then throw .outOfBounds
  let name ← readName data
  let offset ← Bytes.word data 0 4
  let size ← Bytes.word data 4 4
  return { name, offset, size }

end StreamHeader

structure Root where
  signature : Nat
  majorVersion : Nat
  minorVersion : Nat
  version : String
  flags : Nat
  streams : List StreamHeader
  deriving DecidableEq, Repr

namespace Root

/-- The first four bytes of a metadata image, `BSJB`. -/
def magic : Nat := 0x424A5342

def maxStreams : Nat := 6

/-- The stream must end inside the image, at an offset that 32 bits can hold. -/
def checkRange (length : Nat) (stream : StreamHeader) : Except Error Unit :=
  let stop := stream.offset + stream.size
  if UInt32.size ≤ stop then .error (.malformed (.streamOverflow stream.offset stream.size))
  else if length < stop then .error (.malformed (.streamPastEnd stream.name.text stop length))
  else .ok ()

def readStreams (data : ByteArray) (offset : Nat) : Nat → Except Error (List StreamHeader)
  | 0 => .ok []
  | count + 1 => do
    if data.size ≤ offset then throw .outOfBounds
    let stream ← StreamHeader.ofBytes (Bytes.dropFirst data offset)
    checkRange data.size stream
    let rest ← readStreams data (offset + stream.headerSize) count
    return stream :: rest

def dropPadding (s : String) : String :=
  String.ofList (s.toList.reverse.dropWhile (· == '\x00')).reverse

def readFront : Read (Root × Nat) := do
  let signature ← Read.word 4
  if signature ≠ magic then Read.fail (.rootMagic signature)
  let majorVersion ← Read.word 2
  let minorVersion ← Read.word 2
  Read.skip 4
  let length ← Read.word 4
  let raw ← Read.bytes length
  let flags ← Read.word 2
  let count ← Read.word 2
  if count = 0 ∨ maxStreams < count then Read.fail (.streamCount count)
  let version := dropPadding (Text.Utf8.lossy raw)
  return ({ signature, majorVersion, minorVersion, version, flags, streams := [] }, count)

def ofBytes (data : ByteArray) : Except Error Root :=
  match readFront (.ofBytes data) with
  | .error e _ => .error e
  | .ok (front, count) cursor => do
    let streams ← readStreams data cursor.pos count
    return { front with streams }

def stream? (root : Root) (name : StreamName) : Option StreamHeader :=
  root.streams.find? fun header => header.name == name

def streamData? (root : Root) (data : ByteArray) (name : StreamName) : Option ByteArray := do
  let header ← root.stream? name
  (Bytes.slice data header.offset header.size).toOption

end Root

end FrameworkAudit
