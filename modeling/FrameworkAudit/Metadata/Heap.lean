import FrameworkAudit.Cursor

set_option autoImplicit false

namespace FrameworkAudit

structure TextHeap where
  data : ByteArray

namespace TextHeap

def ofBytes (data : ByteArray) : Except Error TextHeap :=
  if data[0]? = some 0 then .ok ⟨data⟩ else .error (.malformed .stringsHeap)

/-- The text at `index`, up to the next zero byte. -/
def get (heap : TextHeap) (index : Nat) : Except Error String :=
  if heap.data.size ≤ index then .error .outOfBounds
  else
    match Bytes.zeroFrom? heap.data index with
    | none => .error (.malformed (.stringIndex index))
    | some stop =>
      match String.fromUTF8? (heap.data.extract index stop) with
      | some text => .ok text
      | none => .error (.malformed (.stringIndex index))

end TextHeap

structure BlobHeap where
  data : ByteArray

namespace BlobHeap

def ofBytes (data : ByteArray) : Except Error BlobHeap :=
  if data[0]? = some 0 then .ok ⟨data⟩ else .error (.malformed .blobHeap)

def readBlob : Read ByteArray := do
  let length ← Read.compressedNat
  Read.bytes length

def get (heap : BlobHeap) (index : Nat) : Except Error ByteArray :=
  Read.runAt readBlob heap.data index

end BlobHeap

end FrameworkAudit
