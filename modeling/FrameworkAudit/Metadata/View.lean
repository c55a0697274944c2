import FrameworkAudit.Container
import FrameworkAudit.Metadata.Heap
import FrameworkAudit.Metadata.TableStream

/-!
A metadata image opened for reading: its root, its tables, and the two heaps. An image without a
heap has the empty text or blob at index 0 and nothing else.
-/

set_option autoImplicit false

namespace FrameworkAudit

structure Metadata where
  root : Root
  tables : TableStream
  texts? : Option TextHeap
  blobs? : Option BlobHeap

namespace Metadata

def ofBytes (data : ByteArray) : Except Error Metadata := do
  let root ← Root.ofBytes data
  let packed? := root.streamData? data .tables
  let some stream := packed?.or (root.streamData? data .editableTables)
    | throw (.malformed .noTablesStream)
  let tables ← TableStream.ofBytes stream
  let texts? ← (root.streamData? data .texts).mapM TextHeap.ofBytes
  let blobs? ← (root.streamData? data .blobs).mapM BlobHeap.ofBytes
  return { root, tables, texts?, blobs? }

def ofFile [Host] (data : ByteArray) : Except Error Metadata := do
  let extent ← Extent.ofFile data
  ofBytes (extent.bytes data)

def text (m : Metadata) (index : Nat) : Except Error String :=
  match m.texts? with
  | some heap => heap.get index
  | none => if index = 0 then .ok "" else .error .outOfBounds

def blob (m : Metadata) (index : Nat) : Except Error ByteArray :=
  match m.blobs? with
  | some heap => heap.get index
  | none => if index = 0 then .ok .empty else .error .outOfBounds

end Metadata

end FrameworkAudit
