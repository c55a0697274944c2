import FrameworkAudit.Proofs.Isolation
import FrameworkAudit.Proofs.Metadata.Directory

/-!
Writing an image of three streams: the tables, the texts and the blobs stand one after the other
behind the root. Such an image is opened with the tables and heaps that it was written from, so what
is taken from it can be seen without its bytes.
-/

set_option autoImplicit false

namespace FrameworkAudit

open Bytes

namespace Metadata

variable {tables texts blobs : List UInt8}

def rootOf (tables texts blobs : List UInt8) : Root where
  signature := Root.magic
  majorVersion := 1
  minorVersion := 1
  version := ""
  flags := 0
  streams := [⟨.tables, 68, tables.length⟩, ⟨.texts, 68 + tables.length, texts.length⟩,
    ⟨.blobs, 68 + tables.length + texts.length, blobs.length⟩]

def image (tables texts blobs : List UInt8) : ByteArray :=
  ⟨((rootOf tables texts blobs).bytes 0 0 ++ (tables ++ (texts ++ blobs))).toArray⟩

theorem paddedVersion_rootOf : (rootOf tables texts blobs).paddedVersion 0 = [] := by
  rw [Root.paddedVersion, toList_eq]
  rfl

theorem length_rootOf : ((rootOf tables texts blobs).bytes 0 0).length = 68 := by
  have tables : StreamName.tables.text.utf8ByteSize = 2 := by decide
  have texts : StreamName.texts.text.utf8ByteSize = 8 := by decide
  have blobs : StreamName.blobs.text.utf8ByteSize = 5 := by decide
  rw [Root.length_bytes, paddedVersion_rootOf]
  simp only [Root.headerBytes, rootOf, List.foldr, StreamHeader.headerSize, tables, texts, blobs,
    List.length_nil]

theorem size_image :
    (image tables texts blobs).size = 68 + tables.length + texts.length + blobs.length := by
  have all : (image tables texts blobs).size =
      ((rootOf tables texts blobs).bytes 0 0 ++ (tables ++ (texts ++ blobs))).length := rfl
  rw [all, List.length_append, length_rootOf, List.length_append, List.length_append]
  omega

theorem ofBytes_image (small : 68 + tables.length + texts.length + blobs.length < UInt32.size) :
    Root.ofBytes (image tables texts blobs) = .ok (rootOf tables texts blobs) := by
  have fits : (rootOf tables texts blobs).Fits 0 := {
    signature := rfl
    majorVersion := (by decide : 1 < UInt16.size)
    minorVersion := (by decide : 1 < UInt16.size)
    unpadded := (by decide : "".toList.getLast? ≠ some '\x00')
    length := by
      rw [paddedVersion_rootOf]
      decide
    flags := (by decide : 0 < UInt16.size)
    nonempty := (by decide : 0 < 3)
    few := (by decide : 3 ≤ 6)
    streams := by
      simp only [rootOf, List.forall_mem_cons, StreamHeader.Fits]
      simp only [List.not_mem_nil, false_implies, implies_true, and_true]
      omega }
  refine (Root.ofBytes_iff_of_written fits (Cursor.next_ofBytes _ _)).2 ?_
  show ∀ header ∈ _, StreamHeader.Inside header (image tables texts blobs).size
  rw [size_image]
  simp only [rootOf, List.forall_mem_cons, StreamHeader.Inside]
  simp only [List.not_mem_nil, false_implies, implies_true, and_true]
  omega

/-- An image that is written from tables and heaps is opened with them. -/
theorem ofFile_image [Host] (small : 68 + tables.length + texts.length + blobs.length < UInt32.size) :
    ofFile (image tables texts blobs) = (do
      let stream ← TableStream.ofBytes ⟨tables.toArray⟩
      let textHeap ← TextHeap.ofBytes ⟨texts.toArray⟩
      let blobHeap ← BlobHeap.ofBytes ⟨blobs.toArray⟩
      return ⟨rootOf tables texts blobs, stream, some textHeap, some blobHeap⟩) := by
  have opened := ofBytes_image small
  have written : (Cursor.ofBytes (image tables texts blobs)).Next
      ((rootOf tables texts blobs).bytes 0 0 ++ (tables ++ (texts ++ blobs))) :=
    Cursor.next_ofBytes_iff.2 (prefix_toList_mk _)
  have behind := written.right
  rw [length_rootOf] at behind
  have first := behind.left.extract_eq
  have second := behind.right.left.extract_eq
  have third := behind.right.right.extract_eq
  simp only [Cursor.advance, Cursor.ofBytes, Nat.zero_add] at first second third
  have tableStream : (rootOf tables texts blobs).tablesStream? =
    some ⟨.tables, 68, tables.length⟩ := rfl
  have textStream : (rootOf tables texts blobs).stream? .texts =
    some ⟨.texts, 68 + tables.length, texts.length⟩ := rfl
  have blobStream : (rootOf tables texts blobs).stream? .blobs =
    some ⟨.blobs, 68 + tables.length + texts.length, blobs.length⟩ := rfl
  rw [Assembly.metadata_ofFile_eq opened, ofBytes_eq opened tableStream,
    Root.streamData?_eq opened, Root.streamData?_eq opened]
  simp only [textStream, blobStream, Option.map_some, Option.mapM_some, Extent.bytes,
    StreamHeader.extent, first, second, third, map_eq_pure_bind, bind_assoc, pure_bind]

end Metadata

namespace Assembly

def asciiTexts (texts : List String) : List UInt8 :=
  texts.flatMap fun text => text.toList.map (fun c => UInt8.ofNat c.toNat) ++ [0]

def passes [Host] (test : Assembly → Metadata → Bool) (opened : Except Error Metadata) : Bool :=
  match opened with
  | .error _ => false
  | .ok m =>
    match m.identity with
    | .error _ => false
    | .ok identity => test (ofMetadata m identity).value m

theorem exists_of_passes [Host] {test : Assembly → Metadata → Bool} {data : ByteArray}
    (h : passes test (Metadata.ofFile data) = true) :
    ∃ a m, (ofFile data false).value = .ok a ∧ Metadata.ofFile data = .ok m ∧ test a m = true := by
  unfold passes at h
  rw [ofFile_value]
  cases opened : Metadata.ofFile data with
  | error e => simp [opened] at h
  | ok m =>
    cases named : m.identity with
    | error e => simp [opened, named] at h
    | ok identity =>
      rw [opened] at h
      simp only [named] at h
      exact ⟨_, m, bind_eq_ok_iff.2 ⟨m, rfl, bind_eq_ok_iff.2 ⟨identity, named, rfl⟩⟩, rfl, h⟩

end Assembly

end FrameworkAudit
