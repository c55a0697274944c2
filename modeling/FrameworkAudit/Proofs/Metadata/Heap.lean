import FrameworkAudit.Metadata.Heap
import FrameworkAudit.Proofs.Compressed
import FrameworkAudit.Proofs.Text.Utf8

/-!
Writing heaps. A heap is a zero byte and its entries one after the other, blobs with their length in
front and texts with a zero byte behind them. Every entry is read back at its offset, which is the
length of the heap of the entries before it, and a text also from each character on, whatever bytes
follow the heap.
-/

set_option autoImplicit false

namespace FrameworkAudit

open Bytes

namespace Heap

variable {α : Type} {entry : α → List UInt8} {items : List α} {item : α} {i : Nat}

def bytes (entry : α → List UInt8) (items : List α) : List UInt8 := 0 :: items.flatMap entry

def offset (entry : α → List UInt8) (items : List α) (i : Nat) : Nat :=
  (bytes entry (items.take i)).length

def data (entry : α → List UInt8) (items : List α) (rest : List UInt8) : ByteArray :=
  ⟨(bytes entry items ++ rest).toArray⟩

theorem bytes_eq_append (h : items[i]? = some item) :
    bytes entry items =
      bytes entry (items.take i) ++ (entry item ++ (items.drop (i + 1)).flatMap entry) := by
  obtain ⟨inside, rfl⟩ := List.getElem?_eq_some_iff.1 h
  rw [bytes, bytes, List.cons_append, ← List.flatMap_cons, ← List.drop_eq_getElem_cons inside,
    ← List.flatMap_append, List.take_append_drop]

theorem next_data (entry : α → List UInt8) (items : List α) (rest : List UInt8) :
    (Cursor.ofBytes (data entry items rest)).Next (bytes entry items) :=
  Cursor.next_ofBytes _ rest

theorem next_offset {data : ByteArray} (written : (Cursor.ofBytes data).Next (bytes entry items))
    (h : items[i]? = some item) : (⟨data, offset entry items i⟩ : Cursor).Next (entry item) := by
  rw [bytes_eq_append h] at written
  have behind := written.right.left
  rwa [Cursor.advance, Cursor.ofBytes, Nat.zero_add] at behind

theorem next_zero {data : ByteArray} (written : (Cursor.ofBytes data).Next (bytes entry items)) :
    (Cursor.ofBytes data).Next [0] :=
  have parts : (Cursor.ofBytes data).Next ([0] ++ items.flatMap entry) := written
  parts.left

end Heap

namespace BlobHeap

variable {heap : BlobHeap} {blob : ByteArray} {index : Nat}

def entry (blob : ByteArray) : List UInt8 := numberBytes blob.size ++ blob.toList

theorem entry_empty : entry ⟨#[]⟩ = [0] :=
  congrArg (numberBytes 0 ++ ·) (toList_mk [])

theorem get_of_next (small : blob.size < NumberWidth.four.limit)
    (h : (⟨heap.data, index⟩ : Cursor).Next (entry blob)) : heap.get index = .ok blob := by
  have length := Read.compressedNat_of_numberBytes small h.left
  have content := Read.bytes_of_next h.right
  rw [length_toList, mk_toList] at content
  rw [get, Read.runAt, readBlob, Read.bind_apply, length]
  dsimp only
  rw [content]

theorem get_of_le (past : heap.data.size ≤ index) : heap.get index = .error .outOfBounds := by
  have first : Read.word 1 ⟨heap.data, index⟩ = .error .outOfBounds ⟨heap.data, index⟩ :=
    Read.word_of_short (Nat.lt_succ_of_le past)
  rw [get, Read.runAt, readBlob, Read.bind_apply, Read.compressedNat, Read.bind_apply, first]

structure Holds (heap : BlobHeap) (blobs : List ByteArray) : Prop where
  empty : heap.get 0 = .ok ⟨#[]⟩
  atOffset : ∀ i blob, blobs[i]? = some blob → heap.get (Heap.offset entry blobs i) = .ok blob
  pastEnd : ∀ index, heap.data.size ≤ index → heap.get index = .error .outOfBounds

theorem holds_of_next {blobs : List ByteArray}
    (small : ∀ blob ∈ blobs, blob.size < NumberWidth.four.limit)
    (written : (Cursor.ofBytes heap.data).Next (Heap.bytes entry blobs)) : heap.Holds blobs where
  empty := get_of_next (by decide) (entry_empty ▸ Heap.next_zero written)
  atOffset _ blob at_i :=
    get_of_next (small blob (List.mem_of_getElem? at_i)) (Heap.next_offset written at_i)
  pastEnd _ past := get_of_le past

end BlobHeap

namespace TextHeap

variable {heap : TextHeap} {text first last : String} {index : Nat}

def entry (text : String) : List UInt8 := text.toUTF8.toList ++ [0]

theorem entry_empty : entry "" = [0] :=
  congrArg (· ++ [0]) (toList_mk [])

theorem entry_append (first last : String) :
    entry (first ++ last) = first.toUTF8.toList ++ entry last := by
  simp only [entry, Bytes.toList_toUTF8, String.toList_append, List.flatMap_append,
    List.append_assoc]

theorem get_of_next (filled : '\x00' ∉ text.toList)
    (h : (⟨heap.data, index⟩ : Cursor).Next (entry text)) : heap.get index = .ok text := by
  have content := h.left.extract_eq
  have zero := h.right.byte
  have inside := h.right.lt_size
  simp only [Cursor.advance] at content zero inside
  generalize atStop : index + text.toUTF8.toList.length = stop at content zero inside
  have ends : zeroFrom? heap.data index = some stop := by
    refine zeroFrom?_eq_some_iff.2 ⟨by omega, zero, fun i hi hs same => ?_⟩
    have here := h.left (i - index) (by omega)
    rw [Nat.add_sub_cancel' hi, same] at here
    exact Text.Utf8.ne_zero_of_mem_toUTF8 filled 0 (List.mem_of_getElem? here.symm) rfl
  rw [get, if_neg (by omega), ends]
  dsimp only
  rw [content, mk_toList, Text.Utf8.fromUTF8?_toUTF8]

theorem get_of_le (past : heap.data.size ≤ index) : heap.get index = .error .outOfBounds := by
  rw [get, if_pos past]

theorem get_of_next_append (filled : '\x00' ∉ (first ++ last).toList)
    (h : (⟨heap.data, index⟩ : Cursor).Next (entry (first ++ last))) :
    heap.get (index + first.utf8ByteSize) = .ok last := by
  have size : first.toUTF8.toList.length = first.utf8ByteSize := length_toList _
  rw [entry_append] at h
  rw [String.toList_append, List.mem_append, not_or] at filled
  rw [← size]
  exact get_of_next filled.2 h.right

structure Holds (heap : TextHeap) (texts : List String) : Prop where
  empty : heap.get 0 = .ok ""
  atOffset : ∀ i text, texts[i]? = some text → heap.get (Heap.offset entry texts i) = .ok text
  atCharacter : ∀ i text (p : text.Pos), texts[i]? = some text →
    heap.get (Heap.offset entry texts i + p.offset.byteIdx) = .ok (text.sliceFrom p).copy
  pastEnd : ∀ index, heap.data.size ≤ index → heap.get index = .error .outOfBounds

theorem holds_of_next {texts : List String} (filled : ∀ text ∈ texts, '\x00' ∉ text.toList)
    (written : (Cursor.ofBytes heap.data).Next (Heap.bytes entry texts)) : heap.Holds texts where
  empty := get_of_next (by decide) (entry_empty ▸ Heap.next_zero written)
  atOffset _ text at_i :=
    get_of_next (filled text (List.mem_of_getElem? at_i)) (Heap.next_offset written at_i)
  atCharacter i text p at_i := by
    have free := filled text (List.mem_of_getElem? at_i)
    have stored := Heap.next_offset written at_i
    have parts := p.splits
    rw [parts.eq_append] at free stored
    rw [parts.offset_eq_rawEndPos]
    exact get_of_next_append free stored
  pastEnd _ past := get_of_le past

end TextHeap

/-- Heaps are read back entry by entry, whatever bytes follow them. -/
theorem Heap.holds_data :
    (∀ (blobs : List ByteArray) (rest : List UInt8), (∀ blob ∈ blobs, blob.size < 0x20000000) →
      ∃ heap, BlobHeap.ofBytes (data BlobHeap.entry blobs rest) = .ok heap ∧
        heap.data = data BlobHeap.entry blobs rest ∧ heap.Holds blobs) ∧
    ∀ (texts : List String) (rest : List UInt8), (∀ text ∈ texts, '\x00' ∉ text.toList) →
      ∃ heap, TextHeap.ofBytes (data TextHeap.entry texts rest) = .ok heap ∧
        heap.data = data TextHeap.entry texts rest ∧ heap.Holds texts := by
  constructor
  · intro blobs rest small
    have written := next_data BlobHeap.entry blobs rest
    exact ⟨_, if_pos (next_zero written).byte, rfl, BlobHeap.holds_of_next small written⟩
  · intro texts rest filled
    have written := next_data TextHeap.entry texts rest
    exact ⟨_, if_pos (next_zero written).byte, rfl, TextHeap.holds_of_next filled written⟩

/-- A blob of two bytes, and a text that is read from its second character on. -/
theorem Heap.holds_data_accent :
    (∃ heap, BlobHeap.ofBytes ⟨#[0, 2, 1, 0x80, 7]⟩ = .ok heap ∧ heap.get 1 = .ok ⟨#[1, 0x80]⟩) ∧
    ∃ heap, TextHeap.ofBytes ⟨#[0, 0xC3, 0xA9, 0x61, 0, 7]⟩ = .ok heap ∧ heap.get 3 = .ok "a" := by
  constructor
  · have written : data BlobHeap.entry [⟨#[1, 0x80]⟩] [7] = ⟨#[0, 2, 1, 0x80, 7]⟩ := by
      simp only [data, bytes, List.flatMap_cons, List.flatMap_nil, BlobHeap.entry, toList_eq]
      rfl
    obtain ⟨heap, accepted, -, holds⟩ := holds_data.1 [⟨#[1, 0x80]⟩] [7] (by decide)
    exact ⟨heap, written ▸ accepted, holds.atOffset 0 _ rfl⟩
  · have written : data TextHeap.entry ["éa"] [7] = ⟨#[0, 0xC3, 0xA9, 0x61, 0, 7]⟩ := by
      simp only [data, bytes, List.flatMap_cons, List.flatMap_nil, TextHeap.entry,
        Bytes.toList_toUTF8]
      rfl
    obtain ⟨heap, accepted, -, holds⟩ := holds_data.2 ["éa"] [7] (by decide)
    have second := holds.atCharacter 0 "éa" ("éa".pos ⟨2⟩ (by decide)) rfl
    exact ⟨heap, written ▸ accepted, second⟩

end FrameworkAudit
