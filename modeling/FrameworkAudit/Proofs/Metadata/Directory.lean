import FrameworkAudit.Proofs.Metadata.Columns
import FrameworkAudit.Proofs.Metadata.Root
import FrameworkAudit.Proofs.Text.Utf8

/-!
Writing a metadata root: its front, and a directory of streams in which each header begins where the
padded name of the one before it ends. A root that was written is read back if its streams lie inside
the data, and a root that is read has a directory that was written so.
-/

set_option autoImplicit false

namespace FrameworkAudit

open Bytes

namespace Cursor

theorem next_dropFirst_iff {data : ByteArray} {bytes : List UInt8} {start : Nat} :
    (ofBytes (dropFirst data start)).Next bytes ↔ (⟨data, start⟩ : Cursor).Next bytes := by
  simp only [Next, ofBytes, Nat.zero_add, getElem?_dropFirst]

end Cursor

namespace StreamName

def bytes : StreamName → List UInt8
  | .texts => [0x23, 0x53, 0x74, 0x72, 0x69, 0x6E, 0x67, 0x73, 0]
  | .userTexts => [0x23, 0x55, 0x53, 0]
  | .blobs => [0x23, 0x42, 0x6C, 0x6F, 0x62, 0]
  | .guids => [0x23, 0x47, 0x55, 0x49, 0x44, 0]
  | .tables => [0x23, 0x7E, 0]
  | .editableTables => [0x23, 0x2D, 0]

/-- The texts that the reader knows are these names. -/
theorem bytes_eq_text (name : StreamName) : name.bytes = name.text.toUTF8.toList ++ [0] := by
  rw [toList_eq]
  cases name <;> rfl

theorem length_bytes (name : StreamName) : name.bytes.length = name.text.length + 1 := by
  cases name <;> rfl

theorem length_toUTF8 (name : StreamName) : name.text.toUTF8.toList.length = name.text.length := by
  rw [length_toList, ← utf8ByteSize_text]
  rfl

theorem ne_zero_of_mem_toUTF8 (name : StreamName) : ∀ b ∈ name.text.toUTF8.toList, b ≠ 0 := by
  have nonzero : name.text.toUTF8.data.toList.all (· != 0) = true := by cases name <;> decide
  rw [toList_eq]
  exact fun b hb => bne_iff_ne.1 (List.all_eq_true.1 nonzero b hb)

end StreamName

namespace StreamHeader

variable {header : StreamHeader} {name : StreamName} {data : ByteArray}

theorem readName_eq_ok_iff_next :
    readName data = .ok name ↔ (⟨data, 8⟩ : Cursor).Next name.bytes := by
  have length := name.length_toUTF8
  rw [readName_eq_ok_iff, StreamName.bytes_eq_text, Cursor.next_append_iff, length, Cursor.next_cons_iff]
  constructor
  · rintro ⟨text, zero, -⟩
    refine ⟨Cursor.next_of_toList ?_, zero, fun i hi => absurd hi (Nat.not_lt_zero i)⟩
    rw [length]
    exact Text.Utf8.toList_of_lossy text name.ascii
  · rintro ⟨next, zero, -⟩
    have own := next.extract_eq
    rw [length, mk_toList] at own
    refine ⟨by rw [own, Text.Utf8.lossy_toUTF8], zero, fun i hle hlt hz => ?_⟩
    have byte := next (i - 8) (by omega)
    rw [Nat.add_sub_cancel' hle, hz] at byte
    exact name.ne_zero_of_mem_toUTF8 0 (List.mem_of_getElem? byte.symm) rfl

def Fits (header : StreamHeader) : Prop := header.offset < UInt32.size ∧ header.size < UInt32.size

instance (header : StreamHeader) : Decidable header.Fits :=
  inferInstanceAs (Decidable (_ ∧ _))

def fields (header : StreamHeader) : List UInt8 :=
  ofNat 4 header.offset ++ (ofNat 4 header.size ++ header.name.bytes)

def bytes (header : StreamHeader) : List UInt8 :=
  header.fields ++ List.replicate ((4 - header.name.bytes.length % 4) % 4) 0

theorem length_fields (header : StreamHeader) :
    header.fields.length = 9 + header.name.text.length := by
  simp only [fields, List.length_append, length_ofNat, StreamName.length_bytes]
  omega

@[simp] theorem length_bytes (header : StreamHeader) : header.bytes.length = header.headerSize := by
  rw [bytes, List.length_append, List.length_replicate, length_fields, headerSize,
    StreamName.utf8ByteSize_text, StreamName.length_bytes]
  omega

theorem ofBytes_eq_ok_iff_next :
    ofBytes data = .ok header ↔ header.Fits ∧ (Cursor.ofBytes data).Next header.fields := by
  have offset : word data 0 4 = .ok header.offset ↔ _ :=
    word_eq_ok_iff_next (c := ⟨data, 0⟩) (by omega)
  have size : word data 4 4 = .ok header.size ↔ _ :=
    word_eq_ok_iff_next (c := ⟨data, 4⟩) (by omega)
  rw [ofBytes_eq_ok_iff, readName_eq_ok_iff_next, offset, size]
  constructor
  · rintro ⟨-, name, ⟨small, first⟩, short, second⟩
    exact ⟨⟨small, short⟩, Cursor.next_append_iff.2 ⟨first, Cursor.next_append_iff.2 ⟨second, name⟩⟩⟩
  · rintro ⟨⟨small, short⟩, h⟩
    have enough := h.length_le_remaining
    simp only [length_fields, Cursor.ofBytes, Cursor.remaining] at enough
    exact ⟨by omega, h.right.right, ⟨small, h.left⟩, short, h.right.left⟩

/-- Whether the range of a stream ends inside the data, at a position that 32 bits can hold. The offset
and the size have 32 bits each, but data may be longer than their sum can say. -/
def Inside (header : StreamHeader) (length : Nat) : Prop :=
  header.offset + header.size < UInt32.size ∧ header.offset + header.size ≤ length

instance (header : StreamHeader) (length : Nat) : Decidable (header.Inside length) :=
  inferInstanceAs (Decidable (_ ∧ _))

end StreamHeader

namespace Root

variable {root : Root} {streams before after : List StreamHeader} {header : StreamHeader}
  {data : ByteArray} {offset count reserved padding : Nat}

theorem readStreams_iff_of_next (fits : ∀ header ∈ streams, header.Fits)
    (h : (⟨data, offset⟩ : Cursor).Next (streams.flatMap StreamHeader.bytes)) :
    readStreams data offset streams.length = .ok streams ↔
      ∀ header ∈ streams, header.Inside data.size := by
  induction streams generalizing offset with
  | nil => simp [readStreams]
  | cons header rest ih =>
    rw [List.forall_mem_cons] at fits
    rw [List.flatMap_cons] at h
    have here : StreamHeader.ofBytes (dropFirst data offset) = .ok header :=
      StreamHeader.ofBytes_eq_ok_iff_next.2 ⟨fits.1, Cursor.next_dropFirst_iff.2 h.left.left⟩
    have room : offset < data.size := by
      have enough := h.left.length_le_remaining
      simp only [StreamHeader.length_bytes, StreamHeader.headerSize, Cursor.remaining] at enough
      omega
    have behind := h.right
    rw [StreamHeader.length_bytes] at behind
    rw [List.length_cons, readStreams_succ_eq_ok_iff, List.forall_mem_cons]
    constructor
    · rintro ⟨-, stream, others, -, inside, read, same⟩
      obtain ⟨rfl, rfl⟩ := List.cons.inj same
      exact ⟨checkRange_eq_ok_iff.1 inside, (ih fits.2 behind).1 read⟩
    · rintro ⟨inside, others⟩
      exact ⟨room, header, rest, here, checkRange_eq_ok_iff.2 inside, (ih fits.2 behind).2 others, rfl⟩

def paddedVersion (root : Root) (padding : Nat) : List UInt8 :=
  root.version.toUTF8.toList ++ List.replicate padding 0

def bytes (root : Root) (reserved padding : Nat) : List UInt8 :=
  ofNat 4 root.signature ++ (ofNat 2 root.majorVersion ++ (ofNat 2 root.minorVersion ++
    (ofNat 4 reserved ++ (ofNat 4 (root.paddedVersion padding).length ++
      (root.paddedVersion padding ++ (ofNat 2 root.flags ++ (ofNat 2 root.streams.length ++
        root.streams.flatMap StreamHeader.bytes)))))))

theorem length_flatMap_bytes (streams : List StreamHeader) :
    (streams.flatMap StreamHeader.bytes).length = headerBytes streams := by
  induction streams with
  | nil => rfl
  | cons header rest ih =>
    rw [List.flatMap_cons, List.length_append, StreamHeader.length_bytes, ih]
    rfl

theorem length_bytes (root : Root) (reserved padding : Nat) :
    (root.bytes reserved padding).length =
      20 + (root.paddedVersion padding).length + headerBytes root.streams := by
  simp only [bytes, List.length_append, length_ofNat, length_flatMap_bytes]
  omega

structure Fits (root : Root) (padding : Nat) : Prop where
  signature : root.signature = 0x424A5342
  majorVersion : root.majorVersion < UInt16.size
  minorVersion : root.minorVersion < UInt16.size
  /-- The padding would take in a zero character at the end of the text. -/
  unpadded : root.version.toList.getLast? ≠ some '\x00'
  length : (root.paddedVersion padding).length < UInt32.size
  flags : root.flags < UInt16.size
  nonempty : 0 < root.streams.length
  few : root.streams.length ≤ maxStreams
  streams : ∀ header ∈ root.streams, header.Fits

/-- The number that the reader looks for is the one that is written. -/
theorem Fits.magic (h : root.Fits padding) : root.signature = magic := h.signature

theorem dropPadding_append {cs : List Char} (h : cs.getLast? ≠ some '\x00') (padding : Nat) :
    dropPadding (String.ofList (cs ++ List.replicate padding '\x00')) = String.ofList cs := by
  have own : cs.reverse.dropWhile (· == '\x00') = cs.reverse := by
    cases hr : cs.reverse with
    | nil => rfl
    | cons c rest =>
      have last : cs.getLast? = some c := by rw [← List.head?_reverse, hr, List.head?_cons]
      have other : ¬ (c == '\x00') = true := fun e => h (by rw [last, eq_of_beq e])
      exact List.dropWhile_cons_of_neg other
  rw [dropPadding, String.toList_ofList, List.reverse_append, List.reverse_replicate,
    List.dropWhile_append_of_pos (by simp), own, List.reverse_reverse]

theorem dropPadding_lossy (h : root.version.toList.getLast? ≠ some '\x00') :
    dropPadding (Text.Utf8.lossy ⟨(root.paddedVersion padding).toArray⟩) = root.version := by
  have zeros : List.replicate padding 0 =
      (List.replicate padding '\x00').flatMap String.utf8EncodeChar := by
    induction padding with
    | zero => rfl
    | succ padding ih =>
      rw [List.replicate_succ, List.replicate_succ, List.flatMap_cons, ih]
      rfl
  rw [Text.Utf8.lossy, toList_mk, paddedVersion, Bytes.toList_toUTF8, zeros,
    ← List.flatMap_append, Text.Utf8.lossyFrom_flatMap, dropPadding_append h, String.ofList_toList]

theorem front_of_written (fits : root.Fits padding)
    (written : (Cursor.ofBytes data).Next (root.bytes reserved padding)) :
    versionBytes data = (root.paddedVersion padding).length ∧
      streamCount data = root.streams.length ∧ littleEndian data 0 4 = magic ∧
      front data = { root with streams := [] } ∧ 20 + versionBytes data ≤ data.size ∧
      (⟨data, 20 + versionBytes data⟩ : Cursor).Next (root.streams.flatMap StreamHeader.bytes) := by
  simp only [bytes, Cursor.next_append_iff, length_ofNat, Cursor.advance, Cursor.ofBytes,
    Nat.reduceAdd] at written
  obtain ⟨signature, major, minor, -, length, text, flags, count, listed⟩ := written
  have stop : 16 + (root.paddedVersion padding).length + 2 + 2 =
      20 + (root.paddedVersion padding).length := by omega
  rw [stop] at listed
  have room : 20 + (root.paddedVersion padding).length ≤ data.size := by
    have enough := count.length_le_remaining
    simp only [length_ofNat, Cursor.remaining] at enough
    omega
  have magical : littleEndian data 0 4 = magic :=
    fits.magic ▸ littleEndian_of_next signature (by rw [fits.magic]; decide)
  have lengthRead : versionBytes data = (root.paddedVersion padding).length :=
    littleEndian_of_next length fits.length
  have few : root.streams.length < UInt16.size := Nat.lt_of_le_of_lt fits.few (by decide)
  have counted : streamCount data = root.streams.length := by
    have place : 18 + (root.paddedVersion padding).length =
        16 + (root.paddedVersion padding).length + 2 := by omega
    rw [streamCount, lengthRead, place]
    exact littleEndian_of_next count few
  have majorRead : littleEndian data 4 2 = root.majorVersion :=
    littleEndian_of_next major fits.majorVersion
  have minorRead : littleEndian data 6 2 = root.minorVersion :=
    littleEndian_of_next minor fits.minorVersion
  have flagsRead : littleEndian data (16 + (root.paddedVersion padding).length) 2 = root.flags :=
    littleEndian_of_next flags fits.flags
  have front : front data = { root with streams := [] } := by
    rw [front, lengthRead, text.extract_eq, dropPadding_lossy fits.unpadded, majorRead, minorRead,
      flagsRead, ← fits.magic]
  rw [lengthRead]
  exact ⟨rfl, counted, magical, front, room, listed⟩

theorem ofBytes_iff_of_written (fits : root.Fits padding)
    (written : (Cursor.ofBytes data).Next (root.bytes reserved padding)) :
    ofBytes data = .ok root ↔ ∀ header ∈ root.streams, header.Inside data.size := by
  obtain ⟨-, count, signature, front, room, listed⟩ := front_of_written fits written
  rw [← readStreams_iff_of_next fits.streams listed, ofBytes_eq_ok_iff, count, front]
  constructor
  · rintro ⟨-, -, -, streams, read, same⟩
    have own : root.streams = streams := congrArg Root.streams same
    rw [own] at read ⊢
    exact read
  · intro read
    exact ⟨room, signature, ⟨fits.nonempty, fits.few⟩, root.streams, read, rfl⟩

def repeated : Root where
  signature := magic
  majorVersion := 1
  minorVersion := 1
  version := "v4.0-é"
  flags := 0
  streams := [⟨.tables, 16, 60⟩, ⟨.texts, 76, 0⟩, ⟨.tables, 0, 12⟩]

/-- One stream, the last of the bytes that an offset of 32 bits can reach. -/
def far : Root where
  signature := magic
  majorVersion := 1
  minorVersion := 1
  version := ""
  flags := 0
  streams := [⟨.tables, 0xFFFFFFFF, 1⟩]

end Root

end FrameworkAudit
