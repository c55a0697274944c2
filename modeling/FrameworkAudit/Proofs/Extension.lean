import FrameworkAudit.Proofs.Isolation

/-!
Bytes behind an image. What is read of a bare image lies between its start and the ends of its
streams, and every check of a length asks for enough bytes and never for few. So data that is
accepted stays accepted when more bytes follow, and the assembly is the same.
-/

set_option autoImplicit false

namespace FrameworkAudit

open Bytes

variable {a b data : ByteArray}

namespace Bytes

/-- Whether `b` begins with all the bytes of `a`. -/
structure Extends (a b : ByteArray) : Prop where
  size : a.size ≤ b.size
  agree : Agree a b 0 a.size

theorem getElem?_append_of_lt {rest : ByteArray} {i : Nat} (h : i < a.size) :
    (a ++ rest)[i]? = a[i]? := by
  have longer : i < (a ++ rest).size := by
    rw [ByteArray.size_append]
    omega
  rw [getElem?_pos (a ++ rest) i longer, getElem?_pos a i h, ByteArray.getElem_append_left h]

theorem extends_append (a rest : ByteArray) : Extends a (a ++ rest) where
  size := by
    rw [ByteArray.size_append]
    exact Nat.le_add_right _ _
  agree _ _ hi := (getElem?_append_of_lt hi).symm

namespace Extends

theorem agree_of_le (h : Extends a b) {first last : Nat} (inside : last ≤ a.size) :
    Agree a b first last :=
  h.agree.mono (Nat.zero_le _) inside

theorem dropFirst (h : Extends a b) (start : Nat) :
    Extends (dropFirst a start) (dropFirst b start) where
  size := by
    have size := h.size
    simp only [Bytes.dropFirst, ByteArray.size_extract]
    omega
  agree i _ hi := by
    rw [Bytes.dropFirst, ByteArray.size_extract] at hi
    rw [getElem?_dropFirst, getElem?_dropFirst, h.agree _ (Nat.zero_le _) (by omega)]

theorem extract_eq (h : Extends a b) {first last : Nat} (inside : last ≤ a.size) :
    a.extract first last = b.extract first last :=
  (h.agree_of_le inside).extract_eq inside (Nat.le_trans inside h.size)

theorem littleEndian_eq (h : Extends a b) {offset width : Nat} (inside : offset + width ≤ a.size) :
    littleEndian a offset width = littleEndian b offset width :=
  (h.agree_of_le inside).littleEndian_eq

end Extends

end Bytes

/-- The name of a header ends inside the data, so the bytes behind it do not matter, not even those
that pad the name. -/
theorem StreamHeader.ofBytes_of_extends {header : StreamHeader} (h : Extends a b)
    (read : ofBytes a = .ok header) : ofBytes b = .ok header :=
  ofBytes_of_agree h.size (h.agree_of_le (lt_size_of_ofBytes read)) read

namespace Root

variable {root : Root} {streams : List StreamHeader} {offset count : Nat}

theorem readStreams_of_extends (h : Extends a b) (read : readStreams a offset count = .ok streams) :
    readStreams b offset count = .ok streams := by
  have size := h.size
  induction count generalizing offset streams with
  | zero => exact read
  | succ count ih =>
    obtain ⟨inside, stream, rest, hs, hc, hr, rfl⟩ := readStreams_succ_eq_ok_iff.1 read
    obtain ⟨small, fits⟩ := checkRange_eq_ok_iff.1 hc
    exact readStreams_succ_eq_ok_iff.2 ⟨by omega, stream, rest,
      StreamHeader.ofBytes_of_extends (h.dropFirst offset) hs,
      checkRange_eq_ok_iff.2 ⟨small, by omega⟩, ih hr, rfl⟩

theorem front_of_extends (h : Extends a b) (inside : 20 + versionBytes a ≤ a.size) :
    front b = front a ∧ versionBytes b = versionBytes a ∧ streamCount b = streamCount a := by
  have length : versionBytes b = versionBytes a :=
    (h.littleEndian_eq (by omega)).symm
  have text : b.extract 16 (16 + versionBytes a) = a.extract 16 (16 + versionBytes a) :=
    (h.extract_eq (by omega)).symm
  have number {offset width : Nat} (hw : offset + width ≤ 20 + versionBytes a) :
      littleEndian b offset width = littleEndian a offset width :=
    (h.littleEndian_eq (by omega)).symm
  refine ⟨?_, length, ?_⟩
  · rw [front, front, length, text, number (by omega), number (by omega), number (by omega)]
  · rw [streamCount, streamCount, length, number (by omega)]

theorem ofBytes_of_extends (h : Extends a b) (opened : ofBytes a = .ok root) :
    ofBytes b = .ok root := by
  obtain ⟨inside, signature, counted, streams, hs, rfl⟩ := ofBytes_eq_ok_iff.1 opened
  obtain ⟨same, length, count⟩ := front_of_extends h inside
  have size := h.size
  have listed : readStreams b (20 + versionBytes a) (streamCount a) = .ok streams :=
    readStreams_of_extends h hs
  have first : littleEndian b 0 4 = littleEndian a 0 4 := (h.littleEndian_eq (by omega)).symm
  rw [← same, ofBytes_eq_ok_iff, length, count, first]
  exact ⟨by omega, signature, counted, streams, listed, rfl⟩

theorem streamData?_of_extends (h : Extends a b) (opened : ofBytes a = .ok root)
    (name : StreamName) : root.streamData? b name = root.streamData? a name := by
  rw [streamData?_eq opened, streamData?_eq (ofBytes_of_extends h opened)]
  cases hs : root.stream? name with
  | none => rfl
  | some header =>
    have inside := inside_of_ofBytes opened header (mem_of_stream? hs).1
    exact congrArg some (h.extract_eq inside).symm

end Root

namespace Metadata

theorem ofBytes_of_extends {root : Root} (h : Extends a b) (opened : Root.ofBytes a = .ok root) :
    ofBytes b = ofBytes a := by
  have same := Root.streamData?_of_extends h opened
  simp only [ofBytes, opened, Root.ofBytes_of_extends h opened, bind, Except.bind, same]

theorem exists_root_of_ofBytes {m : Metadata} (h : ofBytes data = .ok m) :
    ∃ root, Root.ofBytes data = .ok root := by
  obtain ⟨root, opened, -⟩ := bind_eq_ok_iff.1 h
  exact ⟨root, opened⟩

/-- Data that begins with `BSJB` is a bare image as a whole. -/
theorem ofFile_of_magic [Host] (bare : data.extract 0 4 = "BSJB".toUTF8) : ofFile data = ofBytes data := by
  have four : (data.extract 0 4).size = 4 := by
    rw [bare]
    decide
  rw [ByteArray.size_extract] at four
  have first : littleEndian data 0 4 = Root.magic := by
    have same : Agree (data.extract 0 4) data 0 (0 + 4) := by
      intro i _ hi
      rw [getElem?_extract, if_pos (by omega), Nat.zero_add]
    rw [← same.littleEndian_eq, bare]
    decide
  have filled : data.size ≠ 0 := by omega
  have magic : (word data 0 4).toOption = some Root.magic := by
    rw [word_eq_ok_iff.2 ⟨by omega, first.symm⟩]
    rfl
  simp only [ofFile, Extent.ofFile, filled, magic, if_false, if_true, bind, Except.bind,
    Extent.bytes, Nat.zero_add, ByteArray.extract_zero_size]

end Metadata

namespace Assembly

theorem ofFile_eq_of_metadata [Host] {cancelled : Bool} (h : Metadata.ofFile a = Metadata.ofFile b) :
    ofFile a cancelled = ofFile b cancelled := by
  rw [ofFile, ofFile, h]

/-- Bytes behind a bare image that is accepted do not matter: with any of them the assembly is the
same in all its parts, and so are the warnings. -/
theorem ofFile_append [Host] (data rest : ByteArray) (cancelled : Bool) (a : Assembly)
    (bare : data.extract 0 4 = "BSJB".toUTF8) (taken : (ofFile data cancelled).value = .ok a) :
    (ofFile (data ++ rest) cancelled).value = .ok a ∧
      (ofFile (data ++ rest) cancelled).lines = (ofFile data cancelled).lines := by
  obtain ⟨m, _, opened, -⟩ := exists_ofMetadata_of_ofFile taken
  rw [Metadata.ofFile_of_magic bare] at opened
  obtain ⟨root, hr⟩ := Metadata.exists_root_of_ofBytes opened
  have longer := extends_append data rest
  have same : Metadata.ofFile (data ++ rest) = Metadata.ofFile data := by
    rw [metadata_ofFile_eq hr, metadata_ofFile_eq (Root.ofBytes_of_extends longer hr)]
    exact Metadata.ofBytes_of_extends longer hr
  rw [ofFile_eq_of_metadata same]
  exact ⟨taken, rfl⟩

/-- An image that ends with the zero byte behind the name of its only stream, where three more would
pad it. The stream stands in the place of the version text: a module, and two references to types. -/
def unpadded : ByteArray :=
  ⟨#[0x42, 0x53, 0x4A, 0x42, 1, 0, 1, 0, 0, 0, 0, 0, 54, 0, 0, 0,
     0, 0, 0, 0, 2, 0, 0, 1, 3, 0, 0, 0, 0, 0, 0, 0, 0, 0, 0, 0, 0, 0, 0, 0, 1, 0, 0, 0, 2, 0, 0, 0,
     0, 0, 0, 0, 0, 0, 0, 0, 0, 0,
     0, 0, 0, 0, 0, 0,
     4, 0, 0, 0, 0, 0,
     0, 0, 1, 0,
     16, 0, 0, 0, 54, 0, 0, 0, 0x23, 0x7E, 0]⟩

/-- The bytes that follow stand where the name would be padded, and behind. -/
theorem ofFile_append_unpadded : ∃ a, unpadded.extract 0 4 = "BSJB".toUTF8 ∧
    (ofFile unpadded false).value = .ok a ∧
    (ofFile (unpadded ++ ⟨#[0x2D, 0, 7]⟩) false).value = .ok a ∧
    a.typeRef? 2 = some ⟨"", "", ⟨.module, 1⟩⟩ := by
  have bare : unpadded.extract 0 4 = "BSJB".toUTF8 := by decide
  have facts : (ofFile unpadded false).value.toOption.map (fun a => a.typeRef? 2) =
      some (some ⟨"", "", ⟨.module, 1⟩⟩) := by decide +kernel
  obtain ⟨a, ha, second⟩ := Option.map_eq_some_iff.1 facts
  have taken := toOption_eq_some_iff.1 ha
  exact ⟨a, bare, taken, (ofFile_append unpadded ⟨#[0x2D, 0, 7]⟩ false a bare taken).1, second⟩

end Assembly

end FrameworkAudit
