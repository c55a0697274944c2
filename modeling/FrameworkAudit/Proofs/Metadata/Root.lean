import FrameworkAudit.Container
import FrameworkAudit.Proofs.Cursor
import FrameworkAudit.Proofs.Result
import FrameworkAudit.Proofs.Utf8

/-!
What a metadata root that was accepted looks like, and which of its bytes decide it: the magic, the
length of the version text, and the stream directory, which is the number of streams and their
headers. The other fields at its front can be anything.
-/

set_option autoImplicit false

namespace FrameworkAudit

open Bytes

variable {a b data : ByteArray}

namespace Bytes

theorem getElem?_dropFirst (data : ByteArray) (start i : Nat) :
    (dropFirst data start)[i]? = data[start + i]? := by
  rw [dropFirst, getElem?_extract]
  split
  · rfl
  · rw [getElem?_neg data (start + i) (by omega)]

theorem Agree.dropFirst {first start stop : Nat} (h : Agree a b (first + start) (first + stop)) :
    Agree (dropFirst a first) (dropFirst b first) start stop := by
  intro i hi hs
  rw [getElem?_dropFirst, getElem?_dropFirst, h (first + i) (by omega) (by omega)]

end Bytes

namespace StreamName

theorem ascii (name : StreamName) : ∀ c ∈ name.text.toList, 0 < c.toNat ∧ c.toNat < 0x80 := by
  have all : (name.text.toList.all fun c => 0 < c.toNat && c.toNat < 0x80) = true := by
    cases name <;> decide
  simpa using all

theorem utf8ByteSize_text (name : StreamName) : name.text.utf8ByteSize = name.text.length := by
  cases name <;> decide

theorem length_text_lt (name : StreamName) : name.text.length < 32 := by
  cases name <;> decide

theorem text_of_ofText? {text : String} {name : StreamName} (h : ofText? text = some name) :
    name.text = text := by
  simpa using List.find?_some h

end StreamName

namespace StreamHeader

variable {name : StreamName} {header : StreamHeader}

theorem readName_eq_ok_iff :
    readName data = .ok name ↔
      Text.Utf8.lossy (data.extract 8 (8 + name.text.length)) = name.text ∧
        data[8 + name.text.length]? = some 0 ∧
        ∀ i, 8 ≤ i → i < 8 + name.text.length → data[i]? ≠ some 0 := by
  have room (i : Nat) (hi : i < 32) : (data.extract 8 40)[i]? = data[8 + i]? := by
    rw [getElem?_extract, if_pos (by omega)]
  have short := name.length_text_lt
  constructor
  · intro h
    unfold readName at h
    dsimp only at h
    split at h
    · cases h
    · rename_i stop hstop
      split at h
      · rename_i found hfound
        cases h
        have text := StreamName.text_of_ofText? hfound
        obtain ⟨-, zero, none⟩ := zeroFrom?_eq_some_iff.1 hstop
        have inside : stop < (data.extract 8 40).size := by
          by_contra past
          rw [getElem?_neg (data.extract 8 40) stop past] at zero
          cases zero
        have bound : stop < 32 := by
          rw [ByteArray.size_extract] at inside
          omega
        have size := Text.Utf8.size_of_lossy text.symm name.ascii
        rw [ByteArray.size_extract, Nat.min_eq_left (by omega), Nat.sub_zero] at size
        subst size
        rw [ByteArray.extract_extract, Nat.min_eq_left (by omega)] at text
        refine ⟨text.symm, (room _ bound).symm.trans zero, fun i hle hlt hz => ?_⟩
        refine none (i - 8) (Nat.zero_le _) (by omega) ?_
        rw [room (i - 8) (by omega), Nat.add_sub_cancel' hle, hz]
      · cases h
  · rintro ⟨text, zero, none⟩
    have stop : zeroFrom? (data.extract 8 40) 0 = some name.text.length := by
      refine zeroFrom?_eq_some_iff.2 ⟨Nat.zero_le _, by rw [room _ short, zero], fun i _ hi => ?_⟩
      rw [room i (by omega)]
      exact none (8 + i) (by omega) (by omega)
    have taken : (data.extract 8 40).extract 0 name.text.length =
        data.extract 8 (8 + name.text.length) := by
      rw [ByteArray.extract_extract, Nat.min_eq_left (by omega)]
    simp only [readName, stop, taken, text, StreamName.ofText?_text]

theorem ofBytes_eq_ok_iff :
    ofBytes data = .ok header ↔
      9 ≤ data.size ∧ readName data = .ok header.name ∧ word data 0 4 = .ok header.offset ∧
        word data 4 4 = .ok header.size := by
  simp only [ofBytes, check_eq_ok_iff, bind_eq_ok_iff, pure_eq_ok_iff, Nat.not_lt]
  constructor
  · rintro ⟨size, name, hn, offset, ho, length, hl, rfl⟩
    exact ⟨size, hn, ho, hl⟩
  · rintro ⟨size, hn, ho, hl⟩
    exact ⟨size, _, hn, _, ho, _, hl, rfl⟩

theorem lt_headerSize (header : StreamHeader) : 8 + header.name.text.length < header.headerSize := by
  rw [headerSize, StreamName.utf8ByteSize_text]
  omega

theorem lt_size_of_ofBytes (h : ofBytes data = .ok header) :
    8 + header.name.text.length < data.size := by
  obtain ⟨-, hn, -, -⟩ := ofBytes_eq_ok_iff.1 h
  obtain ⟨-, zero, -⟩ := readName_eq_ok_iff.1 hn
  by_contra past
  rw [getElem?_neg data _ past] at zero
  cases zero

theorem ofBytes_of_agree (size : a.size ≤ b.size)
    (agree : Agree a b 0 (8 + header.name.text.length + 1)) (h : ofBytes a = .ok header) :
    ofBytes b = .ok header := by
  obtain ⟨bound, hn, ho, hl⟩ := ofBytes_eq_ok_iff.1 h
  obtain ⟨text, zero, none⟩ := readName_eq_ok_iff.1 hn
  have inside := lt_size_of_ofBytes h
  have sees (i : Nat) (hi : i < 8 + header.name.text.length + 1) : b[i]? = a[i]? :=
    (agree i (Nat.zero_le _) hi).symm
  have name : readName b = .ok header.name := by
    refine readName_eq_ok_iff.2 ⟨?_, by rw [sees _ (Nat.lt_succ_self _), zero], fun i hle hlt => ?_⟩
    · rw [← (agree.mono (Nat.zero_le _) (by omega)).extract_eq (by omega) (by omega), text]
    · rw [sees i (by omega)]
      exact none i hle hlt
  exact ofBytes_eq_ok_iff.2 ⟨by omega, name,
    (agree.mono (Nat.zero_le _) (by omega)).word_ok size ho,
    (agree.mono (Nat.zero_le _) (by omega)).word_ok size hl⟩

end StreamHeader

namespace Root

variable {root : Root} {streams : List StreamHeader} {offset count : Nat}

theorem checkRange_eq_ok_iff {length : Nat} {stream : StreamHeader} :
    checkRange length stream = .ok () ↔
      stream.offset + stream.size < UInt32.size ∧ stream.offset + stream.size ≤ length := by
  unfold checkRange
  dsimp only
  split
  · rename_i h
    simp only [reduceCtorEq, false_iff]
    omega
  · split
    · simp only [reduceCtorEq, false_iff]
      omega
    · simp only [true_iff]
      omega

def headerBytes (streams : List StreamHeader) : Nat :=
  streams.foldr (fun header size => header.headerSize + size) 0

theorem readStreams_succ_eq_ok_iff :
    readStreams data offset (count + 1) = .ok streams ↔
      offset < data.size ∧ ∃ stream rest,
        StreamHeader.ofBytes (dropFirst data offset) = .ok stream ∧
        checkRange data.size stream = .ok () ∧
        readStreams data (offset + stream.headerSize) count = .ok rest ∧ streams = stream :: rest := by
  simp only [readStreams, check_eq_ok_iff, bind_eq_ok_iff, pure_eq_ok_iff, Nat.not_le]
  constructor
  · rintro ⟨inside, stream, hs, ⟨⟩, hc, rest, hr, rfl⟩
    exact ⟨inside, stream, rest, hs, hc, hr, rfl⟩
  · rintro ⟨inside, stream, rest, hs, hc, hr, rfl⟩
    exact ⟨inside, stream, hs, (), hc, rest, hr, rfl⟩

theorem readStreams_of_agree (size : a.size ≤ b.size)
    (agree : Agree a b offset (offset + headerBytes streams))
    (h : readStreams a offset count = .ok streams) : readStreams b offset count = .ok streams := by
  induction count generalizing offset streams with
  | zero => exact h
  | succ count ih =>
    obtain ⟨inside, stream, rest, hs, hc, hr, rfl⟩ := readStreams_succ_eq_ok_iff.1 h
    have split : headerBytes (stream :: rest) = stream.headerSize + headerBytes rest := rfl
    rw [split] at agree
    have sizes : (dropFirst a offset).size ≤ (dropFirst b offset).size := by
      simp only [dropFirst, ByteArray.size_extract]
      omega
    have padded := stream.lt_headerSize
    have header : Agree (dropFirst a offset) (dropFirst b offset) 0
        (8 + stream.name.text.length + 1) :=
      Agree.dropFirst (agree.mono (by omega) (by omega))
    obtain ⟨small, fits⟩ := checkRange_eq_ok_iff.1 hc
    exact readStreams_succ_eq_ok_iff.2 ⟨by omega, stream, rest,
      StreamHeader.ofBytes_of_agree sizes header hs,
      checkRange_eq_ok_iff.2 ⟨small, by omega⟩, ih (agree.mono (by omega) (by omega)) hr, rfl⟩

theorem inside_of_readStreams (h : readStreams data offset count = .ok streams) :
    ∀ stream ∈ streams, stream.offset + stream.size ≤ data.size := by
  induction count generalizing offset streams with
  | zero =>
    cases h
    simp
  | succ count ih =>
    obtain ⟨-, stream, rest, -, hc, hr, rfl⟩ := readStreams_succ_eq_ok_iff.1 h
    exact List.forall_mem_cons.2 ⟨(checkRange_eq_ok_iff.1 hc).2, ih hr⟩

def versionBytes (data : ByteArray) : Nat := littleEndian data 12 4

def streamCount (data : ByteArray) : Nat := littleEndian data (18 + versionBytes data) 2

def front (data : ByteArray) : Root where
  signature := magic
  majorVersion := littleEndian data 4 2
  minorVersion := littleEndian data 6 2
  version := dropPadding (Text.Utf8.lossy (data.extract 16 (16 + versionBytes data)))
  flags := littleEndian data (16 + versionBytes data) 2
  streams := []

theorem readFront_ok_iff {result : Root × Nat} {c : Cursor} :
    readFront (.ofBytes data) = .ok result c ↔
      20 + versionBytes data ≤ data.size ∧ littleEndian data 0 4 = magic ∧
        (0 < streamCount data ∧ streamCount data ≤ maxStreams) ∧
        result = (front data, streamCount data) ∧ c = ⟨data, 20 + versionBytes data⟩ := by
  simp only [readFront, Read.bind_ok_iff, Read.check_ok_iff, Read.word_ok_iff, Read.skip_ok_iff,
    Read.bytes_ok_iff, Read.pure_ok_iff, Cursor.ofBytes, Cursor.remaining, and_assoc,
    exists_and_left, exists_eq_left, Nat.reduceAdd]
  have count : littleEndian data (16 + littleEndian data 12 4 + 2) 2 = streamCount data := by
    rw [streamCount, versionBytes, Nat.add_right_comm]
  have stop : 16 + littleEndian data 12 4 + 2 + 2 = 20 + versionBytes data := by
    rw [versionBytes]
    omega
  rw [count, stop]
  constructor
  · rintro ⟨-, signature, -, -, -, -, -, -, inside, counted, rfl, -, rfl⟩
    have signature : littleEndian data 0 4 = magic := Decidable.not_not.1 signature
    refine ⟨inside, signature, by omega, by omega, ?_, rfl⟩
    rw [signature]
    rfl
  · rintro ⟨inside, signature, some, few, rfl, rfl⟩
    have counted : ¬ (streamCount data = 0 ∨ maxStreams < streamCount data) := by omega
    have room : littleEndian data 12 4 ≤ data.size - 16 := by
      unfold versionBytes at inside
      omega
    refine ⟨by omega, not_not.2 signature, by omega, by omega, by omega, by omega, room, by omega,
      inside, counted, ?_, (), rfl⟩
    rw [signature]
    rfl

theorem ofBytes_eq_ok_iff :
    ofBytes data = .ok root ↔
      20 + versionBytes data ≤ data.size ∧ littleEndian data 0 4 = magic ∧
        (0 < streamCount data ∧ streamCount data ≤ maxStreams) ∧
        ∃ streams, readStreams data (20 + versionBytes data) (streamCount data) = .ok streams ∧
          root = { front data with streams } := by
  unfold ofBytes
  cases h : readFront (.ofBytes data) with
  | error e c =>
    simp only [reduceCtorEq, false_iff]
    rintro ⟨inside, signature, counted, -⟩
    have ok := readFront_ok_iff.2 ⟨inside, signature, counted, rfl, rfl⟩
    rw [h] at ok
    cases ok
  | ok result c =>
    obtain ⟨inside, signature, counted, rfl, rfl⟩ := readFront_ok_iff.1 h
    simp only [bind_eq_ok_iff, pure_eq_ok_iff, inside, signature, counted, true_and, and_self,
      eq_comm (a := root)]

def directory (data : ByteArray) (root : Root) : Extent :=
  ⟨18 + versionBytes data, 2 + headerBytes root.streams⟩

theorem ofBytes_of_agree (size : a.size ≤ b.size) (first : Agree a b 0 4) (version : Agree a b 12 16)
    (listed : Agree a b (root.directory a).offset
      ((root.directory a).offset + (root.directory a).length))
    (h : ofBytes a = .ok root) :
    ofBytes b = .ok { front b with streams := root.streams } := by
  obtain ⟨inside, signature, counted, streams, hs, rfl⟩ := ofBytes_eq_ok_iff.1 h
  simp only [directory] at listed
  have length : versionBytes b = versionBytes a :=
    (Agree.littleEndian_eq (version : Agree a b 12 (12 + 4))).symm
  have count : streamCount b = streamCount a := by
    unfold streamCount
    rw [length]
    have counted : Agree a b (18 + versionBytes a) (18 + versionBytes a + 2) :=
      listed.mono (Nat.le_refl _) (by omega)
    exact counted.littleEndian_eq.symm
  have headers := readStreams_of_agree size (listed.mono (by omega) (by omega)) hs
  refine ofBytes_eq_ok_iff.2 ⟨by omega, ?_, by omega, streams, by rwa [length, count], rfl⟩
  rw [← signature]
  exact (Agree.littleEndian_eq (first : Agree a b 0 (0 + 4))).symm

variable {name : StreamName} {header : StreamHeader}

theorem inside_of_ofBytes (h : ofBytes data = .ok root) :
    ∀ stream ∈ root.streams, stream.offset + stream.size ≤ data.size := by
  obtain ⟨-, -, -, streams, hs, rfl⟩ := ofBytes_eq_ok_iff.1 h
  exact inside_of_readStreams hs

theorem mem_of_stream? (h : root.stream? name = some header) :
    header ∈ root.streams ∧ header.name = name :=
  ⟨List.mem_of_find?_eq_some h, by simpa using List.find?_some h⟩

theorem streamData?_eq (h : ofBytes data = .ok root) :
    root.streamData? data name =
      (root.stream? name).map fun header =>
        data.extract header.offset (header.offset + header.size) := by
  unfold streamData?
  cases hs : root.stream? name with
  | none => rfl
  | some header =>
    have inside := inside_of_ofBytes h header (mem_of_stream? hs).1
    simp [slice, inside, Except.toOption]

end Root

end FrameworkAudit
