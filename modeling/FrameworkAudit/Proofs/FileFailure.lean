import FrameworkAudit.Proofs.Dependency.Outcome
import FrameworkAudit.Proofs.Dependency.Pool
import FrameworkAudit.Proofs.Metadata.Row
import FrameworkAudit.Proofs.Signature.Compositional

/-!
Why a file gives no dependencies. Whatever stands in it, the reason is the file's: damage, a container
that cannot be opened, a core library that is missing, or a member that cannot be written. No file
makes a target unknown, and none says that it was asked to stop, unless it answers for itself.
-/

set_option autoImplicit false

namespace FrameworkAudit

@[simp] def Error.isOfFile : Error → Bool
  | .unknownTarget _ | .cancelled | .arityOverflow => false
  | _ => true

theorem Error.isOfFile_of_isMalformedInput {e : Error} (h : e.isMalformedInput = true) :
    e.isOfFile = true := by
  cases e <;> first | rfl | cases h

def FailsByFile {α : Type} (result : Except Error α) : Prop :=
  ∀ e, result = .error e → e.isOfFile = true

section

variable {α β : Type} {data : ByteArray} {offset : Nat} {e : Error}

@[simp] theorem failsByFile_ok (value : α) : FailsByFile (.ok value) := fun _ failed => nomatch failed

@[simp] theorem failsByFile_pure (value : α) : FailsByFile (pure value) := failsByFile_ok value

@[simp] theorem failsByFile_error_iff :
    FailsByFile (.error e : Except Error α) ↔ e.isOfFile = true := by
  simp [FailsByFile]

@[simp] theorem failsByFile_throw_iff :
    FailsByFile (throw e : Except Error α) ↔ e.isOfFile = true := failsByFile_error_iff

@[simp] theorem failsByFile_ite_iff {p : Prop} [Decidable p] {x y : Except Error α} :
    FailsByFile (if p then x else y) ↔ (p → FailsByFile x) ∧ (¬ p → FailsByFile y) := by
  split <;> simp [*]

theorem FailsByFile.bind {result : Except Error α} {k : α → Except Error β}
    (h : FailsByFile result) (hk : ∀ value, FailsByFile (k value)) : FailsByFile (result >>= k) := by
  intro e failed
  obtain first | ⟨value, -, next⟩ := bind_eq_error_iff.1 failed
  · exact h e first
  · exact hk value e next

theorem FailsByFile.check {p : Prop} [Decidable p] {k : Unit → Except Error α}
    (h : e.isOfFile = true) (hk : ∀ u, FailsByFile (k u)) :
    FailsByFile (if p then throw e >>= k else k ()) :=
  failsByFile_ite_iff.2 ⟨fun _ => (failsByFile_throw_iff.2 h).bind hk, fun _ => hk ()⟩

theorem failsByFile_word {width : Nat} : FailsByFile (Bytes.word data offset width) := by
  simp [Bytes.word]

theorem failsByFile_slice {length : Nat} : FailsByFile (Bytes.slice data offset length) := by
  simp [Bytes.slice]

namespace Read

variable {read : Read α}

theorem FailsByDamage.runAt (h : FailsByDamage read) : FailsByFile (runAt read data offset) := by
  intro e failed
  unfold Read.runAt at failed
  split at failed <;> cases failed
  rename_i stopped
  exact Error.isOfFile_of_isMalformedInput (h _ _ _ stopped)

theorem FailsByDamage.run (h : FailsByDamage read) : FailsByFile (run read data) := by
  show FailsByFile (Read.runAt read data 0)
  exact h.runAt

theorem failsByDamage_word (width : Nat) : FailsByDamage (word width) :=
  fun _ _ _ failed => (word_error failed).1 ▸ rfl

theorem FailsByDamage.check {p : Prop} [Decidable p] {defect : Defect} {k : Unit → Read α}
    (h : ∀ u, FailsByDamage (k u)) : FailsByDamage (if p then fail defect >>= k else k ()) :=
  compositional_failsByDamage.check (l := k) h

theorem FailsByDamage.map {f : α → β} (h : FailsByDamage read) : FailsByDamage (f <$> read) := by
  rw [map_eq_pure_bind]
  exact h.bind fun _ => failsByDamage_pure _

end Read

namespace AssemblyFile

def isSupplied : AssemblyFile → Bool
  | supplied _ _ _ _ => true
  | _ => false

theorem failsByFile_contents {file : AssemblyFile} (own : file.isSupplied = false) :
    FailsByFile file.contents := by
  have loaded (data : ByteArray) : FailsByFile (load data) := by simp [load]
  cases file with
  | memory name version data => exact loaded data
  | disk path isFile opened =>
    cases opened with
    | error reason => exact failsByFile_error_iff.2 rfl
    | ok data => exact loaded data
  | supplied name version isPresent opened => cases own

end AssemblyFile

/-! The container. -/

theorem RuntimeHeader.failsByFile_ofBytes : FailsByFile (RuntimeHeader.ofBytes data) := by
  have word := Read.failsByDamage_word
  have read : RuntimeHeader.read.FailsByDamage := by
    refine (word 4).bind fun size => Read.FailsByDamage.check fun _ => ?_
    refine (word 2).bind fun major => (word 2).bind fun minor => ?_
    refine (word 4).bind fun address => (word 4).bind fun length => Read.FailsByDamage.check fun _ => ?_
    exact (word 4).bind fun flags => Read.failsByDamage_pure _
  simp [RuntimeHeader.ofBytes, read.run]

namespace Executable

theorem failsByFile_offsetOf (address : Nat) (segments : List Segment) :
    FailsByFile (offsetOf address segments) := by
  induction segments with
  | nil => simp [offsetOf]
  | cons segment rest ih => simp [offsetOf, ih]

theorem failsByFile_metadataExtent (executable : Executable) :
    FailsByFile (executable.metadataExtent data) := by
  unfold metadataExtent
  split
  · split
    · refine (failsByFile_offsetOf _ _).bind fun headerOffset => failsByFile_slice.bind fun header => ?_
      refine RuntimeHeader.failsByFile_ofBytes.bind fun runtime => ?_
      exact (failsByFile_offsetOf _ _).bind fun offset => failsByFile_slice.bind fun _ => by simp
    · simp
  · simp

end Executable

theorem Extent.failsByFile_ofFile [Host] : FailsByFile (Extent.ofFile data) := by
  cases opened : Host.executable data with
  | error reason => simp [Extent.ofFile, opened]
  | ok executable =>
    simp [Extent.ofFile, opened, Executable.failsByFile_metadataExtent executable]

/-! The metadata. -/

namespace Root

theorem failsByDamage_readFront : Read.FailsByDamage readFront := by
  have steps := Read.compositional_failsByDamage
  have word := Read.failsByDamage_word
  refine (word 4).bind fun signature => Read.FailsByDamage.check fun _ => ?_
  refine (word 2).bind fun major => (word 2).bind fun minor => (steps.skip 4).bind fun _ => ?_
  refine (word 4).bind fun length => (steps.bytes length).bind fun raw => ?_
  refine (word 2).bind fun flags => (word 2).bind fun count => Read.FailsByDamage.check fun _ => ?_
  exact Read.failsByDamage_pure _

theorem failsByFile_streamHeader : FailsByFile (StreamHeader.ofBytes data) := by
  have name : FailsByFile (StreamHeader.readName data) := by
    unfold StreamHeader.readName
    dsimp only
    split
    · simp
    · split <;> simp
  refine FailsByFile.check rfl fun _ => name.bind fun name => ?_
  exact failsByFile_word.bind fun offset => failsByFile_word.bind fun size => failsByFile_pure _

theorem failsByFile_readStreams (count : Nat) : FailsByFile (readStreams data offset count) := by
  induction count generalizing offset with
  | zero => exact failsByFile_ok []
  | succ count ih =>
    have range (stream : StreamHeader) : FailsByFile (checkRange data.size stream) := by
      simp [checkRange]
    refine FailsByFile.check rfl fun _ => failsByFile_streamHeader.bind fun stream => ?_
    exact (range stream).bind fun _ => ih.bind fun rest => failsByFile_pure _

theorem failsByFile_ofBytes : FailsByFile (ofBytes data) := by
  unfold ofBytes
  split
  · rename_i stopped
    rw [failsByFile_error_iff]
    exact Error.isOfFile_of_isMalformedInput (failsByDamage_readFront _ _ _ stopped)
  · exact (failsByFile_readStreams _).bind fun streams => failsByFile_pure _

end Root

namespace TableStream

theorem failsByFile_readCounts (numbers : List Nat) :
    FailsByFile (Layout.readCounts data offset numbers) := by
  induction numbers generalizing offset with
  | nil => exact failsByFile_ok []
  | cons number rest ih =>
    refine failsByFile_word.bind fun count => ih.bind fun counts => ?_
    split <;> simp

theorem failsByFile_place (layout : Layout) (length start : Nat) (tables : List TableId) :
    FailsByFile (place layout length start tables) := by
  induction tables generalizing start with
  | nil => exact failsByFile_ok []
  | cons table rest ih =>
    refine failsByFile_ite_iff.2 ⟨fun _ => ih start, fun _ => ?_⟩
    exact FailsByFile.check rfl fun _ => (ih _).bind fun regions => failsByFile_pure _

theorem failsByFile_ofBytes : FailsByFile (ofBytes data) := by
  refine FailsByFile.check rfl fun _ => failsByFile_word.bind fun valid => ?_
  refine FailsByFile.check rfl fun _ => ?_
  have layout : FailsByFile (Layout.ofHeader data valid) :=
    (failsByFile_readCounts _).bind fun counts => failsByFile_word.bind fun flags => failsByFile_ok _
  refine layout.bind fun layout => failsByFile_word.bind fun flags => ?_
  refine (failsByFile_place _ _ _ _).bind fun regions => failsByFile_word.bind fun major => ?_
  exact failsByFile_word.bind fun minor => failsByFile_word.bind fun sorted => failsByFile_pure _

end TableStream

namespace Layout

variable (l : Layout)

theorem failsByDamage_readColumn (column : Column) : (l.readColumn column).FailsByDamage := by
  rw [readColumn_eq]
  refine (Read.failsByDamage_word _).bind fun n => ?_
  split
  · exact Read.failsByDamage_pure _
  · exact Read.failsByDamage_throw rfl

theorem failsByDamage_readValues (columns : List Column) :
    (l.readValues columns).FailsByDamage := by
  induction columns with
  | nil => exact Read.failsByDamage_pure ()
  | cons column rest ih => exact (l.failsByDamage_readColumn column).bind fun _ => ih.map

end Layout

theorem RowTable.failsByFile_get {ρ : Type} [Row ρ] [ColumnRow ρ] (t : RowTable ρ) (row : Nat) :
    FailsByFile (t.get row) := by
  have read : (Row.read t.layout : Read ρ).FailsByDamage := by
    rw [ColumnRow.read_eq]
    exact (t.layout.failsByDamage_readValues _).map
  simp [get, read.runAt]

namespace Metadata

theorem failsByFile_heaps :
    FailsByFile (TextHeap.ofBytes data) ∧ FailsByFile (BlobHeap.ofBytes data) := by
  simp [TextHeap.ofBytes, BlobHeap.ofBytes]

theorem failsByFile_ofBytes : FailsByFile (ofBytes data) := by
  have heap {α : Type} {f : ByteArray → Except Error α} (stream? : Option ByteArray)
      (hf : ∀ stream, FailsByFile (f stream)) : FailsByFile (stream?.mapM f) := by
    cases stream? with
    | none => exact failsByFile_pure none
    | some stream => exact (hf stream).bind fun heap => failsByFile_pure _
  refine Root.failsByFile_ofBytes.bind fun root => ?_
  dsimp only
  split
  · refine TableStream.failsByFile_ofBytes.bind fun tables => ?_
    refine (heap _ fun _ => failsByFile_heaps.1).bind fun texts => ?_
    exact (heap _ fun _ => failsByFile_heaps.2).bind fun blobs => failsByFile_pure _
  · simp

theorem failsByFile_ofFile [Host] : FailsByFile (ofFile data) :=
  Extent.failsByFile_ofFile.bind fun _ => failsByFile_ofBytes

variable (m : Metadata) (index : Nat)

theorem failsByFile_text : FailsByFile (m.text index) := by
  have read (heap : TextHeap) : FailsByFile (heap.get index) := by
    unfold TextHeap.get
    refine failsByFile_ite_iff.2 ⟨by simp, fun _ => ?_⟩
    split
    · simp
    · split <;> simp
  unfold text
  split
  · exact read _
  · simp

theorem failsByFile_blob : FailsByFile (m.blob index) := by
  have steps := Read.compositional_failsByDamage
  have read : BlobHeap.readBlob.FailsByDamage :=
    steps.compressedNat.bind fun length => steps.bytes length
  unfold blob
  split
  · exact read.runAt
  · simp

theorem failsByFile_identity [Host] : FailsByFile m.identity := by
  unfold identity
  split
  · refine (RowTable.failsByFile_get _ 1).bind fun row => ?_
    refine (m.failsByFile_blob _).bind fun key => (m.failsByFile_text _).bind fun name => ?_
    exact (m.failsByFile_text _).bind fun culture => failsByFile_pure _
  · split
    · refine (RowTable.failsByFile_get _ 1).bind fun row => ?_
      exact (m.failsByFile_text _).bind fun name => failsByFile_pure _
    · simp

end Metadata

theorem Assembly.failsByFile_ofFile [Host] : FailsByFile (Assembly.ofFile data false).value := by
  have opened : FailsByFile (do
      let m ← Metadata.ofFile data
      let identity ← m.identity
      checkCancelled false
      return (m, identity)) :=
    Metadata.failsByFile_ofFile.bind fun m => m.failsByFile_identity.bind fun _ => failsByFile_ok _
  unfold ofFile
  dsimp only
  split
  · rename_i failed
    exact failsByFile_error_iff.2 (opened _ failed)
  · exact failsByFile_ok _

end

namespace Aggregator

variable [Host] {finder : Finder} {file : AssemblyFile}

/-- Whether an assembly can be taken out of the file and its search ends at a member that cannot be
written. -/
def MeetsOverflow (finder : Finder) (file : AssemblyFile) : Prop :=
  file.isPresent = true ∧ ∃ data a row, file.contents = .ok data ∧
    (Assembly.ofFile data false).value = .ok a ∧ finder.Reaches a row ∧ finder.Overflows a row

theorem collect_of_meetsOverflow (h : MeetsOverflow finder file) :
    (collect finder file false).value = .error .arityOverflow := by
  obtain ⟨present, data, a, row, opened, taken, reaches, overflows⟩ := h
  exact collect_of_find present opened taken
    (Finder.find_eq_error_iff.2 ⟨row, reaches, .inr ⟨rfl, overflows⟩⟩)

theorem collect_eq_error {e : Error} (own : file.isSupplied = false)
    (h : (collect finder file false).value = .error e) :
    e.isOfFile = true ∨ e = .arityOverflow ∧ MeetsOverflow finder file := by
  rw [collect_value] at h
  cases present : file.isPresent with
  | false =>
    rw [present] at h
    cases h
    exact .inl rfl
  | true =>
    rw [if_pos present] at h
    obtain opening | ⟨data, opened, h⟩ := bind_eq_error_iff.1 h
    · exact .inl (AssemblyFile.failsByFile_contents own _ opening)
    obtain taking | ⟨a, taken, h⟩ := bind_eq_error_iff.1 h
    · exact .inl (Assembly.failsByFile_ofFile _ taking)
    obtain ⟨row, reaches, ⟨rfl, -⟩ | ⟨rfl, overflows⟩⟩ := Finder.find_eq_error_iff.1 h
    · exact .inl rfl
    · exact .inr ⟨rfl, present, data, a, row, opened, taken, reaches, overflows⟩

end Aggregator

end FrameworkAudit
