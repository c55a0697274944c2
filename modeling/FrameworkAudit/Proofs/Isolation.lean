import FrameworkAudit.Host.Standard
import FrameworkAudit.Proofs.Metadata.View

/-!
Damage to one row of an image stays in that row. An assembly is taken from such an image if and only
if it is taken from the sound one, with the same identity and the same lists of rows up to that row,
which is missing from its place if it can no longer be read.
-/

set_option autoImplicit false

namespace FrameworkAudit

open Bytes

namespace Assembly

variable {α : Type} {data damaged bytes : ByteArray} {root : Root} {m : Metadata} {identity : Identity}
  {own table : TableId} {row : Nat} {place : Extent}

/-- Two lists of the rows of one table that have the same length and agree but for one row. -/
def AgreeBut (own table : TableId) (row : Nat) (xs ys : Array (Option α)) : Prop :=
  xs.size = ys.size ∧ ∀ i, (own, i) ≠ (table, row) → rowOf xs i = rowOf ys i

structure SameBut (table : TableId) (row : Nat) (a b : Assembly) : Prop where
  identity : a.identity = b.identity
  assemblyRefs : AgreeBut .assemblyRef table row a.assemblyRefs b.assemblyRefs
  typeRefs : AgreeBut .typeRef table row a.typeRefs b.typeRefs
  typeDefs : AgreeBut .typeDef table row a.typeDefs b.typeDefs
  typeSpecs : AgreeBut .typeSpec table row a.typeSpecs b.typeSpecs
  memberRefs : AgreeBut .memberRef table row a.memberRefs b.memberRefs

/-- A list that has every row of an image's table in its place, and nothing where the row cannot be
read. -/
def ListsRows {ρ : Type} [Row ρ] (m : Metadata) (resolve : ρ → Except Error α)
    (rows : Array (Option α)) : Prop :=
  rows.size = m.tables.rowCount (Row.table ρ) ∧ ∀ i, rowOf rows i = m.decode? resolve i

theorem listsRows_kept {ρ : Type} [Row ρ] {start : Nat} (laid : m.tables.Laid start)
    (resolve : ρ → Except Error α) : ListsRows m resolve (kept (m.entries resolve)) :=
  ⟨Metadata.size_kept laid resolve, fun i => Metadata.rowOf_kept m resolve i⟩

theorem ListsRows.agreeBut {ρ : Type} [Row ρ] [LawfulRow ρ] {resolve : ρ → Except Error α}
    {xs ys : Array (Option α)} (h : m.Damages bytes table row) (hx : ListsRows m resolve xs)
    (hy : ListsRows (m.withBytes root bytes) resolve ys) : AgreeBut (Row.table ρ) table row xs ys :=
  ⟨hx.1.trans hy.1.symm, fun i ne => by rw [hx.2, hy.2, h.decode?_eq resolve ne]⟩

section

variable [Host]

structure Lists (m : Metadata) (a : Assembly) : Prop where
  assemblyRefs : ListsRows m m.assemblyRef a.assemblyRefs
  typeRefs : ListsRows m m.typeRef a.typeRefs
  typeDefs : ListsRows m m.typeDef a.typeDefs
  typeSpecs : ListsRows m m.typeSpec a.typeSpecs
  memberRefs : ListsRows m m.memberRef a.memberRefs

theorem lists_ofMetadata {start : Nat} (laid : m.tables.Laid start) :
    Lists m (ofMetadata m identity).value where
  assemblyRefs := listsRows_kept laid m.assemblyRef
  typeRefs := listsRows_kept laid m.typeRef
  typeDefs := listsRows_kept laid m.typeDef
  typeSpecs := listsRows_kept laid m.typeSpec
  memberRefs := listsRows_kept laid m.memberRef

theorem identity_ofMetadata : (ofMetadata m identity).value.identity = identity := rfl

theorem Lists.sameBut {a b : Assembly} (h : m.Damages bytes table row) (identity : a.identity = b.identity)
    (ha : Lists m a) (hb : Lists (m.withBytes root bytes) b) : SameBut table row a b where
  identity := identity
  assemblyRefs := ha.assemblyRefs.agreeBut h hb.assemblyRefs
  typeRefs := ha.typeRefs.agreeBut h hb.typeRefs
  typeDefs := ha.typeDefs.agreeBut h hb.typeDefs
  typeSpecs := ha.typeSpecs.agreeBut h hb.typeSpecs
  memberRefs := ha.memberRefs.agreeBut h hb.memberRefs

theorem metadata_ofFile_eq (h : Root.ofBytes data = .ok root) :
    Metadata.ofFile data = Metadata.ofBytes data := by
  obtain ⟨inside, signature, -⟩ := Root.ofBytes_eq_ok_iff.1 h
  have filled : data.size ≠ 0 := by omega
  have first : (word data 0 4).toOption = some Root.magic := by
    rw [word_eq_ok_iff.2 ⟨by omega, signature.symm⟩]
    rfl
  simp only [Metadata.ofFile, Extent.ofFile, filled, first, if_false, if_true, bind, Except.bind,
    Extent.bytes, Nat.zero_add, ByteArray.extract_zero_size]

theorem ofFile_value (data : ByteArray) :
    (ofFile data false).value = (do
      let m ← Metadata.ofFile data
      let identity ← m.identity
      return (ofMetadata m identity).value) := by
  unfold ofFile
  cases hm : Metadata.ofFile data with
  | error e => rfl
  | ok m =>
    cases hi : m.identity with
    | error e => simp [bind, Except.bind, hi]
    | ok identity => simp [bind, Except.bind, hi, checkCancelled, pure, Except.pure]

theorem exists_ofMetadata_of_ofFile {cancelled : Bool} {a : Assembly}
    (taken : (ofFile data cancelled).value = .ok a) :
    ∃ m identity, Metadata.ofFile data = .ok m ∧ a = (ofMetadata m identity).value := by
  unfold ofFile at taken
  dsimp only at taken
  split at taken
  · cases taken
  · rename_i m identity opened
    obtain ⟨m, hm, found⟩ := bind_eq_ok_iff.1 opened
    obtain ⟨identity, -, checked⟩ := bind_eq_ok_iff.1 found
    obtain ⟨-, -, same⟩ := bind_eq_ok_iff.1 checked
    obtain ⟨rfl, rfl⟩ := Prod.mk.inj (pure_eq_ok_iff.1 same)
    exact ⟨_, _, hm, (Except.ok.inj taken).symm⟩

/-- Damage to one row of a bare image is isolated, as long as none of the image's streams shares a
byte with another one or with the stream directory. With the damage the image fails just as it fails
without it, or the assembly has the same identity and lists of the same length, which agree in all
other rows; the row itself is there if it can be read, and its place is empty if not. -/
theorem ofFile_isolated (data damaged : ByteArray) (root : Root) (table : TableId) (row : Nat)
    (place : Extent)
    (listed : table ∈ [TableId.assemblyRef, .typeRef, .typeDef, .typeSpec, .memberRef, .nestedClass,
      .customAttribute])
    (opened : Root.ofBytes data = .ok root) (separate : root.Separate data)
    (placed : Metadata.rowExtent? data table row = some place)
    (differ : DifferWithin data damaged place.offset (place.offset + place.length)) :
    (∃ e, (ofFile data false).value = .error e ∧ (ofFile damaged false).value = .error e) ∨
      ∃ a b m n, (ofFile data false).value = .ok a ∧ (ofFile damaged false).value = .ok b ∧
        SameBut table row a b ∧ Metadata.ofFile data = .ok m ∧ Metadata.ofFile damaged = .ok n ∧
        Lists m a ∧ Lists n b := by
  have hmodule : table ≠ .module := by
    rintro rfl
    simp at listed
  have hassembly : table ≠ .assembly := by
    rintro rfl
    simp at listed
  obtain ⟨other, reopened, outcome⟩ := Metadata.ofBytes_of_differ opened separate placed differ
  rw [ofFile_value, ofFile_value, metadata_ofFile_eq opened, metadata_ofFile_eq reopened]
  obtain ⟨e, he, hd⟩ | ⟨m, bytes, hm, hn, damages⟩ := outcome
  · exact .inl ⟨e, by rw [he]; rfl, by rw [hd]; rfl⟩
  · rw [hm, hn]
    have same : (m.withBytes other bytes).identity = m.identity :=
      damages.identity_eq hmodule hassembly
    cases hi : m.identity with
    | error e => exact .inl ⟨e, by simp [bind, Except.bind, hi], by simp [bind, Except.bind, same, hi]⟩
    | ok identity =>
      obtain ⟨_, laid⟩ := damages.laid
      obtain ⟨_, relaid⟩ : ∃ start, (m.withBytes other bytes).tables.Laid start :=
        damages.laid_withBytes
      have lists : Lists m (ofMetadata m identity).value := lists_ofMetadata laid
      have relists : Lists (m.withBytes other bytes)
          (ofMetadata (m.withBytes other bytes) identity).value :=
        lists_ofMetadata (m := m.withBytes other bytes) relaid
      have sameBut := lists.sameBut damages
        (identity_ofMetadata.trans identity_ofMetadata.symm) relists
      refine .inr ⟨_, _, m, m.withBytes other bytes, ?_, ?_, sameBut, rfl, rfl, lists, relists⟩
      · simp [bind, Except.bind, hi, pure, Except.pure]
      · simp [bind, Except.bind, same, hi, pure, Except.pure]

end

/-- An image without heaps that has a module and two references to types. The name of the first of
them stands at an index of the missing heap of texts. -/
def twoTypeRefs (name : UInt8) : ByteArray :=
  ⟨#[0x42, 0x53, 0x4A, 0x42, 1, 0, 1, 0, 0, 0, 0, 0, 0, 0, 0, 0, 0, 0, 1, 0,
     32, 0, 0, 0, 54, 0, 0, 0, 0x23, 0x7E, 0, 0,
     0, 0, 0, 0, 2, 0, 0, 1, 3, 0, 0, 0, 0, 0, 0, 0, 0, 0, 0, 0, 0, 0, 0, 0, 1, 0, 0, 0, 2, 0, 0, 0,
     0, 0, 0, 0, 0, 0, 0, 0, 0, 0,
     0, 0, name, 0, 0, 0,
     4, 0, 0, 0, 0, 0]⟩

/-- With index 1, which no text has, the first reference is missing, and the second one stays. -/
theorem ofFile_isolated_typeRef : ∃ root a b,
    Root.ofBytes (twoTypeRefs 0) = .ok root ∧ root.Separate (twoTypeRefs 0) ∧
    Metadata.rowExtent? (twoTypeRefs 0) .typeRef 1 = some ⟨74, 6⟩ ∧
    DifferWithin (twoTypeRefs 0) (twoTypeRefs 1) 74 80 ∧
    (ofFile (twoTypeRefs 0) false).value = .ok a ∧ (ofFile (twoTypeRefs 1) false).value = .ok b ∧
    SameBut .typeRef 1 a b ∧ a.typeRef? 1 = some ⟨"", "", ⟨.module, 0⟩⟩ ∧ b.typeRef? 1 = none ∧
    b.typeRef? 2 = some ⟨"", "", ⟨.module, 1⟩⟩ := by
  have opened : Root.ofBytes (twoTypeRefs 0) =
      .ok ⟨Root.magic, 1, 1, "", 0, [⟨.tables, 32, 54⟩]⟩ := by
    rw [← toOption_eq_some_iff]
    decide +kernel
  have separate : Root.Separate (twoTypeRefs 0) ⟨Root.magic, 1, 1, "", 0, [⟨.tables, 32, 54⟩]⟩ := by
    decide +kernel
  have placed : Metadata.rowExtent? (twoTypeRefs 0) .typeRef 1 = some ⟨74, 6⟩ := by decide +kernel
  have differ : DifferWithin (twoTypeRefs 0) (twoTypeRefs 1) 74 80 := by decide +kernel
  have sound : (ofFile (twoTypeRefs 0) false).value.toOption.map (fun a => a.typeRef? 1) =
      some (some ⟨"", "", ⟨.module, 0⟩⟩) := by decide +kernel
  have damaged : (ofFile (twoTypeRefs 1) false).value.toOption.map
      (fun b => (b.typeRef? 1, b.typeRef? 2)) = some (none, some ⟨"", "", ⟨.module, 1⟩⟩) := by
    decide +kernel
  obtain ⟨e, he, -⟩ | ⟨a, b, m, n, ha, hb, same, -⟩ := ofFile_isolated (twoTypeRefs 0)
    (twoTypeRefs 1) _ .typeRef 1 ⟨74, 6⟩ (by decide) opened separate placed differ
  · rw [he] at sound
    cases sound
  · rw [ha] at sound
    rw [hb] at damaged
    obtain ⟨first, second⟩ := Prod.mk.inj (Option.some.inj damaged)
    exact ⟨_, a, b, opened, separate, placed, differ, ha, hb, same, Option.some.inj sound, first,
      second⟩

end Assembly

end FrameworkAudit
