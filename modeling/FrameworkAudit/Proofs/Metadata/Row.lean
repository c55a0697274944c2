import FrameworkAudit.Metadata.RowTable
import FrameworkAudit.Proofs.Metadata.Columns

set_option autoImplicit false

namespace FrameworkAudit

open Bytes Column

class ColumnRow (ρ : Type) [Row ρ] where
  values : ρ → Values (Row.table ρ).columns
  ofValues : Values (Row.table ρ).columns → ρ
  ofValues_values : ∀ row, ofValues (values row) = row := by
    intro row
    rfl
  read_eq : ∀ l : Layout, Row.read l = ofValues <$> l.readValues (Row.table ρ).columns := by
    intro l
    simp only [Row.table, TableId.columns, Layout.readValues, map_bind, map_pure]
    rfl

instance : ColumnRow ModuleRow where
  values r := (r.generation, r.name, r.mvid, r.encId, r.encBaseId, ())
  ofValues := fun (generation, name, mvid, encId, encBaseId, _) =>
    { generation, name, mvid, encId, encBaseId }

instance : ColumnRow TypeRefRow where
  values r := (r.scope, r.name, r.space, ())
  ofValues := fun (scope, name, space, _) => { scope, name, space }

instance : ColumnRow TypeDefRow where
  values r := (r.flags, r.name, r.space, r.extends_, r.fieldList, r.methodList, ())
  ofValues := fun (flags, name, space, extends_, fieldList, methodList, _) =>
    { flags, name, space, extends_, fieldList, methodList }

instance : ColumnRow MemberRefRow where
  values r := (r.parent, r.name, r.signature, ())
  ofValues := fun (parent, name, signature, _) => { parent, name, signature }

instance : ColumnRow CustomAttributeRow where
  values r := (r.parent, r.constructor, r.value, ())
  ofValues := fun (parent, constructor, value, _) => { parent, constructor, value }

instance : ColumnRow TypeSpecRow where
  values r := (r.signature, ())
  ofValues := fun (signature, _) => { signature }

instance : ColumnRow AssemblyRow where
  values r :=
    (r.hashAlgorithm, r.version.major.toNat, r.version.minor.toNat, r.version.build.toNat,
      r.version.revision.toNat, r.flags, r.publicKey, r.name, r.culture, ())
  ofValues := fun (hashAlgorithm, major, minor, build, revision, flags, publicKey, name, culture, _) =>
    { hashAlgorithm, flags, publicKey, name, culture
      version := ⟨.ofNat major, .ofNat minor, .ofNat build, .ofNat revision⟩ }
  ofValues_values r := by simp only [UInt16.ofNat_toNat]
  read_eq l := by
    simp only [Row.table, TableId.columns, Layout.readValues, map_bind, map_pure, Row.read,
      Read.version, bind_assoc, pure_bind]
    rfl

instance : ColumnRow AssemblyRefRow where
  values r :=
    (r.version.major.toNat, r.version.minor.toNat, r.version.build.toNat, r.version.revision.toNat,
      r.flags, r.keyOrToken, r.name, r.culture, r.hashValue, ())
  ofValues := fun (major, minor, build, revision, flags, keyOrToken, name, culture, hashValue, _) =>
    { flags, keyOrToken, name, culture, hashValue
      version := ⟨.ofNat major, .ofNat minor, .ofNat build, .ofNat revision⟩ }
  ofValues_values r := by simp only [UInt16.ofNat_toNat]
  read_eq l := by
    simp only [Row.table, TableId.columns, Layout.readValues, map_bind, map_pure, Row.read,
      Read.version, bind_assoc, pure_bind]
    rfl

instance : ColumnRow NestedClassRow where
  values r := (r.nested, r.enclosing, ())
  ofValues := fun (nested, enclosing, _) => { nested, enclosing }

class LawfulRow (ρ : Type) [Row ρ] : Prop where
  takes : ∀ l : Layout, (Row.read l : Read ρ).Takes (l.rowSize (Row.table ρ))

/-- What a layout says of the rows of a kind. Where there is room for a row, the read of one stands
behind it or fails; it fails for a tag that selects no table, and for nothing else; and a row that is
written in columns of the widths of the layout is read back from them. -/
structure ReadByLayout (ρ : Type) [Row ρ] [ColumnRow ρ] : Prop where
  outcome : ∀ (l : Layout) (c : Cursor), c.pos + l.rowSize (Row.table ρ) ≤ c.data.size →
    (∃ row : ρ, Row.read l c = .ok row (c.advance (l.rowSize (Row.table ρ)))) ∨
      (Row.read l : Read ρ).Fails c
  fails_iff : ∀ (l : Layout) (c : Cursor), c.pos + l.rowSize (Row.table ρ) ≤ c.data.size →
    ((Row.read l : Read ρ).Fails c ↔ l.HasBadTag c.data c.pos (Row.table ρ).columns)
  reads_back : ∀ (l : Layout) (c : Cursor) (row : ρ) (numbers : List Nat),
    l.Encodes (Row.table ρ).columns numbers (ColumnRow.values row) →
    (l.write (Row.table ρ).columns numbers).length = l.rowSize (Row.table ρ) ∧
      (c.pos + l.rowSize (Row.table ρ) ≤ c.data.size →
        c.Next (l.write (Row.table ρ).columns numbers) →
        Row.read l c = .ok row (c.advance (l.rowSize (Row.table ρ))))

namespace ColumnRow

variable {ρ : Type} [Row ρ] [ColumnRow ρ]

instance : LawfulRow ρ where
  takes l := by
    rw [read_eq]
    exact (l.takes_readValues _).map

theorem readByLayout : ReadByLayout ρ where
  outcome l _ room := (LawfulRow.takes l).ok_or_fails room
  fails_iff l c room := by
    rw [read_eq, Read.fails_map_iff]
    exact Layout.fails_readValues_iff room
  reads_back l c row numbers encodes := by
    refine ⟨Layout.length_write encodes, fun room h => ?_⟩
    have values := Layout.readValues_of_next encodes room h
    rw [read_eq, Read.map_apply, values]
    dsimp only
    rw [ofValues_values]
    rfl

end ColumnRow

/-- All kinds of rows that are read agree with the layout. -/
theorem rows_readByLayout :
    ReadByLayout ModuleRow ∧ ReadByLayout TypeRefRow ∧ ReadByLayout TypeDefRow ∧
      ReadByLayout MemberRefRow ∧ ReadByLayout CustomAttributeRow ∧ ReadByLayout TypeSpecRow ∧
      ReadByLayout AssemblyRow ∧ ReadByLayout AssemblyRefRow ∧ ReadByLayout NestedClassRow :=
  have all {ρ : Type} [Row ρ] [ColumnRow ρ] : ReadByLayout ρ := ColumnRow.readByLayout
  ⟨all, all, all, all, all, all, all, all, all⟩

/-- The second tag of a scope selects the references to assemblies. -/
example :
    (Layout.ofCounts [] false false false).Encodes TableId.typeRef.columns [6, 3, 0x201]
      (ColumnRow.values (⟨⟨.assemblyRef, 1⟩, 3, 0x201⟩ : TypeRefRow)) :=
  ⟨⟨⟨2, rfl, rfl⟩, by decide⟩, ⟨rfl, by decide⟩, ⟨rfl, by decide⟩, trivial⟩

example : (Layout.ofCounts [] false false false).write TableId.typeRef.columns [6, 3, 0x201] =
    [6, 0, 3, 0, 1, 2] := by decide

namespace RowTable

variable {ρ : Type} [Row ρ]

def rowStart (t : RowTable ρ) (row : Nat) : Nat := t.start + (row - 1) * t.rowSize

theorem get_eq_ok_iff {t : RowTable ρ} {row : Nat} {value : ρ} :
    t.get row = .ok value ↔ (0 < row ∧ row ≤ t.count) ∧
      ∃ d, Row.read t.layout ⟨t.data, t.rowStart row⟩ = .ok value d := by
  unfold get
  split
  · rename_i outside
    have absent : ¬ (0 < row ∧ row ≤ t.count) := by omega
    simp [absent]
  · rename_i inside
    have present : 0 < row ∧ row ≤ t.count := by omega
    rw [Read.runAt_eq_ok_iff, and_iff_right present]
    rfl

theorem get_eq_of_agree [LawfulRow ρ] {t u : RowTable ρ} {row : Nat} (hs : t.start = u.start)
    (hc : t.count = u.count) (hl : t.layout = u.layout)
    (ht : t.rowStart row + t.rowSize ≤ t.data.size) (hu : t.rowStart row + t.rowSize ≤ u.data.size)
    (agree : Agree t.data u.data (t.rowStart row) (t.rowStart row + t.rowSize)) :
    t.get row = u.get row := by
  obtain ⟨data, start, count, layout⟩ := t
  obtain ⟨other, _, _, _⟩ := u
  obtain rfl : start = _ := hs
  obtain rfl : count = _ := hc
  obtain rfl : layout = _ := hl
  unfold get
  split
  · rfl
  · exact (LawfulRow.takes layout).sees ht hu agree

end RowTable

end FrameworkAudit
