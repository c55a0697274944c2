import FrameworkAudit.Proofs.Isolation
import FrameworkAudit.Proofs.Shape

/-!
The types that declare the members of an assembly. The column of a member's row names its parent by a
row of up to 31 bits, and the parent is resolved through a token, which has room for 24. So the parent
is the row that the low 24 bits name: the very row of the column if there are no others, which is so
wherever the column takes two bytes.
-/

set_option autoImplicit false

namespace FrameworkAudit

namespace CodedIndex

def Carried (index : CodedIndex) : Prop :=
  index.token.table? = some index.table ∧ index.token.row = index.row

theorem carried_iff {index : CodedIndex} : index.Carried ↔ index.row < 0x1000000 := by
  simp only [Carried, token, Token.table?_ofParts, Token.row_ofParts, true_and]
  omega

theorem row_le_of_decode? {kind : CodedKind} {value : Nat} {index : CodedIndex}
    (h : decode? kind value = some index) : 2 * index.row ≤ value := by
  obtain ⟨table, -, rfl⟩ := Option.map_eq_some_iff.1 h
  have tags : 2 ≤ kind.tagCount := by cases kind <;> decide
  calc 2 * (value / kind.tagCount) ≤ kind.tagCount * (value / kind.tagCount) :=
        Nat.mul_le_mul_right _ tags
    _ ≤ value := Nat.mul_div_le _ _

end CodedIndex

namespace Layout

variable {l : Layout} {kind : CodedKind} {c d : Cursor} {index : CodedIndex}

theorem decode?_of_readCoded (h : l.readCoded kind c = .ok index d) :
    CodedIndex.decode? kind (Bytes.littleEndian c.data c.pos (l.codedBytes kind)) = some index := by
  obtain ⟨value, middle, hvalue, h⟩ := Read.bind_ok_iff.1 h
  obtain ⟨-, rfl, -⟩ := Read.word_ok_iff.1 hvalue
  cases decoded : CodedIndex.decode? kind (Bytes.littleEndian c.data c.pos (l.codedBytes kind)) with
  | none =>
    rw [decoded] at h
    cases h
  | some found =>
    rw [decoded] at h
    obtain ⟨rfl, -⟩ := Read.pure_ok_iff.1 h
    rfl

theorem row_lt_of_readCoded (h : l.readCoded kind c = .ok index d) (narrow : l.codedBytes kind = 2) :
    index.row < 0x1000000 := by
  have half := CodedIndex.row_le_of_decode? (decode?_of_readCoded h)
  have small := Bytes.littleEndian_lt c.data c.pos (l.codedBytes kind)
  have limit : 1 <<< (8 * 2) = 0x10000 := rfl
  rw [narrow] at half small
  omega

end Layout

theorem RowTable.readCoded_of_get {t : RowTable MemberRefRow} {row : Nat} {r : MemberRefRow}
    (h : t.get row = .ok r) :
    ∃ d, t.layout.readCoded .memberRefParent ⟨t.data, t.rowStart row⟩ = .ok r.parent d := by
  obtain ⟨-, c, read⟩ := get_eq_ok_iff.1 h
  obtain ⟨parent, middle, hparent, read⟩ := Read.bind_ok_iff.1 read
  obtain ⟨name, _, -, read⟩ := Read.bind_ok_iff.1 read
  obtain ⟨signature, _, -, read⟩ := Read.bind_ok_iff.1 read
  obtain ⟨rfl, -⟩ := Read.pure_ok_iff.1 read
  exact ⟨middle, hparent⟩

namespace Assembly

variable {a : Assembly} {m : Metadata} {table : TableId} {row : Nat} {entry : MemberRef}
  {shape : TypeShape}

def hasRow (a : Assembly) : TableId → Nat → Bool
  | .typeRef, row => (a.typeRef? row).isSome
  | .typeDef, row => (a.typeDef? row).isSome
  | .typeSpec, row => (a.typeSpec? row).isSome
  | _, _ => false

/-- The shape of a row of one of the tables of types. The signature of a specification stands one
step deep. -/
def rowShape (a : Assembly) : TableId → Nat → Except Error TypeShape
  | .typeRef, row => do return .named (← a.typeRefShape row)
  | .typeDef, row => do return .named (← a.typeDefShape row)
  | .typeSpec, row =>
    match a.typeSpec? row with
    | none => .error (.malformed (.rowUnavailable .typeSpec row))
    | some blob => do a.signatureShapeAt 1 (← TypeSig.ofBlob blob)
  | table, row => .error (.malformed (.rowUnavailable table row))

theorem hasRow_of_rowShape (h : a.rowShape table row = .ok shape) : a.hasRow table row = true := by
  unfold rowShape at h
  split at h
  · obtain ⟨named, found, -⟩ := bind_eq_ok_iff.1 h
    simp only [typeRefShape, typeRefChain] at found
    cases here : a.typeRef? row with
    | none => simp [here] at found
    | some entry => simp [hasRow, here]
  · obtain ⟨named, found, -⟩ := bind_eq_ok_iff.1 h
    simp only [typeDefShape, typeDefChain] at found
    cases here : a.typeDef? row with
    | none => simp [here] at found
    | some entry => simp [hasRow, here]
  · cases here : a.typeSpec? row with
    | none => simp [here] at h
    | some blob => simp [hasRow, here]
  · cases h

theorem tokenShape_ofParts (h : declaresMembers table = true) (row : Nat) :
    a.tokenShape (.ofParts table row) = a.rowShape table (row % 0x1000000) := by
  have start : hopsAt 0 = hopsAt 2 + 1 := rfl
  unfold tokenShape tokenShapeAt
  rw [start, tokenWithin, Token.table?_ofParts, Token.row_ofParts]
  unfold declaresMembers at h
  split at h
  · rfl
  · rfl
  · rfl
  · cases h

theorem memberShape_eq (found : a.memberRef? row = some entry)
    (declares : declaresMembers entry.parent.table = true) :
    a.memberShape row = (do
      let parent ← a.rowShape entry.parent.table (entry.parent.row % 0x1000000)
      let sig ← MemberSig.ofBlob entry.signature
      return some ⟨parent, entry.name, ← a.memberKind sig⟩) := by
  simp only [memberShape, found, declares, if_true, CodedIndex.token, tokenShape_ofParts declares]

def HasParent (a : Assembly) (row : Nat) (table : TableId) (parent : Nat) : Prop :=
  ∀ result, a.memberShape row = .ok result → ∃ member, result = some member ∧
    a.hasRow table parent = true ∧ a.rowShape table parent = .ok member.parent

theorem hasParent (found : a.memberRef? row = some entry)
    (declares : declaresMembers entry.parent.table = true) :
    a.HasParent row entry.parent.table (entry.parent.row % 0x1000000) := by
  intro result resolved
  rw [memberShape_eq found declares] at resolved
  obtain ⟨parent, hparent, resolved⟩ := bind_eq_ok_iff.1 resolved
  obtain ⟨sig, -, resolved⟩ := bind_eq_ok_iff.1 resolved
  obtain ⟨kind, -, resolved⟩ := bind_eq_ok_iff.1 resolved
  exact ⟨_, (pure_eq_ok_iff.1 resolved).symm, hasRow_of_rowShape hparent, hparent⟩

theorem readCoded_of_memberRef? [Host] {data : ByteArray} (taken : (ofFile data false).value = .ok a)
    (found : a.memberRef? row = some entry) :
    ∃ m t d, Metadata.ofFile data = .ok m ∧ m.tables.table? MemberRefRow = some t ∧
      t.layout.readCoded .memberRefParent ⟨t.data, t.rowStart row⟩ = .ok entry.parent d := by
  rw [ofFile_value] at taken
  obtain ⟨m, hm, taken⟩ := bind_eq_ok_iff.1 taken
  obtain ⟨identity, -, taken⟩ := bind_eq_ok_iff.1 taken
  rw [← pure_eq_ok_iff.1 taken] at found
  have decoded : m.decode? m.memberRef row = some entry := by
    rw [← Metadata.rowOf_kept]
    exact found
  obtain ⟨t, ht, decoded⟩ := Option.bind_eq_some_iff.1 decoded
  obtain ⟨r, hr, decoded⟩ := bind_eq_ok_iff.1 (toOption_eq_some_iff.1 decoded)
  obtain ⟨name, -, decoded⟩ := bind_eq_ok_iff.1 decoded
  obtain ⟨signature, -, decoded⟩ := bind_eq_ok_iff.1 decoded
  have parent : r.parent = entry.parent := congrArg MemberRef.parent (pure_eq_ok_iff.1 decoded)
  obtain ⟨d, read⟩ := RowTable.readCoded_of_get hr
  exact ⟨m, t, d, hm, ht, parent ▸ read⟩

/-- The member of a row, if it is resolved, has as its parent an available row of the table that its
column names: the one of the low 24 bits, and so the row that the column names if it is below
0x1000000. This is so wherever the column takes two bytes. What holds of this column holds of every
coded index that is read: its token has its table and the low 24 bits of its row. -/
theorem memberShape_hasParent [Host] (data : ByteArray) (a : Assembly) (row : Nat) (entry : MemberRef)
    (taken : (ofFile data false).value = .ok a) (found : a.memberRef? row = some entry)
    (declares : declaresMembers entry.parent.table = true) :
    a.HasParent row entry.parent.table (entry.parent.row % 0x1000000) ∧
      (entry.parent.row < 0x1000000 → a.HasParent row entry.parent.table entry.parent.row) ∧
      (∃ m t d, Metadata.ofFile data = .ok m ∧ m.tables.table? MemberRefRow = some t ∧
        t.layout.readCoded .memberRefParent ⟨t.data, t.rowStart row⟩ = .ok entry.parent d ∧
        (t.layout.codedBytes .memberRefParent = 2 →
          a.HasParent row entry.parent.table entry.parent.row)) ∧
      ∀ l kind c d index, Layout.readCoded l kind c = .ok index d →
        (index.Carried ↔ index.row < 0x1000000) ∧ (l.codedBytes kind = 2 → index.Carried) ∧
        index.token = .ofParts index.table (index.row % 0x1000000) := by
  have low := hasParent found declares
  have itself (small : entry.parent.row < 0x1000000) :
      a.HasParent row entry.parent.table entry.parent.row := by
    rwa [Nat.mod_eq_of_lt small] at low
  obtain ⟨m, t, d, hm, ht, read⟩ := readCoded_of_memberRef? taken found
  refine ⟨low, itself, ⟨m, t, d, hm, ht, read, fun narrow => ?_⟩, ?_⟩
  · exact itself (Layout.row_lt_of_readCoded read narrow)
  · intro l kind c d index h
    refine ⟨CodedIndex.carried_iff, fun narrow => ?_, ?_⟩
    · exact CodedIndex.carried_iff.2 (Layout.row_lt_of_readCoded h narrow)
    · rw [CodedIndex.token, Token.ofParts, Token.ofParts, Nat.mod_mod]

def typeWithMethod : ByteArray :=
  ⟨#[0x42, 0x53, 0x4A, 0x42, 1, 0, 1, 0, 0, 0, 0, 0, 0, 0, 0, 0, 0, 0, 2, 0,
     48, 0, 0, 0, 58, 0, 0, 0, 0x23, 0x7E, 0, 0,
     106, 0, 0, 0, 5, 0, 0, 0, 0x23, 0x42, 0x6C, 0x6F, 0x62, 0, 0, 0,
     0, 0, 0, 0, 2, 0, 0, 1, 3, 4, 0, 0, 0, 0, 0, 0, 0, 0, 0, 0, 0, 0, 0, 0,
     1, 0, 0, 0, 1, 0, 0, 0, 1, 0, 0, 0,
     0, 0, 0, 0, 0, 0, 0, 0, 0, 0,
     0, 0, 0, 0, 0, 0,
     9, 0, 0, 0, 1, 0,
     0, 3, 0, 0, 1]⟩

theorem memberShape_hasParent_typeRef : ∃ a entry member,
    (ofFile typeWithMethod false).value = .ok a ∧ a.memberRef? 1 = some entry ∧
    entry.parent = ⟨.typeRef, 1⟩ ∧ a.memberShape 1 = .ok (some member) ∧
    a.hasRow .typeRef 1 = true ∧ a.rowShape .typeRef 1 = .ok member.parent := by
  have facts : ((ofFile typeWithMethod false).value.toOption.bind fun a =>
      (a.memberRef? 1).map fun entry => (entry.parent, (a.memberShape 1).toOption.isSome)) =
        some (⟨.typeRef, 1⟩, true) := by decide +kernel
  obtain ⟨a, ha, facts⟩ := Option.bind_eq_some_iff.1 facts
  obtain ⟨entry, found, facts⟩ := Option.map_eq_some_iff.1 facts
  obtain ⟨parent, resolves⟩ := Prod.mk.inj facts
  obtain ⟨result, resolved⟩ := Option.isSome_iff_exists.1 resolves
  have taken := toOption_eq_some_iff.1 ha
  have declares : declaresMembers entry.parent.table = true := by rw [parent]; rfl
  obtain ⟨-, itself, -⟩ := memberShape_hasParent typeWithMethod a 1 entry taken found declares
  rw [parent] at itself
  obtain ⟨member, rfl, row, shape⟩ := itself (by decide) result (toOption_eq_some_iff.1 resolved)
  exact ⟨a, entry, member, taken, found, parent, toOption_eq_some_iff.1 resolved, row, shape⟩

/-- Where a module has 0x2000 references to modules, a parent takes four bytes, which can name row
0x1000001 of the references to types. A method of that row is resolved with the type of row 1, the
only one that is available. -/
theorem memberShape_of_absent_parent :
    let layout := Layout.ofCounts [(.moduleRef, 0x2000)] false false false
    let index : CodedIndex := ⟨.typeRef, 0x1000001⟩
    let a : Assembly :=
      { identity := .make "A" .zero none none, framework := "", fileVersion := ""
        assemblyRefs := #[], typeRefs := #[some ⟨"N", "T", ⟨.module, 0⟩⟩], typeDefs := #[]
        typeSpecs := #[], memberRefs := #[some ⟨"M", index, ⟨#[0, 0, 1]⟩⟩], nesting := [] }
    Read.run (layout.readCoded .memberRefParent) ⟨#[9, 0, 0, 8]⟩ = .ok index ∧
      index.token.row = 1 ∧ ¬ a.HasParent 1 .typeRef 0x1000001 := by
  intro layout index a
  refine ⟨by rw [← toOption_eq_some_iff]; decide +kernel, by decide, fun parent => ?_⟩
  have resolves : (a.memberShape 1).toOption.isSome = true := by decide +kernel
  obtain ⟨result, resolved⟩ := Option.isSome_iff_exists.1 resolves
  obtain ⟨-, -, row, -⟩ := parent result (toOption_eq_some_iff.1 resolved)
  exact absurd row (by decide)

end Assembly

end FrameworkAudit
