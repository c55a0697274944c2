import FrameworkAudit.Metadata.Token

/-!
Coded indexes: a reference to a row of one of a few tables, with a tag in the low bits that selects
the table. Each kind of coded index has its own list of tables.
-/

set_option autoImplicit false

namespace FrameworkAudit

inductive CodedKind where
  | typeDefOrRef
  | hasConstant
  | hasCustomAttribute
  | hasFieldMarshal
  | hasDeclSecurity
  | memberRefParent
  | hasSemantics
  | methodDefOrRef
  | memberForwarded
  | implementation
  | customAttributeType
  | resolutionScope
  | typeOrMethodDef
  deriving DecidableEq, Repr

namespace CodedKind

def all : List CodedKind :=
  [.typeDefOrRef, .hasConstant, .hasCustomAttribute, .hasFieldMarshal, .hasDeclSecurity,
   .memberRefParent, .hasSemantics, .methodDefOrRef, .memberForwarded, .implementation,
   .customAttributeType, .resolutionScope, .typeOrMethodDef]

def name : CodedKind → String
  | .typeDefOrRef => "TypeDefOrRef"
  | .hasConstant => "HasConstant"
  | .hasCustomAttribute => "HasCustomAttribute"
  | .hasFieldMarshal => "HasFieldMarshal"
  | .hasDeclSecurity => "HasDeclSecurity"
  | .memberRefParent => "MemberRefParent"
  | .hasSemantics => "HasSemantics"
  | .methodDefOrRef => "MethodDefOrRef"
  | .memberForwarded => "MemberForwarded"
  | .implementation => "Implementation"
  | .customAttributeType => "CustomAttributeType"
  | .resolutionScope => "ResolutionScope"
  | .typeOrMethodDef => "TypeOrMethodDef"

/-- The tables that the tags 0, 1, … select. The tags of an attribute's constructor that no image
uses select the table of their neighbour. -/
def tables : CodedKind → List TableId
  | .typeDefOrRef => [.typeDef, .typeRef, .typeSpec]
  | .hasConstant => [.field, .param, .property]
  | .hasCustomAttribute =>
    [.methodDef, .field, .typeRef, .typeDef, .param, .interfaceImpl, .memberRef, .module,
     .declSecurity, .property, .event, .standAloneSig, .moduleRef, .typeSpec, .assembly,
     .assemblyRef, .file, .exportedType, .manifestResource, .genericParam,
     .genericParamConstraint, .methodSpec]
  | .hasFieldMarshal => [.field, .param]
  | .hasDeclSecurity => [.typeDef, .methodDef, .assembly]
  | .memberRefParent => [.typeDef, .typeRef, .moduleRef, .methodDef, .typeSpec]
  | .hasSemantics => [.event, .property]
  | .methodDefOrRef => [.methodDef, .memberRef]
  | .memberForwarded => [.field, .methodDef]
  | .implementation => [.file, .assemblyRef, .exportedType]
  | .customAttributeType => [.methodDef, .methodDef, .methodDef, .memberRef, .memberRef]
  | .resolutionScope => [.module, .moduleRef, .assemblyRef, .typeRef]
  | .typeOrMethodDef => [.typeDef, .methodDef]

def tagBits (k : CodedKind) : Nat := Nat.log2 (k.tables.length - 1) + 1

def tagCount (k : CodedKind) : Nat := 1 <<< k.tagBits

theorem length_tables_le (k : CodedKind) : k.tables.length ≤ k.tagCount := by
  cases k <;> decide

theorem tagCount_pos (k : CodedKind) : 0 < k.tagCount := by
  cases k <;> decide

end CodedKind

/-- A decoded reference. Row 0 stands for no row. -/
structure CodedIndex where
  table : TableId
  row : Nat
  deriving DecidableEq, Repr

namespace CodedIndex

/-- The token of the row, which has room for only 24 bits of its number. -/
def token (c : CodedIndex) : Token := .ofParts c.table c.row

def isNull (c : CodedIndex) : Bool := c.row == 0

def decode? (kind : CodedKind) (value : Nat) : Option CodedIndex :=
  kind.tables[value % kind.tagCount]?.map fun table => ⟨table, value / kind.tagCount⟩

def pack (kind : CodedKind) (tag row : Nat) : Nat := row * kind.tagCount + tag

theorem decode?_pack (kind : CodedKind) (tag row : Nat) (h : tag < kind.tables.length) :
    decode? kind (pack kind tag row) = some ⟨kind.tables[tag], row⟩ := by
  have hlt : tag < kind.tagCount := Nat.lt_of_lt_of_le h kind.length_tables_le
  have hmod : (row * kind.tagCount + tag) % kind.tagCount = tag := by
    rw [Nat.mul_comm, Nat.mul_add_mod, Nat.mod_eq_of_lt hlt]
  have hdiv : (row * kind.tagCount + tag) / kind.tagCount = row := by
    rw [Nat.mul_comm, Nat.mul_add_div kind.tagCount_pos, Nat.div_eq_of_lt hlt, Nat.add_zero]
  simp [decode?, pack, hmod, hdiv, List.getElem?_eq_getElem h]

end CodedIndex

end FrameworkAudit
