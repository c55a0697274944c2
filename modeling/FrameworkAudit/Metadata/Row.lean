import FrameworkAudit.Identity.Version
import FrameworkAudit.Metadata.Layout

set_option autoImplicit false

namespace FrameworkAudit

class Row (ρ : Type) where
  table : TableId
  read : Layout → Read ρ

def Read.version : Read Version := do
  let major ← word 2
  let minor ← word 2
  let build ← word 2
  let revision ← word 2
  return ⟨UInt16.ofNat major, UInt16.ofNat minor, UInt16.ofNat build, UInt16.ofNat revision⟩

structure ModuleRow where
  generation : Nat
  name : Nat
  mvid : Nat
  encId : Nat
  encBaseId : Nat
  deriving DecidableEq, Repr

structure TypeRefRow where
  scope : CodedIndex
  name : Nat
  space : Nat
  deriving DecidableEq, Repr

structure TypeDefRow where
  flags : Nat
  name : Nat
  space : Nat
  extends_ : CodedIndex
  fieldList : Nat
  methodList : Nat
  deriving DecidableEq, Repr

structure MemberRefRow where
  parent : CodedIndex
  name : Nat
  signature : Nat
  deriving DecidableEq, Repr

structure CustomAttributeRow where
  parent : CodedIndex
  constructor : CodedIndex
  value : Nat
  deriving DecidableEq, Repr

structure TypeSpecRow where
  signature : Nat
  deriving DecidableEq, Repr

structure AssemblyRow where
  hashAlgorithm : Nat
  version : Version
  flags : Nat
  publicKey : Nat
  name : Nat
  culture : Nat
  deriving DecidableEq, Repr

structure AssemblyRefRow where
  version : Version
  flags : Nat
  keyOrToken : Nat
  name : Nat
  culture : Nat
  hashValue : Nat
  deriving DecidableEq, Repr

structure NestedClassRow where
  nested : Nat
  enclosing : Nat
  deriving DecidableEq, Repr

instance : Row ModuleRow where
  table := .module
  read l := do
    let generation ← Read.word 2
    let name ← l.readText
    let mvid ← l.readGuid
    let encId ← l.readGuid
    let encBaseId ← l.readGuid
    return { generation, name, mvid, encId, encBaseId }

instance : Row TypeRefRow where
  table := .typeRef
  read l := do
    let scope ← l.readCoded .resolutionScope
    let name ← l.readText
    let space ← l.readText
    return { scope, name, space }

instance : Row TypeDefRow where
  table := .typeDef
  read l := do
    let flags ← Read.word 4
    let name ← l.readText
    let space ← l.readText
    let extends_ ← l.readCoded .typeDefOrRef
    let fieldList ← l.readRow .field
    let methodList ← l.readRow .methodDef
    return { flags, name, space, extends_, fieldList, methodList }

instance : Row MemberRefRow where
  table := .memberRef
  read l := do
    let parent ← l.readCoded .memberRefParent
    let name ← l.readText
    let signature ← l.readBlob
    return { parent, name, signature }

instance : Row CustomAttributeRow where
  table := .customAttribute
  read l := do
    let parent ← l.readCoded .hasCustomAttribute
    let constructor ← l.readCoded .customAttributeType
    let value ← l.readBlob
    return { parent, constructor, value }

instance : Row TypeSpecRow where
  table := .typeSpec
  read l := return { signature := ← l.readBlob }

instance : Row AssemblyRow where
  table := .assembly
  read l := do
    let hashAlgorithm ← Read.word 4
    let version ← Read.version
    let flags ← Read.word 4
    let publicKey ← l.readBlob
    let name ← l.readText
    let culture ← l.readText
    return { hashAlgorithm, version, flags, publicKey, name, culture }

instance : Row AssemblyRefRow where
  table := .assemblyRef
  read l := do
    let version ← Read.version
    let flags ← Read.word 4
    let keyOrToken ← l.readBlob
    let name ← l.readText
    let culture ← l.readText
    let hashValue ← l.readBlob
    return { version, flags, keyOrToken, name, culture, hashValue }

instance : Row NestedClassRow where
  table := .nestedClass
  read l := do
    let nested ← l.readRow .typeDef
    let enclosing ← l.readRow .typeDef
    return { nested, enclosing }

end FrameworkAudit
