import FrameworkAudit.Cursor
import FrameworkAudit.Identity.AssemblyInfo
import FrameworkAudit.Metadata.CodedIndex

/-!
What an audit takes from one assembly: its identity, its framework, and the rows of the tables that
refer to other assemblies and their members. A row that could not be read keeps its place and is
empty.
-/

set_option autoImplicit false

namespace FrameworkAudit

structure TypeRef where
  space : String
  name : String
  scope : CodedIndex
  deriving DecidableEq, Repr

structure TypeDef where
  space : String
  name : String
  methodList : Nat
  deriving DecidableEq, Repr

structure MemberRef where
  name : String
  parent : CodedIndex
  signature : ByteArray

structure Assembly where
  identity : Identity
  /-- The framework that the assembly was built for; empty if it names none. -/
  framework : String
  fileVersion : String
  assemblyRefs : Array (Option Identity)
  typeRefs : Array (Option TypeRef)
  typeDefs : Array (Option TypeDef)
  typeSpecs : Array (Option ByteArray)
  memberRefs : Array (Option MemberRef)
  /-- Pairs of a nested type and the type around it; of two for one type the first holds. -/
  nesting : List (Nat × Nat)

namespace Assembly

/-- The row of a number, which counts from 1. -/
def rowOf {α : Type} (rows : Array (Option α)) : Nat → Option α
  | 0 => none
  | row + 1 => rows[row]?.join

def assemblyRef? (a : Assembly) (row : Nat) : Option Identity := rowOf a.assemblyRefs row

def typeRef? (a : Assembly) (row : Nat) : Option TypeRef := rowOf a.typeRefs row

def typeDef? (a : Assembly) (row : Nat) : Option TypeDef := rowOf a.typeDefs row

def typeSpec? (a : Assembly) (row : Nat) : Option ByteArray := rowOf a.typeSpecs row

def memberRef? (a : Assembly) (row : Nat) : Option MemberRef := rowOf a.memberRefs row

def enclosing? (a : Assembly) (row : Nat) : Option Nat := a.nesting.lookup row

def references (a : Assembly) : List Identity := a.assemblyRefs.toList.filterMap id

def info [Host] (a : Assembly) : AssemblyInfo :=
  .ofIdentity a.identity a.fileVersion a.framework a.references

end Assembly

end FrameworkAudit
