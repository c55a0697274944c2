import FrameworkAudit.Identity
import FrameworkAudit.Signature

set_option autoImplicit false

namespace FrameworkAudit

/-- A type with a name of its own; a nested type has the names of the types around it in front. -/
structure NamedType where
  space : String
  names : List String
  /-- The assembly that defines the type, if it is known. -/
  assembly? : Option Identity
  /-- Whether a signature names the type by a byte of its own. -/
  isPrimitive : Bool
  deriving DecidableEq, Repr

namespace NamedType

def ofName (space name : String) (assembly : Identity) : NamedType :=
  ⟨space, [name], some assembly, false⟩

def primitive (name : String) : NamedType := ⟨"System", [name], none, true⟩

def nested (t : NamedType) (name : String) : NamedType := { t with names := t.names ++ [name] }

end NamedType

inductive TypeShape where
  | named (type : NamedType)
  | generic (definition : NamedType) (arguments : List TypeShape)
  | param (index : Nat) (ofMethod : Bool)
  /-- An array; one without dimensions counts its single dimension from zero. -/
  | array (element : TypeShape) (dimensions? : Option (List Dimension))
  | pointer (target : TypeShape)
  | byRef (target : TypeShape)
  | modified (base modifier : TypeShape) (required : Bool)
  | function (result : TypeShape) (params : List TypeShape)
  deriving Repr

namespace TypeShape

def core? : TypeShape → Option NamedType
  | named type => some type
  | generic definition _ => some definition
  | param _ _ => none
  | array element _ => element.core?
  | pointer target => target.core?
  | byRef target => target.core?
  | modified base _ _ => base.core?
  | function _ _ => none

def assembly? (t : TypeShape) : Option Identity := t.core?.bind NamedType.assembly?

def isPrimitive (t : TypeShape) : Bool := t.core?.any NamedType.isPrimitive

end TypeShape

structure MethodShape where
  typeParams : Nat
  params : List TypeShape
  result : TypeShape
  vararg : Bool
  deriving Repr

inductive MemberKind where
  | method (shape : MethodShape)
  | field (type : TypeShape)
  deriving Repr

structure MemberShape where
  parent : TypeShape
  name : String
  kind : MemberKind
  deriving Repr

end FrameworkAudit
