import FrameworkAudit.Metadata.Token

set_option autoImplicit false

namespace FrameworkAudit

inductive PlainType where
  | void | boolean | char
  | int8 | uint8 | int16 | uint16 | int32 | uint32 | int64 | uint64
  | float32 | float64
  | string | typedByRef | nativeInt | nativeUInt | object
  deriving DecidableEq, Repr

structure Dimension where
  size? : Option Nat
  lower? : Option Int
  deriving DecidableEq, Repr

/-- How a method is called: the flags of its signature and the number of its type parameters. -/
structure CallKind where
  hasThis : Bool
  explicitThis : Bool
  vararg : Bool
  typeParams : Nat
  deriving DecidableEq, Repr

inductive TypeSig where
  | plain (type : PlainType)
  | pointer (target : TypeSig)
  | byRef (target : TypeSig)
  | valueType (token : Token)
  | classType (token : Token)
  | typeParam (index : Nat)
  | methodParam (index : Nat)
  | array (element : TypeSig) (rank : Nat) (dimensions : List Dimension)
  | vector (element : TypeSig)
  | generic (base : TypeSig) (arguments : List TypeSig)
  | function (kind : CallKind) (result : TypeSig) (params varargs : List TypeSig)
  | modified (required : Bool) (modifier : Token) (base : TypeSig)
  | pinned (target : TypeSig)
  deriving Repr

/-- A method's signature; `varargs` are the parameters after the sentinel of a call. -/
structure MethodSig where
  kind : CallKind
  result : TypeSig
  params : List TypeSig
  varargs : List TypeSig
  deriving Repr

def MethodSig.paramCount (m : MethodSig) : Nat := m.params.length + m.varargs.length

inductive MemberSig where
  | method (signature : MethodSig)
  | field (type : TypeSig)
  deriving Repr

end FrameworkAudit
