import FrameworkAudit.Proofs.TypeToken
import FrameworkAudit.Signature.Reader

/-!
Signatures as they are written: the bytes of each of the four forms, how deep the types in a
signature nest, and which signatures have a written form at all. The bytes are those of ECMA-335
II.23.1.16 and II.23.2; that the tables of the reader have the same ones is a lemma.
-/

set_option autoImplicit false

namespace FrameworkAudit

def PlainType.byte : PlainType → UInt8
  | .void => 0x01
  | .boolean => 0x02
  | .char => 0x03
  | .int8 => 0x04
  | .uint8 => 0x05
  | .int16 => 0x06
  | .uint16 => 0x07
  | .int32 => 0x08
  | .uint32 => 0x09
  | .int64 => 0x0A
  | .uint64 => 0x0B
  | .float32 => 0x0C
  | .float64 => 0x0D
  | .string => 0x0E
  | .typedByRef => 0x16
  | .nativeInt => 0x18
  | .nativeUInt => 0x19
  | .object => 0x1C

def Element.byte : Element → UInt8
  | .pointer => 0x0F
  | .byRef => 0x10
  | .valueType => 0x11
  | .classType => 0x12
  | .typeParam => 0x13
  | .array => 0x14
  | .generic => 0x15
  | .function => 0x1B
  | .vector => 0x1D
  | .methodParam => 0x1E
  | .requiredModifier => 0x1F
  | .optionalModifier => 0x20
  | .pinned => 0x45

@[simp] theorem PlainType.toNat_byte (type : PlainType) : type.byte.toNat = type.code := by
  cases type <;> rfl

@[simp] theorem Element.toNat_byte (element : Element) : element.byte.toNat = element.code := by
  cases element <;> rfl

theorem PlainType.ofCode?_element (element : Element) : ofCode? element.code = none := by
  cases element <;> decide

namespace CallKind

/-- The first byte of a method's signature: the convention of added arguments, and a flag each for
type parameters, for an instance and for an instance that is declared as a parameter. -/
def convention (kind : CallKind) : Nat :=
  (if kind.vararg then 0x05 else 0x00) + (if 0 < kind.typeParams then 0x10 else 0x00) +
    (if kind.hasThis then 0x20 else 0x00) + (if kind.explicitThis then 0x40 else 0x00)

/-- The bytes of a method's signature, given those of the types in it. The sentinel stands before
the first parameter that a call adds. -/
def bytes (kind : CallKind) (result : List UInt8) (params varargs : List (List UInt8)) :
    List UInt8 :=
  UInt8.ofNat kind.convention ::
    ((if 0 < kind.typeParams then numberBytes kind.typeParams else []) ++
      (numberBytes (params.length + varargs.length) ++
        (result ++ (params.flatten ++ (if varargs = [] then [] else 0x41 :: varargs.flatten)))))

end CallKind

def countedBytes {α : Type} (number : α → List UInt8) (items : List α) : List UInt8 :=
  numberBytes items.length ++ (items.map number).flatten

def arrayBytes (rank : Nat) (dimensions : List Dimension) : List UInt8 :=
  numberBytes rank ++ (countedBytes numberBytes (dimensions.filterMap Dimension.size?) ++
    countedBytes signedBytes (dimensions.filterMap Dimension.lower?))

namespace TypeSig

mutual

def bytes : TypeSig → List UInt8
  | plain type => [type.byte]
  | pointer target => Element.pointer.byte :: target.bytes
  | byRef target => Element.byRef.byte :: target.bytes
  | valueType token => Element.valueType.byte :: token.bytes
  | classType token => Element.classType.byte :: token.bytes
  | typeParam index => Element.typeParam.byte :: numberBytes index
  | methodParam index => Element.methodParam.byte :: numberBytes index
  | array element rank dimensions =>
    Element.array.byte :: (element.bytes ++ arrayBytes rank dimensions)
  | vector element => Element.vector.byte :: element.bytes
  | generic base arguments =>
    Element.generic.byte ::
      (base.bytes ++ (numberBytes arguments.length ++ (bytesEach arguments).flatten))
  | function kind result params varargs =>
    Element.function.byte :: kind.bytes result.bytes (bytesEach params) (bytesEach varargs)
  | modified required modifier base =>
    (if required then Element.requiredModifier else Element.optionalModifier).byte ::
      (modifier.bytes ++ base.bytes)
  | pinned target => Element.pinned.byte :: target.bytes

def bytesEach : List TypeSig → List (List UInt8)
  | [] => []
  | sig :: rest => sig.bytes :: bytesEach rest

end

mutual

/-- How many levels of types a type takes, itself included. -/
def levels : TypeSig → Nat
  | plain _ | valueType _ | classType _ | typeParam _ | methodParam _ => 1
  | pointer inner | byRef inner | array inner _ _ | vector inner | modified _ _ inner
  | pinned inner => inner.levels + 1
  | generic base arguments => max base.levels (levelsOf arguments) + 1
  | function _ result params varargs =>
    max result.levels (max (levelsOf params) (levelsOf varargs)) + 1

def levelsOf : List TypeSig → Nat
  | [] => 0
  | sig :: rest => max sig.levels (levelsOf rest)

end

def isDefinition : TypeSig → Bool
  | valueType _ | classType _ => true
  | _ => false

end TypeSig

/-- An array that has a written form: one dimension for each rank, and neither a size nor a lower
bound behind a dimension that has none. -/
structure ArrayFits (rank : Nat) (dimensions : List Dimension) : Prop where
  rank_pos : 0 < rank
  rank_le : rank ≤ maxRank
  length_eq : dimensions.length = rank
  sizes : ∀ d ∈ dimensions, ∀ size, d.size? = some size → size < NumberWidth.four.limit
  lowers : ∀ d ∈ dimensions, ∀ lower, d.lower? = some lower →
    -NumberWidth.four.signedLimit ≤ lower ∧ lower < NumberWidth.four.signedLimit
  leading : dimensions.Pairwise fun d e =>
    (e.size?.isSome → d.size?.isSome) ∧ (e.lower?.isSome → d.lower?.isSome)

/-- A type that has a written form. The parameters of a function are counted together. -/
inductive TypeSig.Fits : TypeSig → Prop where
  | plain (type : PlainType) : Fits (plain type)
  | pointer {target : TypeSig} (h : Fits target) : Fits (pointer target)
  | byRef {target : TypeSig} (h : Fits target) : Fits (byRef target)
  | valueType {token : Token} (h : token.NamesType) : Fits (valueType token)
  | classType {token : Token} (h : token.NamesType) : Fits (classType token)
  | typeParam {index : Nat} (h : index < NumberWidth.four.limit) : Fits (typeParam index)
  | methodParam {index : Nat} (h : index < NumberWidth.four.limit) : Fits (methodParam index)
  | array {element : TypeSig} {rank : Nat} {dimensions : List Dimension} (h : Fits element)
      (shape : ArrayFits rank dimensions) : Fits (array element rank dimensions)
  | vector {element : TypeSig} (h : Fits element) : Fits (vector element)
  | generic {base : TypeSig} {arguments : List TypeSig} (h : Fits base)
      (definition : base.isDefinition = true) (count : arguments.length < NumberWidth.four.limit)
      (each : ∀ sig ∈ arguments, Fits sig) : Fits (generic base arguments)
  | function {kind : CallKind} {result : TypeSig} {params varargs : List TypeSig}
      (typeParams : kind.typeParams < NumberWidth.four.limit)
      (count : params.length + varargs.length < NumberWidth.four.limit) (h : Fits result)
      (fixed : ∀ sig ∈ params, Fits sig) (added : ∀ sig ∈ varargs, Fits sig) :
      Fits (function kind result params varargs)
  | modified {required : Bool} {modifier : Token} {base : TypeSig} (h : Fits base)
      (token : modifier.NamesType) : Fits (modified required modifier base)
  | pinned {target : TypeSig} (h : Fits target) : Fits (pinned target)

namespace MethodSig

def toType (m : MethodSig) : TypeSig := .function m.kind m.result m.params m.varargs

def bytes (m : MethodSig) : List UInt8 :=
  m.kind.bytes m.result.bytes (TypeSig.bytesEach m.params) (TypeSig.bytesEach m.varargs)

def levels (m : MethodSig) : Nat :=
  max m.result.levels (max (TypeSig.levelsOf m.params) (TypeSig.levelsOf m.varargs))

def Fits (m : MethodSig) : Prop := m.toType.Fits

end MethodSig

inductive Signature where
  | type (sig : TypeSig)
  | field (sig : TypeSig)
  | method (sig : MethodSig)
  | member (sig : MemberSig)

inductive SignatureForm where
  | type | field | method | member
  deriving DecidableEq, Repr

/-- Reads a signature of the form, whose types may take `room` levels. -/
def SignatureForm.read : SignatureForm → Nat → Read Signature
  | .type, room => return .type (← Read.type room)
  | .field, room => return .field (← Read.field room)
  | .method, room => return .method (← Read.method room)
  | .member, room => return .member (← Read.member room)

namespace Signature

def form : Signature → SignatureForm
  | type _ => .type
  | field _ => .field
  | method _ => .method
  | member _ => .member

def fieldBytes (sig : TypeSig) : List UInt8 := 0x06 :: sig.bytes

def bytes : Signature → List UInt8
  | type sig => sig.bytes
  | field sig | member (.field sig) => fieldBytes sig
  | method sig | member (.method sig) => sig.bytes

def levels : Signature → Nat
  | type sig | field sig | member (.field sig) => sig.levels
  | method sig | member (.method sig) => sig.levels

def Fits : Signature → Prop
  | type sig | field sig | member (.field sig) => sig.Fits
  | method sig | member (.method sig) => sig.Fits

end Signature

end FrameworkAudit
