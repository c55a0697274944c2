import FrameworkAudit.Cursor
import FrameworkAudit.Signature

set_option autoImplicit false

namespace FrameworkAudit

namespace PlainType

def code : PlainType → Nat
  | .void => 0x01
  | .boolean => 0x02
  | .char => 0x03
  | .int8 => 0x04
  | .uint8 => 0x05
  | .int16 => 0x06
  | .uint16 => 0x07
  | .int32 => 0x08
  | .uint32 => 0x09
  | .int64 => 0x0A
  | .uint64 => 0x0B
  | .float32 => 0x0C
  | .float64 => 0x0D
  | .string => 0x0E
  | .typedByRef => 0x16
  | .nativeInt => 0x18
  | .nativeUInt => 0x19
  | .object => 0x1C

def all : List PlainType :=
  [.void, .boolean, .char, .int8, .uint8, .int16, .uint16, .int32, .uint32, .int64, .uint64,
   .float32, .float64, .string, .typedByRef, .nativeInt, .nativeUInt, .object]

def ofCode? (n : Nat) : Option PlainType := all.find? fun type => type.code == n

theorem ofCode?_code (type : PlainType) : ofCode? type.code = some type := by
  cases type <;> decide

end PlainType

/-- The bytes that open the types with parts, and those that mark other places of a signature. -/
inductive Element where
  | pointer | byRef | valueType | classType | typeParam | array | generic | function | vector
  | methodParam | requiredModifier | optionalModifier | pinned
  deriving DecidableEq, Repr

namespace Element

def code : Element → Nat
  | .pointer => 0x0F
  | .byRef => 0x10
  | .valueType => 0x11
  | .classType => 0x12
  | .typeParam => 0x13
  | .array => 0x14
  | .generic => 0x15
  | .function => 0x1B
  | .vector => 0x1D
  | .methodParam => 0x1E
  | .requiredModifier => 0x1F
  | .optionalModifier => 0x20
  | .pinned => 0x45

def all : List Element :=
  [.pointer, .byRef, .valueType, .classType, .typeParam, .array, .generic, .function, .vector,
   .methodParam, .requiredModifier, .optionalModifier, .pinned]

def ofCode? (n : Nat) : Option Element := all.find? fun element => element.code == n

theorem ofCode?_code (element : Element) : ofCode? element.code = some element := by
  cases element <;> decide

end Element

/-- Stands before the parameters that a call adds to those that the method declares. -/
def sentinel : UInt8 := 0x41

def fieldMark : Nat := 0x06

def maxRank : Nat := 32

def maxTypeDepth : Nat := 50

namespace CallKind

/-- The calling convention and the flags in the first byte of a method's signature; the number of
type parameters follows only if a flag says so. -/
def ofByte (b typeParams : Nat) : CallKind where
  hasThis := b.testBit 5
  explicitThis := b.testBit 6
  vararg := b % 16 == 5
  typeParams := typeParams

def isGeneric (b : Nat) : Bool := b.testBit 4

end CallKind

namespace Read

/-- The dimensions of an array of `rank`, of which the first few have a size or a lower bound. -/
def dimensionsOf (rank : Nat) (sizes : List Nat) (lowers : List Int) : List Dimension :=
  (List.range rank).map fun i => ⟨sizes[i]?, lowers[i]?⟩

def arrayShape : Read (Nat × List Dimension) := do
  let rank ← compressedNat
  if rank = 0 ∨ maxRank < rank then fail (.arrayRank rank)
  let sizeCount ← compressedNat
  if rank < sizeCount then fail (.arraySizes sizeCount rank)
  let sizes ← times sizeCount compressedNat
  let lowerCount ← compressedNat
  if rank < lowerCount then fail (.arrayLowerBounds lowerCount rank)
  let lowers ← times lowerCount compressedInt
  return (rank, dimensionsOf rank sizes lowers)

/-- The parameters after the sentinel; there is no second one. -/
def varargs (type : Read TypeSig) : Nat → Read (List TypeSig)
  | 0 => return []
  | count + 1 => do
    if (← peek) = sentinel then fail .secondSentinel
    let first ← type
    let rest ← varargs type count
    return first :: rest

/-- The declared parameters and those after the sentinel, `count` in all. -/
def params (type : Read TypeSig) : Nat → Read (List TypeSig × List TypeSig)
  | 0 => return ([], [])
  | count + 1 => do
    if (← peek) = sentinel then
      skip 1
      let first ← type
      let rest ← varargs type count
      return ([], first :: rest)
    else
      let first ← type
      let (fixed, rest) ← params type count
      return (first :: fixed, rest)

def methodOf (type : Read TypeSig) : Read MethodSig := do
  let convention ← word 1
  let typeParams ← if CallKind.isGeneric convention then compressedNat else pure 0
  let count ← compressedNat
  let result ← type
  let (fixed, rest) ← params type count
  return ⟨.ofByte convention typeParams, result, fixed, rest⟩

def genericOf (type : Read TypeSig) : Read TypeSig := do
  let next := (← peek).toNat
  if next ≠ Element.code .classType ∧ next ≠ Element.code .valueType then
    fail (.genericBase next)
  let base ← type
  let count ← compressedNat
  return .generic base (← times count type)

def elementOf (type : Read TypeSig) : Element → Read TypeSig
  | .pointer => return .pointer (← type)
  | .byRef => return .byRef (← type)
  | .valueType => return .valueType (← compressedToken)
  | .classType => return .classType (← compressedToken)
  | .typeParam => return .typeParam (← compressedNat)
  | .methodParam => return .methodParam (← compressedNat)
  | .array => do
    let element ← type
    let (rank, dimensions) ← arrayShape
    return .array element rank dimensions
  | .vector => return .vector (← type)
  | .generic => genericOf type
  | .function => do
    let m ← methodOf type
    return .function m.kind m.result m.params m.varargs
  | .requiredModifier => do
    let modifier ← compressedToken
    return .modified true modifier (← type)
  | .optionalModifier => do
    let modifier ← compressedToken
    return .modified false modifier (← type)
  | .pinned => return .pinned (← type)

/-- A type under which types may nest `room` levels deep, counting the type itself. -/
def type : Nat → Read TypeSig
  | 0 => throw (.recursionLimit maxTypeDepth)
  | room + 1 => do
    let code ← word 1
    match PlainType.ofCode? code with
    | some plain => return .plain plain
    | none =>
      match Element.ofCode? code with
      | some element => elementOf (type room) element
      | none => fail (.elementType code)

def method (room : Nat) : Read MethodSig := methodOf (type room)

def field (room : Nat) : Read TypeSig := do
  let mark ← word 1
  if mark ≠ fieldMark then fail (.fieldStart mark)
  type room

def member (room : Nat) : Read MemberSig := do
  if (← peek).toNat = fieldMark then return .field (← field room)
  else return .method (← method room)

end Read

/-- Reads signatures one after the other. A type that was refused for its depth stays open: it
takes one level from the signatures that follow. -/
structure SignatureReader where
  cursor : Cursor
  depth : Nat

namespace SignatureReader

def ofBytes (data : ByteArray) : SignatureReader := ⟨.ofBytes data, 0⟩

def room (r : SignatureReader) : Nat := maxTypeDepth - 1 - r.depth

def next {α : Type} (r : SignatureReader) (read : Nat → Read α) :
    Except Error α × SignatureReader :=
  match read r.room r.cursor with
  | .ok value cursor => (.ok value, { r with cursor })
  | .error e cursor =>
    (.error e, ⟨cursor, if e = .recursionLimit maxTypeDepth then r.depth + 1 else r.depth⟩)

end SignatureReader

namespace MemberSig

def ofBlob (data : ByteArray) : Except Error MemberSig :=
  ((SignatureReader.ofBytes data).next Read.member).1

end MemberSig

namespace TypeSig

def ofBlob (data : ByteArray) : Except Error TypeSig :=
  ((SignatureReader.ofBytes data).next Read.type).1

end TypeSig

end FrameworkAudit
