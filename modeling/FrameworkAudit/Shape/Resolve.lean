import FrameworkAudit.Assembly
import FrameworkAudit.Shape
import FrameworkAudit.Signature.Reader

/-!
Resolving the rows of an assembly into shapes. A failure concerns one reference: a row that is not
there, a signature that cannot be read, or a chain of rows that is too long or never ends.
-/

set_option autoImplicit false

namespace FrameworkAudit

def maxChain : Nat := 64

namespace PlainType

def typeName : PlainType → String
  | .void => "Void"
  | .boolean => "Boolean"
  | .char => "Char"
  | .int8 => "SByte"
  | .uint8 => "Byte"
  | .int16 => "Int16"
  | .uint16 => "UInt16"
  | .int32 => "Int32"
  | .uint32 => "UInt32"
  | .int64 => "Int64"
  | .uint64 => "UInt64"
  | .float32 => "Single"
  | .float64 => "Double"
  | .string => "String"
  | .typedByRef => "TypedReference"
  | .nativeInt => "IntPtr"
  | .nativeUInt => "UIntPtr"
  | .object => "Object"

end PlainType

namespace Assembly

variable (a : Assembly)

/-- The type of a reference whose scopes may take `room` rows, this one included. -/
def typeRefChain : Nat → Nat → Except Error NamedType
  | 0, _ => .error (.recursionLimit maxChain)
  | room + 1, row =>
    match a.typeRef? row with
    | none => .error (.malformed (.rowUnavailable .typeRef row))
    | some entry =>
      match entry.scope.table with
      | .typeRef =>
        if entry.scope.isNull then .ok (.ofName entry.space entry.name a.identity)
        else do return (← typeRefChain room entry.scope.row).nested entry.name
      | .assemblyRef =>
        match a.assemblyRef? entry.scope.row with
        | some identity => .ok (.ofName entry.space entry.name identity)
        | none => .error (.malformed (.scopeUnavailable row entry.scope.row))
      | _ => .ok (.ofName entry.space entry.name a.identity)

/-- The named type of a reference, with the types around it. Other scopes than a type or another
assembly mean the assembly itself. -/
def typeRefShape (row : Nat) : Except Error NamedType := a.typeRefChain (maxChain + 1) row

/-- The type of a definition that may lie in `room` types, itself included. -/
def typeDefChain : Nat → Nat → Except Error NamedType
  | 0, _ => .error (.recursionLimit maxChain)
  | room + 1, row =>
    match a.typeDef? row with
    | none => .error (.malformed (.rowUnavailable .typeDef row))
    | some entry =>
      match a.enclosing? row with
      | some outer => do return (← typeDefChain room outer).nested entry.name
      | none => .ok (.ofName entry.space entry.name a.identity)

def typeDefShape (row : Nat) : Except Error NamedType := a.typeDefChain (maxChain + 1) row

end Assembly

namespace TypeSig

mutual

/-- The shape of a signature, given the shapes of the tokens in it. Pinning leaves no trace, and
neither do the varargs of a function. -/
def shapeWith (token : Token → Except Error TypeShape) : TypeSig → Except Error TypeShape
  | plain type => .ok (.named (.primitive type.typeName))
  | pointer target => do return .pointer (← shapeWith token target)
  | byRef target => do return .byRef (← shapeWith token target)
  | valueType t => token t
  | classType t => token t
  | typeParam index => .ok (.param index false)
  | methodParam index => .ok (.param index true)
  | array element _ dimensions => do
    return .array (← shapeWith token element) (some dimensions)
  | vector element => do return .array (← shapeWith token element) none
  | generic base arguments => do
    match ← shapeWith token base with
    | .named definition => return .generic definition (← shapesWith token arguments)
    | _ => throw (.malformed .unnamedGeneric)
  | function _ result params _ => do
    let result ← shapeWith token result
    return .function result (← shapesWith token params)
  | modified required modifier base => do
    let base ← shapeWith token base
    return .modified base (← token modifier) required
  | pinned target => shapeWith token target

def shapesWith (token : Token → Except Error TypeShape) :
    List TypeSig → Except Error (List TypeShape)
  | [] => .ok []
  | sig :: rest => do
    let shape ← shapeWith token sig
    return shape :: (← shapesWith token rest)

end

end TypeSig

namespace Assembly

variable (a : Assembly)

/-- The shape that a token names, where `hops` signature rows may be followed one into another. -/
def tokenWithin : Nat → Token → Except Error TypeShape
  | 0, _ => .error (.recursionLimit maxChain)
  | hops + 1, token =>
    match token.table? with
    | some .typeRef => do return .named (← a.typeRefShape token.row)
    | some .typeDef => do return .named (← a.typeDefShape token.row)
    | some .typeSpec =>
      match a.typeSpec? token.row with
      | none => .error (.malformed (.rowUnavailable .typeSpec token.row))
      | some blob => do (← TypeSig.ofBlob blob).shapeWith (tokenWithin hops)
    | _ => .error (.malformed (.notAType token))

/-- A token in a signature counts one step, and so does the signature of a row: at `depth` this
many signature rows may follow one another. -/
def hopsAt (depth : Nat) : Nat := (maxChain + 2 - depth) / 2

def tokenShapeAt (depth : Nat) (token : Token) : Except Error TypeShape :=
  a.tokenWithin (hopsAt depth) token

def signatureShapeAt (depth : Nat) (sig : TypeSig) : Except Error TypeShape :=
  sig.shapeWith (a.tokenShapeAt (depth + 1))

def tokenShape (token : Token) : Except Error TypeShape := a.tokenShapeAt 0 token

def signatureShape (sig : TypeSig) : Except Error TypeShape := a.signatureShapeAt 0 sig

def methodShape (m : MethodSig) : Except Error MethodShape := do
  let params ← m.params.mapM a.signatureShape
  let result ← a.signatureShape m.result
  return ⟨m.kind.typeParams, params, result, m.kind.vararg⟩

def memberKind : MemberSig → Except Error MemberKind
  | .method m => do return .method (← a.methodShape m)
  | .field type => do return .field (← a.signatureShape type)

def declaresMembers : TableId → Bool
  | .typeRef | .typeDef | .typeSpec => true
  | _ => false

def memberShape (row : Nat) : Except Error (Option MemberShape) :=
  match a.memberRef? row with
  | none => .error (.malformed (.rowUnavailable .memberRef row))
  | some entry =>
    if declaresMembers entry.parent.table then do
      let parent ← a.tokenShape entry.parent.token
      let sig ← MemberSig.ofBlob entry.signature
      return some ⟨parent, entry.name, ← a.memberKind sig⟩
    else .ok none

end Assembly

end FrameworkAudit
