import FrameworkAudit.Shape
import FrameworkAudit.Text.Fields
import FrameworkAudit.Text.Numeral

/-!
Documentation identifiers: one line of text for a type, a method, a field, a namespace or an
assembly. A letter and a colon say which of them it is.

A type is written as its core, followed by its array layers from the inside to the outside, its
modifiers from the outside to the inside, a star for each pointer layer and an at sign for each
reference layer.
-/

set_option autoImplicit false

namespace FrameworkAudit

abbrev DocId := String

structure Layers where
  core : String
  /-- From the innermost to the outermost. -/
  arrays : List String
  /-- From the outermost to the innermost. -/
  modifiers : List String
  pointers : Nat
  byRefs : Nat
  deriving DecidableEq, Repr

namespace Layers

def ofCore (core : String) : Layers := ⟨core, [], [], 0, 0⟩

def text (l : Layers) : String :=
  l.core ++ String.join l.arrays ++ String.join l.modifiers ++
    String.ofList (List.replicate l.pointers '*') ++ String.ofList (List.replicate l.byRefs '@')

def addArray (l : Layers) (suffix : String) : Layers :=
  { l with arrays := l.arrays ++ [suffix] }

def addModifier (l : Layers) (required : Bool) (modifier : String) : Layers :=
  let word := if required then " reqmod " else " optmod "
  { l with modifiers := (word ++ modifier) :: l.modifiers }

def addPointer (l : Layers) : Layers := { l with pointers := l.pointers + 1 }

def addByRef (l : Layers) : Layers := { l with byRefs := l.byRefs + 1 }

end Layers

namespace Dimension

def text (d : Dimension) : String :=
  if d.size?.isNone ∧ d.lower?.isNone then ""
  else
    let lower := (d.lower?.map toString).getD ""
    let upper := (d.size?.map fun (size : Nat) =>
      toString (d.lower?.getD 0 + (size : Int) - 1)).getD ""
    lower ++ ":" ++ upper

end Dimension

namespace TypeShape

def arraySuffix : Option (List Dimension) → String
  | none => "[]"
  | some dimensions => "[" ++ String.intercalate "," (dimensions.map Dimension.text) ++ "]"

def qualified (space : String) (names : List String) : String :=
  (if space.isEmpty then "" else space ++ ".") ++ String.intercalate "." names

def braced : List String → String
  | [] => ""
  | arguments => "\x7b" ++ String.intercalate "," arguments ++ "\x7d"

@[simp] theorem braced_nil : braced [] = "" := rfl

def splitArity? (name : String) : Option (String × Nat) := do
  let (base, arity) ← Text.cutLast '\x60' name
  return (base, ← Text.numeral? UInt64.size arity)

/-- A name of a nesting chain as it is written, with the arguments that it takes and the sum by which
the program sees whether there are enough: the arguments taken before it and those that it marks. -/
structure Share (α : Type) where
  name : String
  arguments : List α
  sum : Nat

/-- Shares arguments out among the names of a nesting chain, where `taken` were taken before. A name
that marks more arguments than are left stays as it is; a last name without a marker takes all that
are left. -/
def shares {α : Type} (taken : Nat) : List String → List α → List (Share α)
  | [], _ => []
  | name :: rest, left =>
    match splitArity? name with
    | some (base, arity) =>
      if arity ≤ left.length then
        ⟨base, left.take arity, taken + arity⟩ :: shares (taken + arity) rest (left.drop arity)
      else ⟨name, [], taken + arity⟩ :: shares taken rest left
    | none =>
      if rest.isEmpty then [⟨name, left, taken⟩] else ⟨name, [], taken⟩ :: shares taken rest left

/-- The sums are taken in 64 bits, and the arguments that a name takes are written behind it. -/
def Share.isWritable (s : Share Bool) : Bool := s.sum < UInt64.size && s.arguments.all id

def closedNames (names arguments : List String) : List String :=
  (shares 0 names arguments).map fun s => s.name ++ braced s.arguments

def paramList (params : List String) (vararg : Bool) : String :=
  "(" ++ String.intercalate "," params ++ (if vararg then ",__arglist" else "") ++ ")"

mutual

/-- The parts of a type. A generic instance at the core of a definition is written without its
arguments. -/
def layers (definition : Bool) : TypeShape → Layers
  | named type => .ofCore (qualified type.space type.names)
  | generic type arguments =>
    if definition then .ofCore (qualified type.space type.names)
    else .ofCore (qualified type.space (closedNames type.names (texts arguments)))
  | param index ofMethod => .ofCore ((if ofMethod then "``" else "`") ++ toString index)
  | array element dimensions? => (layers definition element).addArray (arraySuffix dimensions?)
  | pointer target => (layers definition target).addPointer
  | byRef target => (layers definition target).addByRef
  | modified base modifier required =>
    (layers definition base).addModifier required (layers false modifier).text
  | function result params =>
    let list := if params.isEmpty then "" else paramList (texts params) false
    .ofCore ("=FUNC:" ++ (layers false result).text ++ list)

def texts : List TypeShape → List String
  | [] => []
  | shape :: rest => (layers false shape).text :: texts rest

end

def text (t : TypeShape) : String := (t.layers false).text

def definitionText (t : TypeShape) : String := (t.layers true).text

mutual

/-- Whether a type can be written: an arity that is too large for the sum that it goes into ends the
program. Arguments that no name takes are not looked at. -/
def isWritable (definition : Bool) : TypeShape → Bool
  | named _ => true
  | generic type arguments =>
    definition || (shares 0 type.names (writable arguments)).all Share.isWritable
  | param _ _ => true
  | array element _ => isWritable definition element
  | pointer target => isWritable definition target
  | byRef target => isWritable definition target
  | modified base modifier _ => isWritable definition base && isWritable false modifier
  | function result params => isWritable false result && (writable params).all id

def writable : List TypeShape → List Bool
  | [] => []
  | shape :: rest => isWritable false shape :: writable rest

end

theorem texts_eq_map (shapes : List TypeShape) : texts shapes = shapes.map text := by
  induction shapes with
  | nil => simp [texts]
  | cons shape rest ih => simp [texts, ih, text]

end TypeShape

namespace MemberShape

/-- Characters of a member's name that have a meaning in an identifier are written as others. -/
def nameChar : Char → Char
  | '<' => '\x7b'
  | '>' => '\x7d'
  | '.' => '#'
  | ',' => '@'
  | c => c

def nameText (name : String) : String := name.map nameChar

/-- Conversions from one type differ in their results alone. -/
def isConversion (name : String) (method : MethodShape) : Bool :=
  (name == "op_Implicit" || name == "op_Explicit") && method.params.length == 1

def methodSuffix (name : String) (method : MethodShape) : String :=
  let arity := if method.typeParams = 0 then "" else "``" ++ toString method.typeParams
  let params :=
    if method.params.isEmpty ∧ method.vararg = false then ""
    else TypeShape.paramList (method.params.map TypeShape.text) method.vararg
  arity ++ params ++ if isConversion name method then "~" ++ method.result.text else ""

/-- Whether the identifier of a member can be written: its parent without arguments, and its
parameters and result as far as they stand in it. -/
def isWritable (m : MemberShape) : Bool :=
  m.parent.isWritable true &&
    match m.kind with
    | .method method =>
      method.params.all (TypeShape.isWritable false) &&
        (!isConversion m.name method || method.result.isWritable false)
    | .field _ => true

end MemberShape

inductive DocIdKind where
  | type | method | field | namespaceId | assembly
  deriving DecidableEq, Repr

def DocIdKind.name : DocIdKind → String
  | .type => "Type"
  | .method => "Method"
  | .field => "Field"
  | .namespaceId => "Namespace"
  | .assembly => "Assembly"

namespace DocId

def mark : DocIdKind → String
  | .type => "T:"
  | .method => "M:"
  | .field => "F:"
  | .namespaceId => "N:"
  | .assembly => "A:"

def ofType (t : TypeShape) : DocId := mark .type ++ t.text

/-- The identifier of the type's definition, the same for all arguments of a generic instance. -/
def ofTypeDefinition (t : TypeShape) : DocId := mark .type ++ t.definitionText

def ofMember (m : MemberShape) : DocId :=
  let path := m.parent.definitionText ++ "." ++ MemberShape.nameText m.name
  match m.kind with
  | .method method => mark .method ++ path ++ MemberShape.methodSuffix m.name method
  | .field _ => mark .field ++ path

def ofNamespace (space : String) : DocId := mark .namespaceId ++ space

def ofAssembly (name : String) : DocId := mark .assembly ++ name

def kind? (id : DocId) : Option DocIdKind :=
  [DocIdKind.type, .method, .field, .namespaceId, .assembly].find? fun kind =>
    (mark kind).toList.isPrefixOf id.toList

end DocId

end FrameworkAudit
