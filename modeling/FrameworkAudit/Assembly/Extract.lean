import FrameworkAudit.Assembly
import FrameworkAudit.Cancellation
import FrameworkAudit.Log
import FrameworkAudit.Metadata.View

/-!
Taking an assembly out of a metadata image. The image and the identity must be readable; after that
a row that cannot be read is left out with a warning, and nothing else depends on it.

The framework and the file version come from two attributes on the assembly; of several the last
one holds.
-/

set_option autoImplicit false

namespace FrameworkAudit

variable [Host]

namespace Metadata

def entries {ρ α : Type} [Row ρ] (m : Metadata) (resolve : ρ → Except Error α) :
    List (Nat × Except Error α) :=
  match m.tables.table? ρ with
  | none => []
  | some table => table.toList.map fun entry => (entry.1, entry.2.bind resolve)

/-- The endings of a module's name that are no part of the assembly's name. -/
def moduleEndings : List String := [".dll", ".exe", ".netmodule", ".winmd"]

def dropEnding (name : String) : String :=
  match moduleEndings.find? fun ending => ending.toList.isSuffixOf name.toList with
  | some ending => String.ofList (name.toList.take (name.toList.length - ending.length))
  | none => name

def assemblyIdentity (m : Metadata) (row : AssemblyRow) : Except Error Identity := do
  let key ← m.blob row.publicKey
  let name ← m.text row.name
  let culture ← m.text row.culture
  let token? := if key.isEmpty then none else some (KeyToken.ofPublicKey key.toList)
  return .make name row.version (some culture) token?

/-- The assembly's identity. A module without an assembly row lends its name. -/
def identity (m : Metadata) : Except Error Identity :=
  match m.tables.table? AssemblyRow with
  | some table => do m.assemblyIdentity (← table.get 1)
  | none =>
    match m.tables.table? ModuleRow with
    | some table => do
      let row ← table.get 1
      let name ← m.text row.name
      return .make (dropEnding name) .zero none none
    | none => .error (.malformed .noIdentityRow)

/-- The token that a reference holds or, if a flag says so, the token of the key that it holds. -/
def referenceToken (flags : Nat) (key : ByteArray) : Except Error (Option KeyToken) :=
  if key.isEmpty then .ok none
  else if flags.testBit 0 then .ok (some (KeyToken.ofPublicKey key.toList))
  else
    match KeyToken.ofBytes? key.toList with
    | some token => .ok (some token)
    | none => .error (.malformed (.referenceTokenLength key.size))

def assemblyRef (m : Metadata) (row : AssemblyRefRow) : Except Error Identity := do
  let token? ← referenceToken row.flags (← m.blob row.keyOrToken)
  let name ← m.text row.name
  let culture ← m.text row.culture
  return .make name row.version (some culture) token?

def typeDef (m : Metadata) (row : TypeDefRow) : Except Error TypeDef := do
  let space ← m.text row.space
  let name ← m.text row.name
  return ⟨space, name, row.methodList⟩

def typeRef (m : Metadata) (row : TypeRefRow) : Except Error TypeRef := do
  let space ← m.text row.space
  let name ← m.text row.name
  return ⟨space, name, row.scope⟩

def typeSpec (m : Metadata) (row : TypeSpecRow) : Except Error ByteArray := m.blob row.signature

def memberRef (m : Metadata) (row : MemberRefRow) : Except Error MemberRef := do
  let name ← m.text row.name
  let signature ← m.blob row.signature
  return ⟨name, row.parent, signature⟩

def nestedPair (row : NestedClassRow) : Except Error (Nat × Nat) :=
  .ok (row.nested, row.enclosing)

end Metadata

inductive AttributeKind where
  | framework
  | fileVersion
  deriving DecidableEq, Repr

namespace AttributeKind

def typeName : AttributeKind → String × String
  | .framework => ("System.Runtime.Versioning", "TargetFrameworkAttribute")
  | .fileVersion => ("System.Reflection", "AssemblyFileVersionAttribute")

def ofTypeName? (name : String × String) : Option AttributeKind :=
  [framework, fileVersion].find? fun kind => kind.typeName == name

end AttributeKind

inductive AttributeOutcome where
  | unreadable (error : Error)
  | irrelevant
  | argument (kind : AttributeKind) (value : Except Error (Option String))

namespace Assembly

/-- The namespace and the name of the type that declares an attribute's constructor. A method
belongs to the last readable type whose methods begin at or before it. -/
def constructorType? (a : Assembly) (constructor : CodedIndex) : Option (String × String) :=
  match constructor.table with
  | .memberRef => do
    let parent := (← a.memberRef? constructor.row).parent
    match parent.table with
    | .typeRef => (a.typeRef? parent.row).map fun t => (t.space, t.name)
    | .typeDef => (a.typeDef? parent.row).map fun t => (t.space, t.name)
    | _ => none
  | .methodDef =>
    let readable := a.typeDefs.toList.filterMap id
    let before := readable.takeWhile fun t => t.methodList ≤ constructor.row
    before.getLast?.map fun t => (t.space, t.name)
  | _ => none

def attributeProlog : Nat := 1

def readArgument : Read (Option String) := do
  let prolog ← Read.word 2
  if prolog ≠ attributeProlog then Read.fail (.attributeProlog prolog)
  Read.serialString

def attributeOutcome (a : Assembly) (m : Metadata) :
    Except Error CustomAttributeRow → AttributeOutcome
  | .error e => .unreadable e
  | .ok row =>
    if row.parent.table ≠ .assembly then .irrelevant
    else
      match (a.constructorType? row.constructor).bind AttributeKind.ofTypeName? with
      | none => .irrelevant
      | some kind => .argument kind ((m.blob row.value).bind (Read.run readArgument))

def attributeOutcomes (a : Assembly) (m : Metadata) : List (Nat × AttributeOutcome) :=
  match m.tables.table? CustomAttributeRow with
  | none => []
  | some table => table.toList.map fun entry => (entry.1, a.attributeOutcome m entry.2)

def attributeValue? (kind : AttributeKind) (outcomes : List (Nat × AttributeOutcome)) :
    Option String :=
  let values := outcomes.filterMap fun entry =>
    match entry.2 with
    | .argument found (.ok (some value)) => if found = kind then some value else none
    | _ => none
  values.getLast?

def attributeWarning? : Nat × AttributeOutcome → Option LogLine
  | (row, .unreadable e) =>
    some ⟨.warn, s!"Skipping CustomAttribute row {row} - {e.message}"⟩
  | (row, .argument _ (.error e)) =>
    some ⟨.warn, s!"Invalid value of CustomAttribute row {row} - {e.message}"⟩
  | _ => none

def kept {α : Type} (entries : List (Nat × Except Error α)) : Array (Option α) :=
  (entries.map fun entry => entry.2.toOption).toArray

def warnings {α : Type} (table : TableId) (entries : List (Nat × Except Error α)) :
    List LogLine :=
  entries.filterMap fun entry =>
    match entry.2 with
    | .ok _ => none
    | .error e => some ⟨.warn, s!"Skipping {table.name} row {entry.1} - {e.message}"⟩

def summary (a : Assembly) : LogLine :=
  let counts := s!"{a.assemblyRefs.size} assembly refs, {a.typeRefs.size} type refs, " ++
    s!"{a.memberRefs.size} member refs, {a.typeSpecs.size} type specs"
  ⟨.debug, s!"Extracted {a.identity.display}: {counts}"⟩

def ofMetadata (m : Metadata) (identity : Identity) : Logged Assembly :=
  let assemblyRefs := m.entries m.assemblyRef
  let typeDefs := m.entries m.typeDef
  let nesting := m.entries Metadata.nestedPair
  let typeRefs := m.entries m.typeRef
  let typeSpecs := m.entries m.typeSpec
  let memberRefs := m.entries m.memberRef
  let bare : Assembly := {
    identity
    framework := ""
    fileVersion := identity.version.text
    assemblyRefs := kept assemblyRefs
    typeRefs := kept typeRefs
    typeDefs := kept typeDefs
    typeSpecs := kept typeSpecs
    memberRefs := kept memberRefs
    nesting := (nesting.filterMap fun entry => entry.2.toOption).reverse }
  let outcomes := bare.attributeOutcomes m
  let assembly := { bare with
    framework := (attributeValue? .framework outcomes).getD bare.framework
    fileVersion := (attributeValue? .fileVersion outcomes).getD bare.fileVersion }
  ⟨assembly,
    warnings .assemblyRef assemblyRefs ++ warnings .typeDef typeDefs ++
      warnings .nestedClass nesting ++ warnings .typeRef typeRefs ++
      warnings .typeSpec typeSpecs ++ warnings .memberRef memberRefs ++
      outcomes.filterMap attributeWarning? ++ [assembly.summary]⟩

def ofFile (data : ByteArray) (cancelled : Bool) : Logged (Except Error Assembly) :=
  let opened : Except Error (Metadata × Identity) := do
    let m ← Metadata.ofFile data
    let identity ← m.identity
    checkCancelled cancelled
    return (m, identity)
  match opened with
  | .error e => ⟨.error e, []⟩
  | .ok (m, identity) =>
    let extracted := ofMetadata m identity
    ⟨.ok extracted.value, extracted.lines⟩

end Assembly

end FrameworkAudit
