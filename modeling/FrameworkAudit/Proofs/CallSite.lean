import FrameworkAudit.Dependency.Finder

/-!
What a call adds to a member. The arguments of a generic instance and the parameters after the sentinel
differ from call to call. Neither is part of the member that is called: not of its identifier, and not
of the assembly that defines it.
-/

set_option autoImplicit false

namespace FrameworkAudit

namespace TypeShape

def withArguments (others : List TypeShape) : TypeShape → TypeShape
  | generic definition _ => generic definition others
  | array element dimensions? => array (element.withArguments others) dimensions?
  | pointer target => pointer (target.withArguments others)
  | byRef target => byRef (target.withArguments others)
  | modified base modifier required => modified (base.withArguments others) modifier required
  | t => t

theorem core?_withArguments (others : List TypeShape) :
    ∀ t : TypeShape, (t.withArguments others).core? = t.core?
  | named _ | generic _ _ | param _ _ | function _ _ => rfl
  | array t _ | pointer t | byRef t | modified t _ _ => core?_withArguments others t

theorem assembly?_withArguments (others : List TypeShape) (t : TypeShape) :
    (t.withArguments others).assembly? = t.assembly? := by
  rw [assembly?, assembly?, core?_withArguments]

theorem isPrimitive_withArguments (others : List TypeShape) (t : TypeShape) :
    (t.withArguments others).isPrimitive = t.isPrimitive := by
  rw [isPrimitive, isPrimitive, core?_withArguments]

theorem layers_withArguments (others : List TypeShape) :
    ∀ t : TypeShape, (t.withArguments others).layers true = t.layers true
  | named _ | generic _ _ | param _ _ | function _ _ => rfl
  | array t _ | pointer t | byRef t | modified t _ _ => by
    simp only [withArguments, layers, layers_withArguments others t]

theorem definitionText_withArguments (others : List TypeShape) (t : TypeShape) :
    (t.withArguments others).definitionText = t.definitionText := by
  rw [definitionText, definitionText, layers_withArguments]

end TypeShape

namespace MemberShape

def withArguments (others : List TypeShape) (m : MemberShape) : MemberShape :=
  { m with parent := m.parent.withArguments others }

variable (others : List TypeShape) (m : MemberShape)

theorem ofMember_withArguments : DocId.ofMember (m.withArguments others) = DocId.ofMember m := by
  simp only [DocId.ofMember, withArguments, TypeShape.definitionText_withArguments]

theorem ofTypeDefinition_withArguments :
    DocId.ofTypeDefinition (m.withArguments others).parent = DocId.ofTypeDefinition m.parent := by
  simp only [DocId.ofTypeDefinition, withArguments, TypeShape.definitionText_withArguments]

theorem memberCandidates_withArguments (a : Assembly) (definedIn : Identity) :
    Finder.memberCandidates a (m.withArguments others) definedIn =
      Finder.memberCandidates a m definedIn := by
  have primitive : (m.withArguments others).parent.isPrimitive = m.parent.isPrimitive :=
    m.parent.isPrimitive_withArguments others
  simp only [Finder.memberCandidates, ofMember_withArguments, ofTypeDefinition_withArguments, primitive]

end MemberShape

def MethodSig.declared (m : MethodSig) : MethodSig := { m with varargs := [] }

namespace Assembly

variable {a : Assembly} {m n : MethodSig}

theorem methodShape_declared (a : Assembly) (m : MethodSig) :
    a.methodShape m.declared = a.methodShape m := rfl

theorem memberKind_of_declared_eq (same : m.declared = n.declared) :
    a.memberKind (.method m) = a.memberKind (.method n) := by
  simp only [memberKind]
  rw [← methodShape_declared a m, same, methodShape_declared a n]

theorem memberShape_of_declared_eq {row other : Nat} {entry otherEntry : MemberRef}
    (found : a.memberRef? row = some entry) (foundOther : a.memberRef? other = some otherEntry)
    (name : entry.name = otherEntry.name) (parent : entry.parent = otherEntry.parent)
    (read : MemberSig.ofBlob entry.signature = .ok (.method m))
    (readOther : MemberSig.ofBlob otherEntry.signature = .ok (.method n))
    (same : m.declared = n.declared) : a.memberShape row = a.memberShape other := by
  have kind : a.memberKind (.method m) = a.memberKind (.method n) := memberKind_of_declared_eq same
  rw [memberShape, memberShape, found, foundOther]
  simp only [name, parent, read, readOther]
  split
  · refine bind_congr fun shape => ?_
    simp only [bind, Except.bind, kind]
  · rfl

end Assembly

/-- What a call adds to a member leaves no trace in its key: the arguments of the instance that declares
it change none of its identifiers, its defining assembly and what the finder makes of it, and two
references that differ in the parameters after the sentinel alone have one shape or fail alike. -/
theorem MemberShape.key_of_calls :
    (∀ (m : MemberShape) (others : List TypeShape),
      DocId.ofMember (m.withArguments others) = DocId.ofMember m ∧
        DocId.ofTypeDefinition (m.withArguments others).parent = DocId.ofTypeDefinition m.parent ∧
        (m.withArguments others).parent.assembly? = m.parent.assembly? ∧
        (m.withArguments others).parent.isPrimitive = m.parent.isPrimitive ∧
        ∀ a definedIn, Finder.memberCandidates a (m.withArguments others) definedIn =
          Finder.memberCandidates a m definedIn) ∧
      ∀ (a : Assembly) (row other : Nat) (entry otherEntry : MemberRef) (m n : MethodSig),
        a.memberRef? row = some entry → a.memberRef? other = some otherEntry →
        entry.name = otherEntry.name → entry.parent = otherEntry.parent →
        MemberSig.ofBlob entry.signature = .ok (.method m) →
        MemberSig.ofBlob otherEntry.signature = .ok (.method n) →
        m.declared = n.declared → a.memberShape row = a.memberShape other := by
  refine ⟨fun m others => ⟨?_, ?_, ?_, ?_, ?_⟩, ?_⟩
  · exact ofMember_withArguments others m
  · exact ofTypeDefinition_withArguments others m
  · exact m.parent.assembly?_withArguments others
  · exact m.parent.isPrimitive_withArguments others
  · exact memberCandidates_withArguments others m
  · intro a row other entry otherEntry m n found foundOther name parent read readOther same
    exact Assembly.memberShape_of_declared_eq found foundOther name parent read readOther same

/-- An assembly that calls `Write` once with a number and once with a type that is not there. -/
def twiceWriting : Assembly where
  identity := .make "App" .zero none none
  framework := ""
  fileVersion := ""
  assemblyRefs := #[]
  typeRefs := #[some ⟨"System", "Console", ⟨.module, 1⟩⟩]
  typeDefs := #[]
  typeSpecs := #[]
  memberRefs := #[some ⟨"Write", ⟨.typeRef, 1⟩, ⟨#[0x05, 2, 0x01, 0x0E, 0x41, 0x08]⟩⟩,
    some ⟨"Write", ⟨.typeRef, 1⟩, ⟨#[0x05, 2, 0x01, 0x0E, 0x41, 0x12, 0x15]⟩⟩]
  nesting := []

def addToNumbers : MemberShape where
  parent := .generic ⟨"System", ["List`1"], none, false⟩ [.named (.primitive "Int32")]
  name := "Add"
  kind := .method ⟨0, [.param 0 false], .named (.primitive "Void"), false⟩

theorem MemberShape.key_of_calls_writing :
    DocId.ofMember (addToNumbers.withArguments [.named (.primitive "String")]) =
        DocId.ofMember addToNumbers ∧
      (twiceWriting.tokenShape (.ofParts .typeRef 5)).toOption.isNone = true ∧
      (twiceWriting.memberShape 1).toOption.isSome = true ∧
      twiceWriting.memberShape 1 = twiceWriting.memberShape 2 := by
  let kind : CallKind := ⟨false, false, true, 0⟩
  have read : MemberSig.ofBlob ⟨#[0x05, 2, 0x01, 0x0E, 0x41, 0x08]⟩ =
      .ok (.method ⟨kind, .plain .void, [.plain .string], [.plain .int32]⟩) := rfl
  have readOther : MemberSig.ofBlob ⟨#[0x05, 2, 0x01, 0x0E, 0x41, 0x12, 0x15]⟩ =
      .ok (.method ⟨kind, .plain .void, [.plain .string], [.classType (.ofParts .typeRef 5)]⟩) := rfl
  refine ⟨(key_of_calls.1 addToNumbers _).1, by decide +kernel, by decide +kernel, ?_⟩
  exact key_of_calls.2 twiceWriting 1 2 _ _ _ _ rfl rfl rfl rfl read readOther rfl

end FrameworkAudit
