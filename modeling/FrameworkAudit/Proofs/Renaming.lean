import FrameworkAudit.DocId
import FrameworkAudit.Shape.Resolve

/-!
Assemblies under other names. Where a function changes the identities that an assembly holds, its
own and those of its references, the same rows resolve to the same types and members, defined by the
changed assemblies; identifiers do not show where a type is defined.
-/

set_option autoImplicit false

namespace FrameworkAudit

variable (g : Identity → Identity)

def NamedType.renamed (t : NamedType) : NamedType := { t with assembly? := t.assembly?.map g }

theorem NamedType.renamed_nested (t : NamedType) (name : String) :
    (t.nested name).renamed g = (t.renamed g).nested name := rfl

namespace TypeShape

mutual

def renamed : TypeShape → TypeShape
  | named type => named (type.renamed g)
  | generic definition arguments => generic (definition.renamed g) (renamedAll arguments)
  | param index ofMethod => param index ofMethod
  | array element dimensions? => array (renamed element) dimensions?
  | pointer target => pointer (renamed target)
  | byRef target => byRef (renamed target)
  | modified base modifier required => modified (renamed base) (renamed modifier) required
  | function result params => function (renamed result) (renamedAll params)

def renamedAll : List TypeShape → List TypeShape
  | [] => []
  | shape :: rest => renamed shape :: renamedAll rest

end

theorem core?_renamed : ∀ t : TypeShape, (t.renamed g).core? = t.core?.map (NamedType.renamed g)
  | named _ | generic _ _ | param _ _ | function _ _ => rfl
  | array element _ => core?_renamed element
  | pointer target | byRef target => core?_renamed target
  | modified base _ _ => core?_renamed base

theorem isPrimitive_renamed (t : TypeShape) : (t.renamed g).isPrimitive = t.isPrimitive := by
  rw [isPrimitive, isPrimitive, core?_renamed]
  cases t.core? <;> rfl

theorem assembly?_renamed (t : TypeShape) : (t.renamed g).assembly? = t.assembly?.map g := by
  rw [assembly?, assembly?, core?_renamed]
  cases t.core? <;> rfl

mutual

theorem layers_renamed (definition : Bool) :
    ∀ t : TypeShape, (t.renamed g).layers definition = t.layers definition
  | named _ | param _ _ => rfl
  | generic type arguments => by
    rw [renamed, layers, layers, texts_renamed arguments, NamedType.renamed]
  | array element _ => by rw [renamed, layers, layers, layers_renamed definition element]
  | pointer target => by rw [renamed, layers, layers, layers_renamed definition target]
  | byRef target => by rw [renamed, layers, layers, layers_renamed definition target]
  | modified base modifier _ => by
    rw [renamed, layers, layers, layers_renamed definition base, layers_renamed false modifier]
  | function result params => by
    have none : (renamedAll g params).isEmpty = params.isEmpty := by cases params <;> rfl
    rw [renamed, layers, layers, layers_renamed false result, texts_renamed params, none]

theorem texts_renamed : ∀ shapes : List TypeShape, texts (renamedAll g shapes) = texts shapes
  | [] => rfl
  | shape :: rest => by
    rw [renamedAll, texts, texts, layers_renamed false shape, texts_renamed rest]

end

mutual

theorem isWritable_renamed (definition : Bool) :
    ∀ t : TypeShape, (t.renamed g).isWritable definition = t.isWritable definition
  | named _ | param _ _ => rfl
  | generic type arguments => by
    rw [renamed, isWritable, isWritable, writable_renamed arguments, NamedType.renamed]
  | array element _ => by
    rw [renamed, isWritable, isWritable, isWritable_renamed definition element]
  | pointer target => by
    rw [renamed, isWritable, isWritable, isWritable_renamed definition target]
  | byRef target => by
    rw [renamed, isWritable, isWritable, isWritable_renamed definition target]
  | modified base modifier _ => by
    rw [renamed, isWritable, isWritable, isWritable_renamed definition base,
      isWritable_renamed false modifier]
  | function result params => by
    rw [renamed, isWritable, isWritable, isWritable_renamed false result, writable_renamed params]

theorem writable_renamed : ∀ shapes : List TypeShape,
    writable (renamedAll g shapes) = writable shapes
  | [] => rfl
  | shape :: rest => by
    rw [renamedAll, writable, writable, isWritable_renamed false shape, writable_renamed rest]

end

theorem text_renamed (t : TypeShape) : (t.renamed g).text = t.text := by
  rw [text, text, layers_renamed]

theorem definitionText_renamed (t : TypeShape) :
    (t.renamed g).definitionText = t.definitionText := by
  rw [definitionText, definitionText, layers_renamed]

end TypeShape

def MethodShape.renamed (m : MethodShape) : MethodShape :=
  { m with params := m.params.map (TypeShape.renamed g), result := m.result.renamed g }

def MemberKind.renamed : MemberKind → MemberKind
  | method m => method (m.renamed g)
  | field type => field (type.renamed g)

def MemberShape.renamed (m : MemberShape) : MemberShape :=
  { m with parent := m.parent.renamed g, kind := m.kind.renamed g }

theorem MemberShape.methodSuffix_renamed (name : String) (m : MethodShape) :
    methodSuffix name (m.renamed g) = methodSuffix name m := by
  simp [methodSuffix, isConversion, MethodShape.renamed, TypeShape.text_renamed, Function.comp_def]

theorem MemberShape.isWritable_renamed (m : MemberShape) :
    (m.renamed g).isWritable = m.isWritable := by
  unfold isWritable renamed
  rw [TypeShape.isWritable_renamed]
  cases m.kind with
  | method method =>
    simp [MemberKind.renamed, MethodShape.renamed, isConversion, TypeShape.isWritable_renamed,
      List.all_map, Function.comp_def]
  | field type => rfl

theorem DocId.ofMember_renamed (m : MemberShape) : ofMember (m.renamed g) = ofMember m := by
  unfold ofMember MemberShape.renamed
  rw [TypeShape.definitionText_renamed]
  cases m.kind with
  | method method => simp only [MemberKind.renamed, MemberShape.methodSuffix_renamed]
  | field type => rfl

theorem DocId.ofTypeDefinition_renamed (t : TypeShape) :
    ofTypeDefinition (t.renamed g) = ofTypeDefinition t := by
  rw [ofTypeDefinition, ofTypeDefinition, TypeShape.definitionText_renamed]

namespace TypeSig

variable {g} {token renamedToken : Token → Except Error TypeShape}

mutual

theorem shapeWith_renamed (h : ∀ t, renamedToken t = TypeShape.renamed g <$> token t) :
    ∀ sig : TypeSig, sig.shapeWith renamedToken = TypeShape.renamed g <$> sig.shapeWith token
  | plain _ | typeParam _ | methodParam _ => rfl
  | valueType t | classType t => h t
  | pinned target => shapeWith_renamed h target
  | pointer target | byRef target | vector target | array target _ _ => by
    simp [shapeWith, shapeWith_renamed h target, TypeShape.renamed]
  | modified _ modifier base => by
    simp [shapeWith, shapeWith_renamed h base, h modifier, TypeShape.renamed]
  | function _ result params _ => by
    simp [shapeWith, shapeWith_renamed h result, shapesWith_renamed h params, TypeShape.renamed]
  | generic base arguments => by
    rw [shapeWith, shapeWith, shapeWith_renamed h base, bind_map_left, map_bind]
    refine bind_congr fun shape => ?_
    cases shape with
    | named definition => simp [shapesWith_renamed h arguments, TypeShape.renamed]
    | _ => rfl

theorem shapesWith_renamed (h : ∀ t, renamedToken t = TypeShape.renamed g <$> token t) :
    ∀ sigs : List TypeSig, shapesWith renamedToken sigs =
      TypeShape.renamedAll g <$> shapesWith token sigs
  | [] => rfl
  | sig :: rest => by
    simp [shapesWith, shapeWith_renamed h sig, shapesWith_renamed h rest, TypeShape.renamedAll]

end

end TypeSig

namespace Assembly

def renamed (a : Assembly) : Assembly :=
  { a with identity := g a.identity, assemblyRefs := a.assemblyRefs.map (Option.map g) }

variable (a : Assembly)

@[simp] theorem typeRef?_renamed (row : Nat) : (a.renamed g).typeRef? row = a.typeRef? row := rfl

@[simp] theorem typeDef?_renamed (row : Nat) : (a.renamed g).typeDef? row = a.typeDef? row := rfl

@[simp] theorem typeSpec?_renamed (row : Nat) : (a.renamed g).typeSpec? row = a.typeSpec? row := rfl

@[simp] theorem memberRef?_renamed (row : Nat) :
    (a.renamed g).memberRef? row = a.memberRef? row := rfl

@[simp] theorem enclosing?_renamed (row : Nat) :
    (a.renamed g).enclosing? row = a.enclosing? row := rfl

theorem assemblyRef?_renamed (row : Nat) :
    (a.renamed g).assemblyRef? row = (a.assemblyRef? row).map g := by
  cases row with
  | zero => rfl
  | succ row =>
    simp only [assemblyRef?, rowOf, renamed, Array.getElem?_map]
    cases a.assemblyRefs[row]? <;> rfl

theorem references_renamed : (a.renamed g).references = a.references.map g := by
  rw [references, renamed, Array.toList_map, List.filterMap_map, references, List.map_filterMap]
  rfl

theorem typeRefChain_renamed (room row : Nat) :
    (a.renamed g).typeRefChain room row = NamedType.renamed g <$> a.typeRefChain room row := by
  induction room generalizing row with
  | zero => rfl
  | succ room ih =>
    rw [typeRefChain, typeRefChain, typeRef?_renamed]
    cases a.typeRef? row with
    | none => rfl
    | some entry =>
      dsimp only
      cases entry.scope.table with
      | typeRef =>
        dsimp only
        split
        · rfl
        · simp [ih, NamedType.renamed_nested]
      | assemblyRef =>
        dsimp only
        rw [assemblyRef?_renamed]
        cases a.assemblyRef? entry.scope.row <;> rfl
      | _ => rfl

theorem typeDefChain_renamed (room row : Nat) :
    (a.renamed g).typeDefChain room row = NamedType.renamed g <$> a.typeDefChain room row := by
  induction room generalizing row with
  | zero => rfl
  | succ room ih =>
    rw [typeDefChain, typeDefChain, typeDef?_renamed]
    cases a.typeDef? row with
    | none => rfl
    | some entry =>
      dsimp only
      rw [enclosing?_renamed]
      cases a.enclosing? row with
      | none => rfl
      | some outer => simp [ih, NamedType.renamed_nested]

theorem tokenWithin_renamed (hops : Nat) (token : Token) :
    (a.renamed g).tokenWithin hops token = TypeShape.renamed g <$> a.tokenWithin hops token := by
  induction hops generalizing token with
  | zero => rfl
  | succ hops ih =>
    rw [tokenWithin, tokenWithin]
    split
    · simp [typeRefShape, typeRefChain_renamed, TypeShape.renamed]
    · simp [typeDefShape, typeDefChain_renamed, TypeShape.renamed]
    · rw [typeSpec?_renamed]
      cases a.typeSpec? token.row with
      | none => rfl
      | some blob => simp [TypeSig.shapeWith_renamed ih]
    · rfl

theorem signatureShape_renamed (sig : TypeSig) :
    (a.renamed g).signatureShape sig = TypeShape.renamed g <$> a.signatureShape sig :=
  sig.shapeWith_renamed (tokenWithin_renamed g a _)

theorem memberKind_renamed (sig : MemberSig) :
    (a.renamed g).memberKind sig = MemberKind.renamed g <$> a.memberKind sig := by
  cases sig with
  | method m =>
    have params : m.params.mapM (a.renamed g).signatureShape =
        List.map (TypeShape.renamed g) <$> m.params.mapM a.signatureShape := by
      induction m.params with
      | nil => rfl
      | cons sig rest ih => simp [signatureShape_renamed, ih]
    simp [memberKind, methodShape, params, signatureShape_renamed, MemberKind.renamed,
      MethodShape.renamed]
  | field type => simp [memberKind, signatureShape_renamed, MemberKind.renamed]

theorem memberShape_renamed (row : Nat) :
    (a.renamed g).memberShape row = Option.map (MemberShape.renamed g) <$> a.memberShape row := by
  rw [memberShape, memberShape, memberRef?_renamed]
  cases a.memberRef? row with
  | none => rfl
  | some entry =>
    dsimp only
    split
    · simp [tokenShape, tokenShapeAt, tokenWithin_renamed, memberKind_renamed, MemberShape.renamed]
    · rfl

end Assembly

end FrameworkAudit
