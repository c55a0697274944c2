import FrameworkAudit.Proofs.DocId
import FrameworkAudit.Proofs.DocId.Balanced

/-!
The parameters in the identifier of a method. They can be read back from it, one by one, if the
names of their types have neither brackets nor commas. Methods that agree otherwise therefore have
different identifiers if their parameters are written differently. One case is out of reach: a list
for further arguments looks the same after no parameter as after one of which nothing is written.
-/

set_option autoImplicit false

namespace FrameworkAudit.MemberShape

open TypeShape

def firstList (text : List Char) : Option (List (List Char) × List Char) :=
  match text.dropWhile (· ≠ '(') with
  | [] => none
  | _ :: rest => Text.readList 0 rest

def listText (f : MethodShape) : String :=
  if f.params.isEmpty ∧ f.vararg = false then "" else paramList (f.params.map text) f.vararg

def fields (f : MethodShape) : List (List Char) :=
  (listFields (f.params.map text) f.vararg).map String.toList

def conversionText (name : String) (f : MethodShape) : String :=
  if isConversion name f then "~" ++ f.result.text else ""

def HasPlainParams (f : MethodShape) : Prop :=
  ∀ p ∈ f.params, ∀ n ∈ p.namedTypes, n.HasPlainNames

instance (f : MethodShape) : Decidable (HasPlainParams f) :=
  inferInstanceAs (Decidable (∀ p ∈ f.params, _))

/-- One method has no parameter where the other has one of which nothing is written. -/
def Hides (f g : MethodShape) : Prop := f.params = [] ∧ g.params.map text = [""]

variable {name : String} {f g : MethodShape}

theorem methodSuffix_eq : methodSuffix name f =
    arityText f.typeParams ++ (listText f ++ conversionText name f) := by
  simp [methodSuffix, arityText, listText, conversionText, String.append_assoc]

theorem isBalanced_fields (h : HasPlainParams f) :
    ∀ field ∈ fields f, Text.Balanced false field := by
  intro field hf
  obtain ⟨s, hs, rfl⟩ := List.mem_map.1 hf
  refine isBalanced_listFields (fun s hs => ?_) f.vararg s hs
  obtain ⟨p, hp, rfl⟩ := List.mem_map.1 hs
  exact isBalanced_text (h p hp)

theorem listText_of_bare (h : f.params = [] ∧ f.vararg = false) : listText f = "" := by
  simp [listText, h]

theorem toList_listText (h : ¬ (f.params = [] ∧ f.vararg = false)) (rest : List Char) :
    (listText f).toList ++ rest = '(' :: ([','].intercalate (fields f) ++ ')' :: rest) := by
  rw [listText, if_neg (by simpa using h), paramList_eq]
  simp [String.toList_intercalate, fields]

theorem readList_fields (h : HasPlainParams f) (rest : List Char) :
    Text.readList 0 ([','].intercalate (fields f) ++ ')' :: rest) = some (fields f, rest) := by
  refine Text.readList_intercalate (isBalanced_fields h) ?_ rfl rest
  unfold fields
  cases f.params <;> simp [listFields]

theorem firstList_suffix (h : HasPlainParams f) (hp : f.params ≠ []) (hn : '(' ∉ name.toList) :
    firstList ((nameText name).toList ++ (methodSuffix name f).toList) =
      some (fields f, (conversionText name f).toList) := by
  have before : ∀ c ∈ (nameText name).toList ++ (arityText f.typeParams).toList,
      decide (c ≠ '(') = true := by
    intro c hc
    rw [decide_eq_true_iff]
    rcases List.mem_append.1 hc with hc | hc
    · rintro rfl
      exact paren_not_mem_nameText hn hc
    · exact (mem_arityText hc).2
  rw [methodSuffix_eq, String.toList_append, String.toList_append, ← List.append_assoc,
    toList_listText (fun bare => hp bare.1), firstList, List.dropWhile_append_of_pos before]
  exact readList_fields h _

theorem ofMember_eq_iff {parent : TypeShape} (ht : f.typeParams = g.typeParams) :
    DocId.ofMember ⟨parent, name, .method f⟩ = DocId.ofMember ⟨parent, name, .method g⟩ ↔
      listText f ++ conversionText name f = listText g ++ conversionText name g := by
  simp [DocId.ofMember, methodSuffix_eq, ht, String.append_right_inj]

theorem isConversion_of_length (h : f.params.length = g.params.length) :
    isConversion name f = isConversion name g := by
  rw [isConversion, isConversion, h]

theorem conversionText_eq_iff (h : f.params.length = g.params.length) :
    conversionText name f = conversionText name g ↔
      (isConversion name f = true → f.result.text = g.result.text) := by
  rw [conversionText, conversionText, ← isConversion_of_length h]
  cases isConversion name f <;> simp [String.append_right_inj]

theorem listFields_eq_iff {ps qs : List String} {vararg : Bool} :
    listFields ps vararg = listFields qs vararg ↔
      ps = qs ∨ ps = [] ∧ qs = [""] ∨ qs = [] ∧ ps = [""] := by
  rw [listFields, listFields, List.append_cancel_right_eq]
  by_cases hp : ps = [] <;> by_cases hq : qs = [] <;> simp [hp, hq, eq_comm]

theorem listed_eq_iff (hf : HasPlainParams f) (hg : HasPlainParams g)
    (nf : ¬ (f.params = [] ∧ f.vararg = false)) (ng : ¬ (g.params = [] ∧ g.vararg = false)) :
    listText f ++ conversionText name f = listText g ++ conversionText name g ↔
      listFields (f.params.map text) f.vararg = listFields (g.params.map text) g.vararg ∧
        conversionText name f = conversionText name g := by
  rw [← String.toList_inj, String.toList_append, String.toList_append, toList_listText nf,
    toList_listText ng]
  constructor
  · intro same
    have read := congrArg (Text.readList 0) (List.cons.inj same).2
    rw [readList_fields hf, readList_fields hg] at read
    obtain ⟨listed, behind⟩ := Prod.mk.inj (Option.some.inj read)
    exact ⟨(List.map_inj_right fun _ _ => String.toList_injective).1 listed,
      String.toList_injective behind⟩
  · rintro ⟨listed, behind⟩
    rw [fields, fields, listed, behind]

theorem conversionText_of_no_params (name : String) (h : f.params = []) :
    conversionText name f = "" := by
  simp [conversionText, isConversion, h]

theorem bare_ne_listed (name : String) (hf : f.params = [] ∧ f.vararg = false)
    (hg : ¬ (g.params = [] ∧ g.vararg = false)) :
    listText f ++ conversionText name f ≠ listText g ++ conversionText name g := by
  intro same
  rw [listText_of_bare hf, conversionText_of_no_params name hf.1, ← String.toList_inj,
    String.toList_append, String.toList_append, toList_listText hg] at same
  simp at same

/-- Nothing follows the list without parameters; what follows the other says whether the name is one
of a conversion. -/
theorem conversionText_eq_iff_of_hides (name : String) (h : Hides f g) :
    conversionText name f = conversionText name g ↔
      name ≠ "op_Implicit" ∧ name ≠ "op_Explicit" := by
  have one : g.params.length = 1 := by simpa using congrArg List.length h.2
  rw [conversionText_of_no_params name h.1, conversionText, isConversion, one]
  by_cases hi : name = "op_Implicit" <;> by_cases he : name = "op_Explicit" <;> simp [hi, he]

/-- The texts of the parameters are the same, and those of the results too if they are written. -/
def SameTypes (name : String) (f g : MethodShape) : Prop :=
  f.params.map text = g.params.map text ∧
    (isConversion name f = true → f.result.text = g.result.text)

def Confused (name : String) (f g : MethodShape) : Prop :=
  f.vararg = true ∧ name ≠ "op_Implicit" ∧ name ≠ "op_Explicit" ∧ (Hides f g ∨ Hides g f)

theorem listed_iff (hf : HasPlainParams f) (hg : HasPlainParams g) (hv : f.vararg = g.vararg)
    (nf : ¬ (f.params = [] ∧ f.vararg = false)) (ng : ¬ (g.params = [] ∧ g.vararg = false)) :
    listText f ++ conversionText name f = listText g ++ conversionText name g ↔
      SameTypes name f g ∨ Confused name f g := by
  have behind (h : f.params.map text = g.params.map text) :
      conversionText name f = conversionText name g ↔
        (isConversion name f = true → f.result.text = g.result.text) :=
    conversionText_eq_iff (by simpa using congrArg List.length h)
  have behindLeft (h : Hides f g) := conversionText_eq_iff_of_hides name h
  have behindRight (h : Hides g f) := conversionText_eq_iff_of_hides name h
  rw [listed_eq_iff hf hg nf ng, ← hv, listFields_eq_iff]
  simp only [List.map_eq_nil_iff]
  constructor
  · rintro ⟨same | hidden | hidden, rest⟩
    · exact .inl ⟨same, (behind same).1 rest⟩
    · have further : f.vararg = true := by simpa [hidden.1] using nf
      obtain ⟨hi, he⟩ := (behindLeft hidden).1 rest
      exact .inr ⟨further, hi, he, .inl hidden⟩
    · have further : g.vararg = true := by simpa [hidden.1] using ng
      obtain ⟨hi, he⟩ := (behindRight hidden).1 rest.symm
      exact .inr ⟨hv.trans further, hi, he, .inr hidden⟩
  · rintro (⟨same, results⟩ | ⟨-, hi, he, hidden | hidden⟩)
    · exact ⟨.inl same, (behind same).2 results⟩
    · exact ⟨.inr (.inl hidden), (behindLeft hidden).2 ⟨hi, he⟩⟩
    · exact ⟨.inr (.inr hidden), ((behindRight hidden).2 ⟨hi, he⟩).symm⟩

theorem list_eq_iff (hf : HasPlainParams f) (hg : HasPlainParams g) (hv : f.vararg = g.vararg) :
    listText f ++ conversionText name f = listText g ++ conversionText name g ↔
      SameTypes name f g ∨ Confused name f g := by
  by_cases nf : f.params = [] ∧ f.vararg = false
  · by_cases ng : g.params = [] ∧ g.vararg = false
    · have same : SameTypes name f g := by simp [SameTypes, nf, ng, isConversion]
      simp [listText_of_bare, conversionText_of_no_params, nf, ng, same]
    · refine iff_of_false (bare_ne_listed name nf ng) ?_
      rintro (⟨same, -⟩ | ⟨further, -⟩)
      · exact ng ⟨by simpa [nf.1, eq_comm] using same, hv ▸ nf.2⟩
      · rw [nf.2] at further
        cases further
  · by_cases ng : g.params = [] ∧ g.vararg = false
    · refine iff_of_false (bare_ne_listed name ng nf).symm ?_
      rintro (⟨same, -⟩ | ⟨further, -⟩)
      · exact nf ⟨by simpa [ng.1] using same, hv ▸ ng.2⟩
      · rw [hv, ng.2] at further
        cases further
    · exact listed_iff hf hg hv nf ng

/-- The parameters of a method are balanced texts, which are read back from its identifier in order.
Methods of one declaring type, name, and number of type parameters, that both take further arguments
or neither, have one identifier exactly if their parameters are written alike, and the results of
conversions too, or if the only parameter of one of them is not written at all. -/
theorem params_readable (parent : TypeShape) (name : String) (f : MethodShape)
    (plain : HasPlainParams f) :
    (∀ p ∈ f.params, Text.IsBalanced p.text ∧ (p.text = "" ↔ p.IsUnwritten)) ∧
      (f.params ≠ [] → '(' ∉ name.toList → ∃ behind : List Char,
        (DocId.ofMember ⟨parent, name, .method f⟩).toList =
          ("M:" ++ parent.definitionText ++ ".").toList ++ behind ∧
        firstList behind = some
          (f.params.map (·.text.toList) ++ (if f.vararg then ["__arglist".toList] else []),
            (conversionText name f).toList)) ∧
      ∀ g : MethodShape, HasPlainParams g → f.typeParams = g.typeParams → f.vararg = g.vararg →
        (DocId.ofMember ⟨parent, name, .method f⟩ = DocId.ofMember ⟨parent, name, .method g⟩ ↔
          SameTypes name f g ∨ Confused name f g) := by
  refine ⟨fun p hp => ⟨isBalanced_text (plain p hp), text_eq_empty_iff (plain p hp)⟩, ?_, ?_⟩
  · intro hp hn
    refine ⟨(nameText name).toList ++ (methodSuffix name f).toList, ?_, ?_⟩
    · simp [DocId.ofMember, DocId.mark]
    · have listed : fields f =
          f.params.map (·.text.toList) ++ if f.vararg then ["__arglist".toList] else [] := by
        cases further : f.vararg <;> simp [fields, listFields, hp, further]
      rw [firstList_suffix plain hp hn, listed]
  · intro g hg ht hv
    rw [ofMember_eq_iff ht, list_eq_iff plain hg hv]

def nestedParams : MethodShape where
  typeParams := 0
  params := [.generic ⟨"System", ["Dictionary`2"], none, false⟩
    [.named (.primitive "String"),
      .array (.named (.primitive "Int32")) (some [⟨none, none⟩, ⟨none, none⟩])],
    .pointer (.named (.primitive "Int32"))]
  result := .named (.primitive "Void")
  vararg := true

/-- The parameters come back from the identifier, and the result leaves no trace in it. -/
theorem params_readable_nested : HasPlainParams nestedParams ∧ '(' ∉ "F".toList ∧
    (∃ behind : List Char, firstList behind = some
      (["System.Dictionary\x7bSystem.String,System.Int32[,]\x7d".toList, "System.Int32*".toList,
        "__arglist".toList], [])) ∧
    DocId.ofMember ⟨.param 0 false, "F", .method nestedParams⟩ =
      DocId.ofMember
        ⟨.param 0 false, "F", .method { nestedParams with result := .param 0 true }⟩ := by
  have plain : HasPlainParams nestedParams := by decide +kernel
  have closed : '(' ∉ "F".toList := by decide
  obtain ⟨-, read, same⟩ := params_readable (.param 0 false) "F" nestedParams plain
  obtain ⟨behind, -, fields⟩ := read (List.cons_ne_nil _ _) closed
  have value : (nestedParams.params.map (·.text.toList) ++
      (if nestedParams.vararg then ["__arglist".toList] else []),
        (conversionText "F" nestedParams).toList) =
      (["System.Dictionary\x7bSystem.String,System.Int32[,]\x7d".toList, "System.Int32*".toList,
        "__arglist".toList], []) := by
    decide +kernel
  rw [value] at fields
  have other := same { nestedParams with result := .param 0 true } plain rfl rfl
  exact ⟨plain, closed, ⟨behind, fields⟩, other.2 (.inl ⟨rfl, by decide⟩)⟩

def unwritten : TypeShape := .generic ⟨"", ["`0"], none, false⟩ []

/-- A parameter of which nothing is written is lost before further arguments. -/
theorem params_confused : (∀ n ∈ unwritten.namedTypes, n.HasPlainNames) ∧ unwritten.text = "" ∧
    DocId.ofMember ⟨.param 0 false, "F", .method ⟨0, [], .param 0 false, true⟩⟩ =
      DocId.ofMember ⟨.param 0 false, "F", .method ⟨0, [unwritten], .param 0 false, true⟩⟩ ∧
    ([] : List TypeShape).map text ≠ [unwritten].map text := by
  decide +kernel

end FrameworkAudit.MemberShape
