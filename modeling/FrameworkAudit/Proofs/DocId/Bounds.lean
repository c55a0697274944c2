import FrameworkAudit.Proofs.DocId.Wrapping
import FrameworkAudit.Proofs.Text
import Mathlib

/-!
The bounds of arrays in identifiers. A dimension is written with a colon as soon as one of its bounds
is recorded, and numbers have neither colons nor commas, so the dimensions of an array are read back
from its suffix, one by one. Methods of which one parameter differs in the dimensions of one array have
different identifiers.
-/

set_option autoImplicit false

namespace FrameworkAudit

namespace Text

theorem mem_toString_int {i : Int} {c : Char} (h : c ∈ (toString i).toList) :
    c.isDigit = true ∨ c = '-' := by
  have digits {n : Nat} (h : c ∈ n.repr.toList) : c.isDigit = true :=
    isDigit_of_mem_toDigits c (by simpa using h)
  rw [Int.toString_eq_repr, Int.repr_eq_if] at h
  split at h
  · exact .inl (digits h)
  · rw [String.toList_append, List.mem_append] at h
    rcases h with sign | h
    · exact .inr (by simpa using sign)
    · exact .inl (digits h)

theorem toString_int_ne_empty (i : Int) : toString i ≠ "" := by
  have digits (n : Nat) : n.repr ≠ "" := by
    rw [ne_eq, ← String.toList_inj, Nat.toList_repr]
    exact Nat.toDigits_ne_nil
  rw [Int.toString_eq_repr, Int.repr_eq_if]
  split
  · exact digits _
  · simp

theorem toString_int_injective : Function.Injective (toString : Int → String) :=
  fun _ _ h => Int.repr_injective (by simpa only [Int.toString_eq_repr] using h)

theorem getD_map_injective {α : Type} {text : α → String} (inj : Function.Injective text)
    (filled : ∀ a, text a ≠ "") :
    Function.Injective fun value? : Option α => (value?.map text).getD "" := by
  intro a? b? h
  cases a? with
  | none =>
    cases b? with
    | none => rfl
    | some b => exact absurd h.symm (filled b)
  | some a =>
    cases b? with
    | none => exact absurd h (filled a)
    | some b => exact congrArg some (inj h)

theorem count_intercalate {sep : Char} {parts : List (List Char)}
    (apart : ∀ part ∈ parts, sep ∉ part) : ([sep].intercalate parts).count sep = parts.length - 1 := by
  induction parts with
  | nil => rfl
  | cons part parts ih =>
    obtain ⟨first, others⟩ := List.forall_mem_cons.1 apart
    have own := List.count_eq_zero_of_not_mem first
    cases parts with
    | nil => simpa using own
    | cons next parts =>
      rw [List.intercalate_cons_cons, List.count_append, List.count_append, own, ih others]
      simp [Nat.add_comm]

theorem exists_around_intercalate (sep : String) (before after : List String) :
    ∃ front back : String, ∀ field,
      sep.intercalate (before ++ field :: after) = front ++ field ++ back := by
  have last : ∃ back : String, ∀ field, sep.intercalate (field :: after) = field ++ back := by
    cases after with
    | nil => exact ⟨"", fun field => by simp⟩
    | cons next rest =>
      exact ⟨sep ++ sep.intercalate (next :: rest), fun field => by
        rw [String.intercalate_cons_cons, String.append_assoc]⟩
  obtain ⟨back, last⟩ := last
  cases before with
  | nil => exact ⟨"", back, fun field => by simp [last]⟩
  | cons first rest =>
    refine ⟨sep.intercalate (first :: rest) ++ sep, back, fun field => ?_⟩
    rw [String.intercalate_append_of_ne_nil (List.cons_ne_nil _ _) (List.cons_ne_nil _ _), last,
      String.append_assoc, String.append_assoc, String.append_assoc]

end Text

namespace Dimension

def lowerText (d : Dimension) : String := (d.lower?.map toString).getD ""

def upperText (d : Dimension) : String :=
  (d.size?.map fun (size : Nat) => toString (d.lower?.getD 0 + (size : Int) - 1)).getD ""

variable {d e : Dimension}

theorem mem_lowerText {c : Char} (h : c ∈ d.lowerText.toList) : c.isDigit = true ∨ c = '-' := by
  unfold lowerText at h
  cases lower : d.lower? with
  | none => simp [lower] at h
  | some i => exact Text.mem_toString_int (i := i) (by simpa [lower] using h)

theorem mem_upperText {c : Char} (h : c ∈ d.upperText.toList) : c.isDigit = true ∨ c = '-' := by
  unfold upperText at h
  cases size : d.size? with
  | none => simp [size] at h
  | some n => exact Text.mem_toString_int (by simpa [size] using h)

theorem cut_text (d : Dimension) :
    Text.cut ':' d.text =
      if d.size?.isNone ∧ d.lower?.isNone then none else some (d.lowerText, d.upperText) := by
  unfold text
  split
  · decide
  · rw [Text.cut_eq_some_iff]
    refine ⟨by simp [lowerText, upperText], fun colon => ?_⟩
    have other := mem_lowerText colon
    revert other
    decide

theorem lower?_eq_of_text (h : d.lowerText = e.lowerText) : d.lower? = e.lower? :=
  Text.getD_map_injective Text.toString_int_injective Text.toString_int_ne_empty h

theorem size?_eq_of_text (lower : d.lower? = e.lower?) (h : d.upperText = e.upperText) :
    d.size? = e.size? := by
  unfold upperText at h
  rw [lower] at h
  refine Text.getD_map_injective (fun m n same => ?_) (fun n => Text.toString_int_ne_empty _) h
  have upper := Text.toString_int_injective same
  omega

theorem text_injective : Function.Injective text := by
  intro d e h
  have halves := congrArg (Text.cut ':') h
  rw [cut_text, cut_text] at halves
  split at halves
  · rename_i none
    split at halves
    · rename_i none'
      cases d
      cases e
      simp_all
    · cases halves
  · split at halves
    · cases halves
    · obtain ⟨lower, upper⟩ := Prod.mk.inj (Option.some.inj halves)
      have lowers := lower?_eq_of_text lower
      have sizes := size?_eq_of_text lowers upper
      cases d
      cases e
      exact congr (congrArg Dimension.mk sizes) lowers

theorem comma_not_mem_text (d : Dimension) : ',' ∉ d.text.toList := by
  have other {c : Char} (h : c.isDigit = true ∨ c = '-') : c ≠ ',' := by
    rintro rfl
    revert h
    decide
  unfold text
  split
  · simp
  · intro comma
    simp only [String.toList_append, List.mem_append] at comma
    rcases comma with (lower | colon) | upper
    · exact other (mem_lowerText lower) rfl
    · simp at colon
    · exact other (mem_upperText upper) rfl

end Dimension

namespace TypeShape

variable {dims others : List Dimension}

theorem fields_of_dimensions (some : dims ≠ []) :
    Text.fields ',' (",".intercalate (dims.map Dimension.text)) = dims.map Dimension.text := by
  refine Text.fields_eq_iff.2 ⟨rfl, by simpa using some, ?_⟩
  intro field hf
  obtain ⟨d, -, rfl⟩ := List.mem_map.1 hf
  exact d.comma_not_mem_text

theorem arraySuffix_eq_iff (h : dims ≠ []) (h' : others ≠ []) :
    arraySuffix (some dims) = arraySuffix (some others) ↔ dims = others := by
  refine ⟨fun same => ?_, fun same => same ▸ rfl⟩
  have inner : ",".intercalate (dims.map Dimension.text) =
      ",".intercalate (others.map Dimension.text) :=
    (String.append_right_inj "[").1 ((String.append_left_inj "]").1 same)
  have parts := congrArg (Text.fields ',') inner
  rw [fields_of_dimensions h, fields_of_dimensions h'] at parts
  exact List.map_injective_iff.2 Dimension.text_injective parts

theorem count_comma_arraySuffix (dims : List Dimension) :
    (arraySuffix (some dims)).toList.count ',' = dims.length - 1 := by
  have apart : ∀ field ∈ dims.map (String.toList ∘ Dimension.text), ',' ∉ field := by
    intro field hf
    obtain ⟨d, -, rfl⟩ := List.mem_map.1 hf
    exact d.comma_not_mem_text
  simpa [arraySuffix, String.toList_intercalate] using Text.count_intercalate apart

/-- An array among the wrappers of a type gives one of its array layers, and the other parts do not
depend on its dimensions. -/
theorem exists_layers_array (outer : List Wrapper) (element : TypeShape) :
    ∃ (l : Layers) (before after : List String), ∀ dimensions?,
      (wrapAll outer (.array element dimensions?)).layers false =
        { l with arrays := before ++ arraySuffix dimensions? :: after } := by
  induction outer with
  | nil => exact ⟨element.layers false, (element.layers false).arrays, [], fun _ => by
      simp [wrapAll, layers, Layers.addArray]⟩
  | cons w outer ih =>
    obtain ⟨l, before, after, parts⟩ := ih
    have wrapped (dimensions? : Option (List Dimension)) :
        (wrapAll (w :: outer) (.array element dimensions?)).layers false =
          Layers.add { l with arrays := before ++ arraySuffix dimensions? :: after } w := by
      rw [← parts, ← layers_wrap]
      rfl
    cases w with
    | array other =>
      exact ⟨l, before, after ++ [arraySuffix other], fun _ => by
        simp [wrapped, Layers.add, Layers.addArray]⟩
    | modifier type required => exact ⟨l.addModifier required type.text, before, after, wrapped⟩
    | pointer => exact ⟨l.addPointer, before, after, wrapped⟩
    | byRef => exact ⟨l.addByRef, before, after, wrapped⟩

theorem exists_around_arraySuffix (outer : List Wrapper) (element : TypeShape) :
    ∃ front back : String, ∀ dimensions?,
      (wrapAll outer (.array element dimensions?)).text =
        front ++ arraySuffix dimensions? ++ back := by
  obtain ⟨l, before, after, parts⟩ := exists_layers_array outer element
  refine ⟨l.core ++ String.join before, String.join after ++ String.join l.modifiers ++
    String.ofList (List.replicate l.pointers '*') ++ String.ofList (List.replicate l.byRefs '@'),
    fun dimensions? => ?_⟩
  rw [text, parts]
  simp [Layers.text, String.append_assoc]

end TypeShape

open TypeShape

/-- One parameter may be replaced in the identifier of a method, and what is around it stays. -/
theorem MemberShape.exists_around_param (parent : TypeShape) (name : String) (f : MethodShape)
    (before after : List TypeShape) : ∃ front back : String, ∀ p,
      DocId.ofMember ⟨parent, name, .method { f with params := before ++ p :: after }⟩ =
        front ++ p.text ++ back := by
  obtain ⟨first, last, listed⟩ :=
    Text.exists_around_intercalate "," (before.map text) (after.map text)
  have further (p : TypeShape) : isConversion name { f with params := before ++ p :: after } =
      isConversion name { f with params := before ++ f.result :: after } := by
    simp [isConversion]
  refine ⟨DocId.mark .method ++ (parent.definitionText ++ "." ++ nameText name) ++
      ((if f.typeParams = 0 then "" else "``" ++ toString f.typeParams) ++ "(" ++ first),
    last ++ (if f.vararg then ",__arglist" else "") ++ ")" ++
      (if isConversion name { f with params := before ++ f.result :: after } then
        "~" ++ f.result.text else ""), fun p => ?_⟩
  have some : (before ++ p :: after).isEmpty = false := by simp
  simp only [DocId.ofMember, methodSuffix, further, some, Bool.false_eq_true, false_and, if_false,
    paramList, List.map_append, List.map_cons, listed, String.append_assoc]

/-- The dimensions of an array that has some are known by its suffix, which has a comma between any two
of them. Methods that agree but for the dimensions of one array, anywhere among the wrappers of one of
their parameters, have different identifiers. -/
theorem DocId.dimensions_recoverable :
    (∀ dims others : List Dimension, dims ≠ [] → others ≠ [] →
      (arraySuffix (some dims) = arraySuffix (some others) ↔ dims = others)) ∧
    (∀ dims : List Dimension, dims ≠ [] →
      (arraySuffix (some dims)).toList.count ',' = dims.length - 1) ∧
    ∀ (parent : TypeShape) (name : String) (f : MethodShape) (before after : List TypeShape)
      (outer : List Wrapper) (element : TypeShape) (dims others : List Dimension),
      dims ≠ [] → others ≠ [] → dims ≠ others →
      let withDimensions (dims : List Dimension) : MemberShape :=
        ⟨parent, name, .method
          { f with params := before ++ wrapAll outer (.array element (some dims)) :: after }⟩
      ofMember (withDimensions dims) ≠ ofMember (withDimensions others) := by
  refine ⟨fun dims others => arraySuffix_eq_iff, fun dims _ => count_comma_arraySuffix dims, ?_⟩
  intro parent name f before after outer element dims others h h' differ withDimensions same
  obtain ⟨front, back, identifier⟩ := MemberShape.exists_around_param parent name f before after
  obtain ⟨inside, outside, type⟩ := exists_around_arraySuffix outer element
  simp only [withDimensions, identifier, type] at same
  have types := (String.append_right_inj front).1 ((String.append_left_inj back).1 same)
  have suffixes := (String.append_right_inj inside).1 ((String.append_left_inj outside).1 types)
  exact differ ((arraySuffix_eq_iff h h').1 suffixes)

/-- A method with a reference to an array of two dimensions, of which the first begins below zero. -/
def belowZero (size : Nat) : MemberShape :=
  ⟨.param 0 false, "F", .method ⟨0, [.byRef (.array (.named (.primitive "Int32"))
    (some [⟨some size, some (-1)⟩, ⟨none, some 0⟩]))], .param 0 false, false⟩⟩

/-- The sizes of the first dimension are told apart by its upper bound. -/
theorem DocId.dimensions_recoverable_belowZero :
    ofMember (belowZero 5) = "M:`0.F(System.Int32[-1:3,0:]@)" ∧
      [⟨some 5, some (-1)⟩, ⟨none, some 0⟩] ≠ ([⟨some 4, some (-1)⟩, ⟨none, some 0⟩] : List Dimension) ∧
      ofMember (belowZero 5) ≠ ofMember (belowZero 4) ∧
      (arraySuffix (some [⟨some 5, some (-1)⟩, ⟨none, some 0⟩])).toList.count ',' = 1 := by
  obtain ⟨-, commas, members⟩ := dimensions_recoverable
  have differ : [⟨some 5, some (-1)⟩, ⟨none, some 0⟩] ≠
      ([⟨some 4, some (-1)⟩, ⟨none, some 0⟩] : List Dimension) := by decide
  have apart := members (.param 0 false) "F" ⟨0, [], .param 0 false, false⟩ [] [] [.byRef]
    (.named (.primitive "Int32")) _ _ (List.cons_ne_nil _ _) (List.cons_ne_nil _ _) differ
  exact ⟨by decide +kernel, differ, apart, commas _ (List.cons_ne_nil _ _)⟩

end FrameworkAudit
