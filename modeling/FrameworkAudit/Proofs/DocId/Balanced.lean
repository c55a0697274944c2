import FrameworkAudit.Proofs.Brackets
import FrameworkAudit.Proofs.DocId.Nesting

/-!
The text of a type whose names have neither brackets nor commas. Its brackets match, and commas
stand only inside them, so that it can be one field of a list. Nearly always it has at least one
character.
-/

set_option autoImplicit false

namespace FrameworkAudit

open Text

/-- A type with at least one name, of which none is empty, and without brackets and commas. -/
def NamedType.HasPlainNames (t : NamedType) : Prop :=
  t.names ≠ [] ∧ (∀ name ∈ t.names, name ≠ "" ∧ IsPlainText name) ∧ IsPlainText t.space

instance (t : NamedType) : Decidable t.HasPlainNames := inferInstanceAs (Decidable (_ ∧ _))

namespace Text

theorem isPlain_of_isDigit {c : Char} (h : c.isDigit = true) : isPlain c = true := by
  have other (d : Char) (hd : d.isDigit = false) : c ≠ d := by
    rintro rfl
    rw [h] at hd
    cases hd
  simp [isPlain, closer?, isCloser, other]

theorem isBalanced_repr (n : Nat) : IsBalanced n.repr := by
  refine .of_plain fun c hc => isPlain_of_isDigit ?_
  have digit : c ∈ Nat.toDigits 10 n := by simpa using hc
  exact Nat.isDigit_of_mem_toDigits (by decide) (by decide) digit

theorem isBalanced_empty : IsBalanced "" := .of_plain (by decide)

theorem isBalanced_replicate {c : Char} (n : Nat) (h : isPlain c = true) :
    IsBalanced (String.ofList (List.replicate n c)) := by
  refine .of_plain fun d hd => ?_
  rw [String.toList_ofList] at hd
  rwa [List.eq_of_mem_replicate hd]

theorem isBalanced_int (i : Int) : IsBalanced (toString i) := by
  rw [Int.toString_eq_repr, Int.repr_eq_if]
  split
  · exact isBalanced_repr _
  · exact .append (.of_plain (by decide)) (isBalanced_repr _)

theorem isBalanced_enclose {left right : Char} (pair : closer? left = some right)
    {fields : List String} (h : ∀ field ∈ fields, IsBalanced field) :
    IsBalanced
      (String.ofList [left] ++ String.intercalate "," fields ++ String.ofList [right]) := by
  rw [IsBalanced]
  simp only [String.toList_append, String.toList_ofList, String.toList_intercalate]
  refine Balanced.enclose pair fun cs hcs => ?_
  obtain ⟨field, hf, rfl⟩ := List.mem_map.1 hcs
  exact h field hf

end Text

theorem Dimension.isBalanced_text (d : Dimension) : IsBalanced d.text := by
  unfold text
  split
  · exact isBalanced_empty
  · refine .append (.append ?_ (.of_plain (by decide))) ?_
    · cases d.lower? with
      | none => exact isBalanced_empty
      | some lower => exact isBalanced_int lower
    · cases d.size? with
      | none => exact isBalanced_empty
      | some size => exact isBalanced_int _

namespace TypeShape

theorem isBalanced_arraySuffix (dimensions? : Option (List Dimension)) :
    IsBalanced (arraySuffix dimensions?) := by
  have opening : closer? '[' = some ']' := rfl
  cases dimensions? with
  | none => exact isBalanced_enclose opening (List.forall_mem_nil _)
  | some dimensions =>
    refine isBalanced_enclose opening fun field hf => ?_
    obtain ⟨d, -, rfl⟩ := List.mem_map.1 hf
    exact d.isBalanced_text

theorem isBalanced_braced {arguments : List String} (h : ∀ text ∈ arguments, IsBalanced text) :
    IsBalanced (braced arguments) := by
  have opening : closer? '\x7b' = some '\x7d' := rfl
  cases arguments with
  | nil => exact isBalanced_empty
  | cons first rest => exact isBalanced_enclose opening h

theorem isBalanced_qualified {space : String} {names : List String}
    (hs : IsPlainText space) (h : ∀ name ∈ names, IsBalanced name) :
    IsBalanced (qualified space names) := by
  refine .append ?_ (.intercalate (.of_plain (by decide)) h)
  split
  · exact isBalanced_empty
  · exact .append (.of_plain hs) (.of_plain (by decide))

theorem IsMarked.isPlainText {name base : String} {arity : Nat} (h : IsMarked name base arity)
    (plain : IsPlainText name) : IsPlainText base := by
  obtain ⟨numeral, rfl, -⟩ := h
  exact fun c hc => plain c (by simp [hc])

theorem isBalanced_closedNames {names arguments : List String}
    (hn : ∀ name ∈ names, IsPlainText name)
    (ha : ∀ text ∈ arguments, IsBalanced text) :
    ∀ name ∈ closedNames names arguments, IsBalanced name := by
  induction names generalizing arguments with
  | nil => simp [closedNames, shares]
  | cons name rest ih =>
    have own := hn name List.mem_cons_self
    have others {left : List String} (hl : ∀ text ∈ left, IsBalanced text) :=
      ih (fun n h => hn n (List.mem_cons_of_mem name h)) hl
    rw [closedNames_cons]
    split
    · rename_i base arity split
      have plain := (splitArity?_eq_some_iff.1 split).isPlainText own
      split
      · have taken : IsBalanced (braced (arguments.take arity)) :=
          isBalanced_braced fun text h => ha text (List.mem_of_mem_take h)
        exact List.forall_mem_cons.2 ⟨.append (.of_plain plain) taken,
          others fun text h => ha text (List.mem_of_mem_drop h)⟩
      · exact List.forall_mem_cons.2 ⟨.of_plain own, others ha⟩
    · split
      · simpa using IsBalanced.append (.of_plain own) (isBalanced_braced ha)
      · exact List.forall_mem_cons.2 ⟨.of_plain own, others ha⟩

/-- The fields of a parameter list as they are written; without parameters there is an empty one. -/
def listFields (params : List String) (vararg : Bool) : List String :=
  (if params = [] then [""] else params) ++ if vararg then ["__arglist"] else []

theorem paramList_eq (params : List String) (vararg : Bool) :
    paramList params vararg = String.ofList ['('] ++
      String.intercalate "," (listFields params vararg) ++ String.ofList [')'] := by
  cases params with
  | nil => cases vararg <;> simp [paramList, listFields]
  | cons first rest =>
    have longer : String.intercalate "," (first :: rest ++ ["__arglist"]) =
        String.intercalate "," (first :: rest) ++ "," ++ "__arglist" := by
      rw [String.intercalate_append_of_ne_nil (List.cons_ne_nil _ _) (List.cons_ne_nil _ _),
        String.intercalate_singleton]
    cases vararg
    · simp [paramList, listFields]
    · simp only [paramList, listFields, reduceCtorEq, if_false, if_true, longer]
      simp [← String.toList_inj]

theorem isBalanced_listFields {params : List String} (h : ∀ text ∈ params, IsBalanced text)
    (vararg : Bool) : ∀ field ∈ listFields params vararg, IsBalanced field := by
  have fixed : ∀ field ∈ if params = [] then [""] else params, IsBalanced field := by
    split
    · simpa using isBalanced_empty
    · exact h
  have last : ∀ field ∈ if vararg then ["__arglist"] else [], IsBalanced field := by
    split
    · simpa using IsBalanced.of_plain (by decide)
    · simp
  exact List.forall_mem_append.2 ⟨fixed, last⟩

theorem isBalanced_paramList {params : List String} (h : ∀ text ∈ params, IsBalanced text)
    (vararg : Bool) : IsBalanced (paramList params vararg) := by
  have opening : closer? '(' = some ')' := rfl
  rw [paramList_eq]
  exact isBalanced_enclose opening (isBalanced_listFields h vararg)

mutual

def namedTypes : TypeShape → List NamedType
  | named type => [type]
  | generic type arguments => type :: namedTypesOfAll arguments
  | param _ _ => []
  | array target _ | pointer target | byRef target => target.namedTypes
  | modified base modifier _ => base.namedTypes ++ modifier.namedTypes
  | function result params => result.namedTypes ++ namedTypesOfAll params

def namedTypesOfAll : List TypeShape → List NamedType
  | [] => []
  | shape :: rest => shape.namedTypes ++ namedTypesOfAll rest

end

end TypeShape

structure Layers.IsBalanced (l : Layers) : Prop where
  core : Text.IsBalanced l.core
  arrays : ∀ suffix ∈ l.arrays, Text.IsBalanced suffix
  modifiers : ∀ modifier ∈ l.modifiers, Text.IsBalanced modifier

namespace Layers

variable {l : Layers}

theorem isBalanced_ofCore {core : String} (h : Text.IsBalanced core) : (ofCore core).IsBalanced :=
  ⟨h, by simp [ofCore], by simp [ofCore]⟩

theorem IsBalanced.addArray {suffix : String} (h : l.IsBalanced) (hs : Text.IsBalanced suffix) :
    (l.addArray suffix).IsBalanced :=
  ⟨h.core, List.forall_mem_append.2 ⟨h.arrays, by simpa using hs⟩, h.modifiers⟩

theorem IsBalanced.addModifier {text : String} (h : l.IsBalanced) (ht : Text.IsBalanced text)
    (required : Bool) : (l.addModifier required text).IsBalanced := by
  have word : Text.IsBalanced (if required then " reqmod " else " optmod ") := by
    cases required <;> exact .of_plain (by decide)
  exact ⟨h.core, h.arrays, List.forall_mem_cons.2 ⟨word.append ht, h.modifiers⟩⟩

theorem IsBalanced.text (h : l.IsBalanced) : Text.IsBalanced l.text := by
  refine .append (.append (.append (.append h.core (.join h.arrays)) (.join h.modifiers)) ?_) ?_
  · exact Text.isBalanced_replicate l.pointers rfl
  · exact Text.isBalanced_replicate l.byRefs rfl

theorem text_eq_empty_iff : l.text = "" ↔ l.core = "" ∧ (∀ suffix ∈ l.arrays, suffix = "") ∧
    (∀ modifier ∈ l.modifiers, modifier = "") ∧ l.pointers = 0 ∧ l.byRefs = 0 := by
  simp [text, ← String.toList_eq_nil_iff]

end Layers

namespace TypeShape

theorem isBalanced_definition {type : NamedType} (h : type.HasPlainNames) :
    Text.IsBalanced (qualified type.space type.names) :=
  isBalanced_qualified h.2.2 fun name hn => .of_plain (h.2.1 name hn).2

mutual

theorem isBalanced_layers (definition : Bool) : ∀ t : TypeShape,
    (∀ n ∈ t.namedTypes, n.HasPlainNames) → (t.layers definition).IsBalanced
  | named type, h => by
    rw [layers]
    exact Layers.isBalanced_ofCore (isBalanced_definition (h type (by simp [namedTypes])))
  | generic type arguments, h => by
    rw [namedTypes, List.forall_mem_cons] at h
    have taken := isBalanced_texts arguments h.2
    rw [layers]
    split
    · exact Layers.isBalanced_ofCore (isBalanced_definition h.1)
    · exact Layers.isBalanced_ofCore (isBalanced_qualified h.1.2.2
        (isBalanced_closedNames (fun name hn => (h.1.2.1 name hn).2) taken))
  | param index ofMethod, _ => by
    have mark : Text.IsBalanced (if ofMethod then "``" else "`") := by
      cases ofMethod <;> exact .of_plain (by decide)
    rw [layers]
    exact Layers.isBalanced_ofCore (mark.append (Text.isBalanced_repr index))
  | array element dimensions?, h => by
    rw [layers]
    exact (isBalanced_layers definition element h).addArray (isBalanced_arraySuffix dimensions?)
  | pointer target, h | byRef target, h => by
    have inner := isBalanced_layers definition target h
    rw [layers]
    exact ⟨inner.core, inner.arrays, inner.modifiers⟩
  | modified base modifier required, h => by
    rw [namedTypes, List.forall_mem_append] at h
    rw [layers]
    exact (isBalanced_layers definition base h.1).addModifier
      (isBalanced_layers false modifier h.2).text required
  | function result params, h => by
    rw [namedTypes, List.forall_mem_append] at h
    have fields := isBalanced_paramList (isBalanced_texts params h.2) false
    have list :
        Text.IsBalanced (if params.isEmpty then "" else paramList (texts params) false) := by
      split
      · exact Text.isBalanced_empty
      · exact fields
    have word : Text.IsBalanced "=FUNC:" := .of_plain (by decide)
    have returned := (isBalanced_layers false result h.1).text
    rw [layers]
    exact Layers.isBalanced_ofCore ((word.append returned).append list)

theorem isBalanced_texts : ∀ shapes : List TypeShape,
    (∀ n ∈ namedTypesOfAll shapes, n.HasPlainNames) → ∀ text ∈ texts shapes, Text.IsBalanced text
  | [], _ => by simp [texts]
  | shape :: rest, h => by
    rw [namedTypesOfAll, List.forall_mem_append] at h
    rw [texts, List.forall_mem_cons]
    exact ⟨(isBalanced_layers false shape h.1).text, isBalanced_texts rest h.2⟩

end

theorem isBalanced_text {t : TypeShape} (h : ∀ n ∈ t.namedTypes, n.HasPlainNames) :
    Text.IsBalanced t.text := (isBalanced_layers false t h).text

/-- A generic instance of which nothing is written: its only name is a marker for no arguments. -/
def IsUnwritten (t : TypeShape) : Prop :=
  ∃ type arguments name, t = generic type arguments ∧ type.space = "" ∧ type.names = [name] ∧
    IsMarked name "" 0

theorem qualified_eq_empty_iff {space : String} {names : List String} :
    qualified space names = "" ↔ space = "" ∧ (names = [] ∨ names = [""]) := by
  have front : (if space.isEmpty then "" else space ++ ".") = "" ↔ space = "" := by
    by_cases h : space = "" <;> simp [h]
  have joined : String.intercalate "." names = "" ↔ names = [] ∨ names = [""] := by
    cases names with
    | nil => simp
    | cons name rest => cases rest <;> simp [String.intercalate_cons_cons]
  rw [qualified, String.append_eq_empty_iff, front, joined]

theorem braced_eq_empty_iff {arguments : List String} : braced arguments = "" ↔ arguments = [] := by
  cases arguments <;> simp [braced]

theorem IsMarked.unique {name base base' : String} {arity arity' : Nat}
    (h : IsMarked name base arity) (h' : IsMarked name base' arity') :
    base = base' ∧ arity = arity' := by
  rw [← splitArity?_eq_some_iff] at h h'
  simpa using h.symm.trans h'

/-- Nothing is written of a name alone that is a marker for no arguments. -/
theorem text_levelOf_eq_empty_iff {name : String} (h : name ≠ "") (left : List TypeShape) :
    (levelOf name left true).text = "" ↔ IsMarked name "" 0 := by
  by_cases hm : ∃ base arity, IsMarked name base arity
  · obtain ⟨base, arity, hm⟩ := hm
    rw [levelOf_of_marked _ _ hm]
    by_cases enough : arity ≤ left.length
    · have none : left.take arity = [] ↔ arity = 0 := by
        rw [← List.length_eq_zero_iff, List.length_take]
        omega
      rw [if_pos enough, Level.text, String.append_eq_empty_iff, braced_eq_empty_iff,
        List.map_eq_nil_iff, none]
      constructor
      · rintro ⟨rfl, rfl⟩
        exact hm
      · exact hm.unique
    · have other : ¬ IsMarked name "" 0 := fun zero => enough (by simp [(hm.unique zero).2])
      simp [if_neg enough, Level.text, h, other]
  · have unmarked : Unmarked name := fun base arity marked => hm ⟨base, arity, marked⟩
    simp [levelOf_of_unmarked left true unmarked, Level.text, h, unmarked "" 0]

theorem text_generic_eq_empty_iff {type : NamedType} (h : type.HasPlainNames)
    (arguments : List TypeShape) :
    (generic type arguments).text = "" ↔ (generic type arguments).IsUnwritten := by
  obtain ⟨ne, names, -⟩ := h
  have text : (generic type arguments).text =
      qualified type.space ((levelsOf type.names arguments).map Level.text) := by
    simp [text, layers, texts_eq_map, closedNames_eq, Layers.text, Layers.ofCore]
  rw [text, qualified_eq_empty_iff]
  cases hn : type.names with
  | nil => exact absurd hn ne
  | cons name rest =>
    cases rest with
    | nil =>
      have single := text_levelOf_eq_empty_iff (names name (by simp [hn])).1 arguments
      simp [levelsOf, single, IsUnwritten, hn]
    | cons next rest => simp [levelsOf, IsUnwritten, hn]

theorem arraySuffix_ne_empty (dimensions? : Option (List Dimension)) :
    arraySuffix dimensions? ≠ "" := by
  cases dimensions? <;> simp [arraySuffix]

theorem text_eq_empty_iff {t : TypeShape} (h : ∀ n ∈ t.namedTypes, n.HasPlainNames) :
    t.text = "" ↔ t.IsUnwritten := by
  cases t with
  | generic type arguments =>
    exact text_generic_eq_empty_iff (h type (by simp [namedTypes])) arguments
  | named type =>
    obtain ⟨ne, names, -⟩ := h type (by simp [namedTypes])
    have written : ¬ (type.names = [] ∨ type.names = [""]) := by
      rintro (none | one)
      · exact ne none
      · exact (names "" (by simp [one])).1 rfl
    simp [text, layers, Layers.text_eq_empty_iff, Layers.ofCore, qualified_eq_empty_iff, written,
      IsUnwritten]
  | param index ofMethod =>
    cases ofMethod <;>
      simp [text, layers, Layers.text_eq_empty_iff, Layers.ofCore, IsUnwritten]
  | array element dimensions? =>
    simp [text, layers, Layers.text_eq_empty_iff, Layers.addArray, or_imp, forall_and,
      arraySuffix_ne_empty, IsUnwritten]
  | pointer target =>
    simp [text, layers, Layers.text_eq_empty_iff, Layers.addPointer, IsUnwritten]
  | byRef target => simp [text, layers, Layers.text_eq_empty_iff, Layers.addByRef, IsUnwritten]
  | modified base modifier required =>
    cases required <;>
      simp [text, layers, Layers.text_eq_empty_iff, Layers.addModifier, IsUnwritten]
  | function result params =>
    simp [text, layers, Layers.text_eq_empty_iff, Layers.ofCore, IsUnwritten]

end TypeShape

end FrameworkAudit
