import FrameworkAudit.DocId

/-!
Wrapped types. A type is a bare type in a stack of wrappers: arrays, modifiers, pointers and
references. Its text sorts the wrappers by their kinds, so which of two wrappers of different kinds
lies inside the other leaves no trace, and its core is that of the bare type.
-/

set_option autoImplicit false

namespace FrameworkAudit

inductive WrapperKind where
  | array | modifier | pointer | byRef
  deriving DecidableEq, Repr

inductive Wrapper where
  | array (dimensions? : Option (List Dimension))
  | modifier (type : TypeShape) (required : Bool)
  | pointer
  | byRef

namespace Wrapper

def kind : Wrapper → WrapperKind
  | array _ => .array
  | modifier _ _ => .modifier
  | pointer => .pointer
  | byRef => .byRef

def wrap (inner : TypeShape) : Wrapper → TypeShape
  | array dimensions? => .array inner dimensions?
  | modifier type required => .modified inner type required
  | pointer => .pointer inner
  | byRef => .byRef inner

def arrayMark? : Wrapper → Option String
  | array dimensions? => some (TypeShape.arraySuffix dimensions?)
  | _ => none

def modifierMark? : Wrapper → Option String
  | modifier type required => some ((if required then " reqmod " else " optmod ") ++ type.text)
  | _ => none

end Wrapper

/-- A text with the marks of the wrappers around it, which stand from the outermost to the
innermost: the arrays from the inside to the outside, then the modifiers from the outside to the
inside, then a star for each pointer, then an at sign for each reference. -/
def wrappedText (core : String) (stack : List Wrapper) : String :=
  core ++ String.join (stack.reverse.filterMap Wrapper.arrayMark?) ++
    String.join (stack.filterMap Wrapper.modifierMark?) ++
    String.ofList (List.replicate ((stack.map Wrapper.kind).count .pointer) '*') ++
    String.ofList (List.replicate ((stack.map Wrapper.kind).count .byRef) '@')

namespace Layers

def add (l : Layers) : Wrapper → Layers
  | .array dimensions? => l.addArray (TypeShape.arraySuffix dimensions?)
  | .modifier type required => l.addModifier required type.text
  | .pointer => l.addPointer
  | .byRef => l.addByRef

theorem add_comm {v w : Wrapper} (l : Layers) (h : v.kind ≠ w.kind) :
    (l.add v).add w = (l.add w).add v := by
  cases v <;> cases w <;> first | rfl | exact absurd rfl h

def within (core : String) (stack : List Wrapper) : Layers where
  core := core
  arrays := stack.reverse.filterMap Wrapper.arrayMark?
  modifiers := stack.filterMap Wrapper.modifierMark?
  pointers := (stack.map Wrapper.kind).count .pointer
  byRefs := (stack.map Wrapper.kind).count .byRef

theorem add_within (core : String) (w : Wrapper) (stack : List Wrapper) :
    (within core stack).add w = within core (w :: stack) := by
  cases w <;>
    simp [within, add, addArray, addModifier, addPointer, addByRef, Wrapper.arrayMark?,
      Wrapper.modifierMark?, Wrapper.kind, List.filterMap_cons]

@[simp] theorem text_ofCore (core : String) : (ofCore core).text = core := by
  simp [text, ofCore]

end Layers

namespace TypeShape

def IsBare : TypeShape → Prop
  | array _ _ | modified _ _ _ | pointer _ | byRef _ => False
  | _ => True

def stack : TypeShape → List Wrapper
  | array element dimensions? => .array dimensions? :: element.stack
  | modified base type required => .modifier type required :: base.stack
  | pointer target => .pointer :: target.stack
  | byRef target => .byRef :: target.stack
  | _ => []

def bare : TypeShape → TypeShape
  | array element _ => element.bare
  | modified base _ _ => base.bare
  | pointer target => target.bare
  | byRef target => target.bare
  | t => t

def wrapAll (stack : List Wrapper) (t : TypeShape) : TypeShape :=
  stack.foldr (fun w inner => w.wrap inner) t

theorem isBare_bare : ∀ t : TypeShape, t.bare.IsBare
  | named _ | generic _ _ | param _ _ | function _ _ => trivial
  | array t _ | modified t _ _ | pointer t | byRef t => isBare_bare t

theorem wrapAll_stack_bare : ∀ t : TypeShape, wrapAll t.stack t.bare = t
  | named _ | generic _ _ | param _ _ | function _ _ => rfl
  | array t dimensions? => congrArg (array · dimensions?) (wrapAll_stack_bare t)
  | modified t type required => congrArg (modified · type required) (wrapAll_stack_bare t)
  | pointer t => congrArg pointer (wrapAll_stack_bare t)
  | byRef t => congrArg byRef (wrapAll_stack_bare t)

theorem layers_wrap (definition : Bool) (w : Wrapper) (t : TypeShape) :
    (w.wrap t).layers definition = (t.layers definition).add w := by
  cases w <;> simp only [Wrapper.wrap, layers, Layers.add, text]

theorem core?_wrap (w : Wrapper) (t : TypeShape) : (w.wrap t).core? = t.core? := by
  cases w <;> rfl

theorem layers_of_isBare (definition : Bool) :
    ∀ {t : TypeShape}, t.IsBare → t.layers definition = .ofCore (t.layers definition).text
  | named _, _ | param _ _, _ | function _ _, _ => by simp [layers]
  | generic _ _, _ => by cases definition <;> simp [layers]

theorem layers_wrapAll (definition : Bool) {t : TypeShape} (h : t.IsBare) (stack : List Wrapper) :
    (wrapAll stack t).layers definition = .within (t.layers definition).text stack := by
  induction stack with
  | nil => exact layers_of_isBare definition h
  | cons w stack ih =>
    rw [wrapAll, List.foldr_cons, layers_wrap, ← wrapAll, ih, Layers.add_within]

theorem text_layers (definition : Bool) (t : TypeShape) :
    (t.layers definition).text = wrappedText (t.bare.layers definition).text t.stack := by
  have parts := layers_wrapAll definition (isBare_bare t) t.stack
  rw [wrapAll_stack_bare] at parts
  rw [parts]
  rfl

theorem core?_bare : ∀ t : TypeShape, t.bare.core? = t.core?
  | named _ | generic _ _ | param _ _ | function _ _ => rfl
  | array t _ | modified t _ _ | pointer t | byRef t => core?_bare t

theorem core?_eq_some_iff_of_isBare {n : NamedType} : ∀ {t : TypeShape}, t.IsBare →
    (t.core? = some n ↔ t = .named n ∨ ∃ arguments, t = .generic n arguments)
  | named _, _ | generic _ _, _ | param _ _, _ | function _ _, _ => by simp [core?]

/-- One pair of wrappers of different kinds, one right inside the other, changes places, anywhere in
a type. -/
inductive Swaps : TypeShape → TypeShape → Prop
  | here {outer inner : Wrapper} (t : TypeShape) (h : outer.kind ≠ inner.kind) :
      Swaps (outer.wrap (inner.wrap t)) (inner.wrap (outer.wrap t))
  | inside {s t : TypeShape} (w : Wrapper) (h : Swaps s t) : Swaps (w.wrap s) (w.wrap t)
  | modifier {s t : TypeShape} (base : TypeShape) (required : Bool) (h : Swaps s t) :
      Swaps (.modified base s required) (.modified base t required)
  | argument {s t : TypeShape} (type : NamedType) (before after : List TypeShape) (h : Swaps s t) :
      Swaps (.generic type (before ++ s :: after)) (.generic type (before ++ t :: after))
  | result {s t : TypeShape} (params : List TypeShape) (h : Swaps s t) :
      Swaps (.function s params) (.function t params)
  | param {s t : TypeShape} (result : TypeShape) (before after : List TypeShape) (h : Swaps s t) :
      Swaps (.function result (before ++ s :: after)) (.function result (before ++ t :: after))

theorem Swaps.layers_eq {s t : TypeShape} (h : s.Swaps t) (definition : Bool) :
    s.layers definition = t.layers definition := by
  induction h generalizing definition with
  | here t h => rw [layers_wrap, layers_wrap, layers_wrap, layers_wrap, Layers.add_comm _ h]
  | inside w _ ih => rw [layers_wrap, layers_wrap, ih]
  | modifier _ _ _ ih => rw [layers, layers, ih]
  | argument _ _ _ _ ih => simp [layers, texts_eq_map, text, ih]
  | result _ _ ih => simp only [layers, ih]
  | param _ _ _ _ ih => simp [layers, texts_eq_map, text, ih]

theorem Swaps.core?_eq {s t : TypeShape} (h : s.Swaps t) : s.core? = t.core? := by
  induction h with
  | here t _ => simp only [core?_wrap]
  | inside w _ ih => rw [core?_wrap, core?_wrap, ih]
  | _ => rfl

theorem Swaps.text_eq {s t : TypeShape} (h : s.Swaps t) : s.text = t.text := by
  rw [text, text, h.layers_eq]

theorem Swaps.definitionText_eq {s t : TypeShape} (h : s.Swaps t) :
    s.definitionText = t.definitionText := by
  rw [definitionText, definitionText, h.layers_eq]

end TypeShape

namespace MemberShape

open TypeShape

inductive Swaps : MemberShape → MemberShape → Prop
  | parent {s t : TypeShape} (name : String) (kind : MemberKind) (h : s.Swaps t) :
      Swaps ⟨s, name, kind⟩ ⟨t, name, kind⟩
  | field {s t : TypeShape} (parent : TypeShape) (name : String) (h : s.Swaps t) :
      Swaps ⟨parent, name, .field s⟩ ⟨parent, name, .field t⟩
  | result {s t : TypeShape} (parent : TypeShape) (name : String) (method : MethodShape)
      (h : s.Swaps t) :
      Swaps ⟨parent, name, .method { method with result := s }⟩
        ⟨parent, name, .method { method with result := t }⟩
  | param {s t : TypeShape} (parent : TypeShape) (name : String) (method : MethodShape)
      (before after : List TypeShape) (h : s.Swaps t) :
      Swaps ⟨parent, name, .method { method with params := before ++ s :: after }⟩
        ⟨parent, name, .method { method with params := before ++ t :: after }⟩

theorem Swaps.ofMember_eq {m n : MemberShape} (h : m.Swaps n) :
    DocId.ofMember m = DocId.ofMember n := by
  cases h with
  | parent _ _ h => simp only [DocId.ofMember, h.definitionText_eq]
  | field _ _ _ => rfl
  | result _ _ _ h => simp [DocId.ofMember, methodSuffix, isConversion, h.text_eq]
  | param _ _ _ _ _ h => simp [DocId.ofMember, methodSuffix, isConversion, h.text_eq]

end MemberShape

/-- The text of a type is that of the bare type in the marks of its wrappers, sorted by kind, and
its core is the bare type, if that has a name. Wrappers of different kinds may change places. -/
theorem TypeShape.text_by_wrappers (t : TypeShape) :
    wrapAll t.stack t.bare = t ∧ t.bare.IsBare ∧
      t.text = wrappedText t.bare.text t.stack ∧
      t.definitionText = wrappedText t.bare.definitionText t.stack ∧
      (∀ n, t.core? = some n ↔ t.bare = .named n ∨ ∃ arguments, t.bare = .generic n arguments) ∧
      t.assembly? = t.bare.assembly? ∧ t.isPrimitive = t.bare.isPrimitive ∧
      (∀ u, t.Swaps u → DocId.ofType t = DocId.ofType u ∧
        DocId.ofTypeDefinition t = DocId.ofTypeDefinition u ∧ t.core? = u.core?) ∧
      ∀ m n : MemberShape, m.Swaps n → DocId.ofMember m = DocId.ofMember n := by
  refine ⟨wrapAll_stack_bare t, isBare_bare t, text_layers false t, text_layers true t,
    ?_, ?_, ?_, ?_, fun m n => MemberShape.Swaps.ofMember_eq⟩
  · intro n
    rw [← core?_bare, core?_eq_some_iff_of_isBare (isBare_bare t)]
  · rw [assembly?, assembly?, core?_bare]
  · rw [isPrimitive, isPrimitive, core?_bare]
  · intro u h
    rw [DocId.ofType, DocId.ofTypeDefinition, h.text_eq, h.definitionText_eq]
    exact ⟨rfl, rfl, h.core?_eq⟩

def volatileInt : TypeShape :=
  .modified (.named (.primitive "Int32"))
    (.named ⟨"System.Runtime.CompilerServices", ["IsVolatile"], none, false⟩) true

/-- A pointer to an array and an array of pointers are written alike. -/
theorem TypeShape.text_by_wrappers_volatile :
    (pointer (array volatileInt none)).text =
        "System.Int32[] reqmod System.Runtime.CompilerServices.IsVolatile*" ∧
      (pointer (array volatileInt none)).Swaps (array (pointer volatileInt) none) ∧
      DocId.ofType (pointer (array volatileInt none)) =
        DocId.ofType (array (pointer volatileInt) none) := by
  have swap : (pointer (array volatileInt none)).Swaps (array (pointer volatileInt) none) :=
    @Swaps.here .pointer (.array none) volatileInt (by decide)
  obtain ⟨-, -, -, -, -, -, -, same, -⟩ := text_by_wrappers (pointer (array volatileInt none))
  exact ⟨by decide +kernel, swap, (same _ swap).1⟩

end FrameworkAudit
