import FrameworkAudit.DocId
import FrameworkAudit.Proofs.Text

/-!
The type arguments of nested types. All arguments of a generic instance stand in one list, and the
names of the nesting chain take them from its front, one name after the other, as many as each says.
What no name takes is not written.
-/

set_option autoImplicit false

namespace FrameworkAudit.TypeShape

/-- A name that ends in a marker: a backtick and the number of type arguments that it takes. -/
def IsMarked (name base : String) (arity : Nat) : Prop :=
  ∃ numeral, name = base ++ "`" ++ numeral ∧ Text.numeral? UInt64.size numeral = some arity

def Unmarked (name : String) : Prop := ∀ base arity, ¬ IsMarked name base arity

theorem splitArity?_eq_some_iff {name base : String} {arity : Nat} :
    splitArity? name = some (base, arity) ↔ IsMarked name base arity := by
  have parts : splitArity? name = some (base, arity) ↔ ∃ numeral,
      Text.cutLast '\x60' name = some (base, numeral) ∧
        Text.numeral? UInt64.size numeral = some arity := by
    simp only [splitArity?, Option.bind_eq_bind, Option.bind_eq_some_iff, Option.pure_def,
      Option.some.injEq, Prod.mk.injEq, Prod.exists]
    grind
  rw [parts, IsMarked]
  refine exists_congr fun numeral => and_congr_left fun value => ?_
  have unmarked : '\x60' ∉ numeral.toList := fun mem => by
    have digit := Text.isDigit_of_numeral? value _ mem
    simp at digit
  rw [Text.cutLast_eq_some_iff, and_iff_left unmarked, ← String.toList_inj]
  simp

theorem splitArity?_eq_none_iff {name : String} : splitArity? name = none ↔ Unmarked name := by
  simp only [Unmarked, ← splitArity?_eq_some_iff, Option.eq_none_iff_forall_ne_some, Prod.forall,
    ne_eq]

/-- One name of a nesting chain as it is written, and the arguments that it takes. -/
structure Level where
  name : String
  arguments : List TypeShape

namespace Level

def text (l : Level) : String := l.name ++ braced (l.arguments.map TypeShape.text)

/-- How a name takes from the arguments that the names before it have left: a marked name loses its
marker and takes what the marker says, or else stays whole; any other name takes nothing, and the
last one all. -/
def Shows (l : Level) (name : String) (left : List TypeShape) (isLast : Bool) : Prop :=
  (∀ base arity, IsMarked name base arity →
    l = if arity ≤ left.length then ⟨base, left.take arity⟩ else ⟨name, []⟩) ∧
  (Unmarked name → l = ⟨name, if isLast then left else []⟩)

end Level

def levelOf (name : String) (left : List TypeShape) (isLast : Bool) : Level :=
  match splitArity? name with
  | some (base, arity) => if arity ≤ left.length then ⟨base, left.take arity⟩ else ⟨name, []⟩
  | none => ⟨name, if isLast then left else []⟩

def levelsOf : List String → List TypeShape → List Level
  | [], _ => []
  | name :: rest, left =>
    let level := levelOf name left rest.isEmpty
    level :: levelsOf rest (left.drop level.arguments.length)

section

variable {name base : String} {arity : Nat} (left : List TypeShape) (isLast : Bool)

theorem levelOf_of_marked (h : IsMarked name base arity) : levelOf name left isLast =
    if arity ≤ left.length then ⟨base, left.take arity⟩ else ⟨name, []⟩ := by
  rw [levelOf, splitArity?_eq_some_iff.2 h]

theorem levelOf_of_unmarked (h : Unmarked name) :
    levelOf name left isLast = ⟨name, if isLast then left else []⟩ := by
  rw [levelOf, splitArity?_eq_none_iff.2 h]

theorem levelOf_shows (name : String) : (levelOf name left isLast).Shows name left isLast :=
  ⟨fun _ _ => levelOf_of_marked left isLast, levelOf_of_unmarked left isLast⟩

theorem levelOf_takes (name : String) :
    ∃ rest, (levelOf name left isLast).arguments ++ rest = left := by
  unfold levelOf
  split
  · split
    · exact ⟨_, List.take_append_drop _ left⟩
    · exact ⟨left, rfl⟩
  · cases isLast
    · exact ⟨left, rfl⟩
    · exact ⟨[], by simp⟩

end

/-- How many arguments were taken before does not matter for what is written. -/
theorem map_shares (taken : Nat) (names arguments : List String) :
    ((shares taken names arguments).map fun s => s.name ++ braced s.arguments) =
      closedNames names arguments := by
  unfold closedNames
  generalize 0 = other
  induction names generalizing taken other arguments with
  | nil => rfl
  | cons name rest ih =>
    simp only [shares]
    split
    · split
      · rw [List.map_cons, List.map_cons, ih]
      · rw [List.map_cons, List.map_cons, ih]
    · split
      · rfl
      · rw [List.map_cons, List.map_cons, ih]

theorem closedNames_cons (name : String) (rest arguments : List String) :
    closedNames (name :: rest) arguments =
      match splitArity? name with
      | some (base, arity) =>
        if arity ≤ arguments.length then
          (base ++ braced (arguments.take arity)) :: closedNames rest (arguments.drop arity)
        else name :: closedNames rest arguments
      | none =>
        if rest.isEmpty then [name ++ braced arguments] else name :: closedNames rest arguments := by
  rw [closedNames, shares]
  cases splitArity? name with
  | some marked =>
    by_cases enough : marked.2 ≤ arguments.length <;> simp [enough, map_shares]
  | none => by_cases last : rest.isEmpty <;> simp [last, map_shares]

theorem closedNames_eq (names : List String) (left : List TypeShape) :
    closedNames names (left.map TypeShape.text) = (levelsOf names left).map Level.text := by
  induction names generalizing left with
  | nil => rfl
  | cons name rest ih =>
    rw [closedNames_cons, levelsOf, List.map_cons, ← ih]
    unfold levelOf
    cases splitArity? name with
    | some marked =>
      by_cases enough : marked.2 ≤ left.length
      · simp [enough, Level.text]
      · simp [enough, Level.text, braced]
    | none =>
      cases rest with
      | nil => simp [Level.text, closedNames, shares]
      | cons next rest => simp [Level.text, braced]

theorem length_levelsOf (names : List String) (left : List TypeShape) :
    (levelsOf names left).length = names.length := by
  induction names generalizing left with
  | nil => rfl
  | cons name rest ih => simp [levelsOf, ih]

theorem flatMap_levelsOf_cons (name : String) (rest : List String) (left : List TypeShape) :
    ∃ more, (levelOf name left rest.isEmpty).arguments ++ more = left ∧
      (levelsOf (name :: rest) left).flatMap Level.arguments =
        (levelOf name left rest.isEmpty).arguments ++
          (levelsOf rest more).flatMap Level.arguments := by
  obtain ⟨more, split⟩ := levelOf_takes left rest.isEmpty name
  refine ⟨more, split, ?_⟩
  have after : left.drop (levelOf name left rest.isEmpty).arguments.length = more :=
    (congrArg (List.drop _) split).symm.trans List.drop_left
  rw [levelsOf, List.flatMap_cons, after]

theorem taken_levelsOf (names : List String) (left : List TypeShape) :
    (levelsOf names left).flatMap Level.arguments <+: left := by
  induction names generalizing left with
  | nil => exact List.nil_prefix
  | cons name rest ih =>
    obtain ⟨more, split, taken⟩ := flatMap_levelsOf_cons name rest left
    have longer :=
      (List.prefix_append_right_inj (levelOf name left rest.isEmpty).arguments).2 (ih more)
    rwa [split, ← taken] at longer

theorem levelsOf_shows {names : List String} {left : List TypeShape} {i : Nat} {name : String}
    {level : Level} (hn : names[i]? = some name) (hl : (levelsOf names left)[i]? = some level) :
    level.Shows name (left.drop (((levelsOf names left).take i).flatMap Level.arguments).length)
      (i + 1 == names.length) := by
  induction names generalizing left i with
  | nil => simp at hn
  | cons first rest ih =>
    rw [levelsOf] at hl ⊢
    cases i with
    | zero =>
      obtain rfl : first = name := by simpa using hn
      obtain rfl : levelOf first left rest.isEmpty = level := by simpa using hl
      have last : (rest.length == 0) = rest.isEmpty := by cases rest <;> rfl
      simpa [last] using levelOf_shows left rest.isEmpty first
    | succ i =>
      have shown := ih (i := i) (by simpa using hn) (by simpa using hl)
      rw [List.drop_drop] at shown
      simpa using shown

inductive Declare : List String → Nat → Prop
  | nil : Declare [] 0
  | marked {name base : String} {arity total : Nat} {rest : List String}
      (here : IsMarked name base arity) (h : Declare rest total) :
      Declare (name :: rest) (arity + total)
  | unmarked {name : String} {total : Nat} {rest : List String} (here : Unmarked name)
      (h : Declare rest total) : Declare (name :: rest) total

theorem flatMap_levelsOf_of_declare {names : List String} {left : List TypeShape}
    (h : Declare names left.length) : (levelsOf names left).flatMap Level.arguments = left := by
  generalize same : left.length = total at h
  induction h generalizing left with
  | nil => simpa [levelsOf, eq_comm] using same
  | @marked name base arity total rest here _ ih =>
    -- The later names ask for no more than is left, so this one finds all that it asks for.
    obtain ⟨more, split, taken⟩ := flatMap_levelsOf_cons name rest left
    have enough : arity ≤ left.length := by omega
    have own : (levelOf name left rest.isEmpty).arguments = left.take arity := by
      rw [levelOf_of_marked _ _ here, if_pos enough]
    have count := congrArg List.length split
    rw [own, List.length_append, List.length_take] at count
    rw [taken, ih (by omega), split]
  | @unmarked name total rest here _ ih =>
    obtain ⟨more, split, taken⟩ := flatMap_levelsOf_cons name rest left
    rw [levelOf_of_unmarked _ _ here] at split taken
    cases rest with
    | nil => simpa [levelsOf] using taken
    | cons next rest =>
      obtain rfl : more = left := by simpa using split
      rw [taken, ih same]
      simp

theorem flatMap_levelsOf_of_last {names : List String} {last : String} (left : List TypeShape)
    (h : names.getLast? = some last) (hu : Unmarked last) :
    (levelsOf names left).flatMap Level.arguments = left := by
  induction names generalizing left with
  | nil => cases h
  | cons name rest ih =>
    obtain ⟨more, split, taken⟩ := flatMap_levelsOf_cons name rest left
    cases rest with
    | nil =>
      obtain rfl : name = last := by simpa using h
      rw [taken, levelOf_of_unmarked _ _ hu]
      simp [levelsOf]
    | cons next rest => rw [taken, ih more (by simpa using h), split]

/-- The arguments of a generic instance are written level by level, from the first one on, each once
and in order; what the levels take of them is a matter of their names. -/
theorem text_generic_levels (type : NamedType) (arguments : List TypeShape) :
    ∃ levels : List Level,
      (generic type arguments).text = qualified type.space (levels.map Level.text) ∧
      levels.length = type.names.length ∧
      levels.flatMap Level.arguments <+: arguments ∧
      (∀ (i : Nat) (name : String) (level : Level), type.names[i]? = some name →
        levels[i]? = some level → level.Shows name
          (arguments.drop ((levels.take i).flatMap Level.arguments).length)
          (i + 1 == type.names.length)) ∧
      (Declare type.names arguments.length ∨
          (∃ last, type.names.getLast? = some last ∧ Unmarked last) →
        levels.flatMap Level.arguments = arguments) := by
  refine ⟨levelsOf type.names arguments, ?_, length_levelsOf _ _, taken_levelsOf _ _,
    fun i name level hn hl => levelsOf_shows hn hl, ?_⟩
  · rw [text, layers, if_neg Bool.false_ne_true, texts_eq_map, closedNames_eq]
    simp [Layers.text, Layers.ofCore]
  · rintro (h | ⟨last, h, hu⟩)
    · exact flatMap_levelsOf_of_declare h
    · exact flatMap_levelsOf_of_last arguments h hu

/-- The inner type goes on where the outer one has stopped. -/
theorem text_generic_levels_nested :
    (generic ⟨"", ["Outer`1", "Inner`2"], none, false⟩
        [named (.primitive "Int32"), named (.primitive "String"), param 0 false]).text =
      "Outer\x7bSystem.Int32\x7d.Inner\x7bSystem.String,`0\x7d" ∧
    Declare ["Outer`1", "Inner`2"] 3 ∧
    ∃ levels : List Level, levels.length = 2 ∧ levels.flatMap Level.arguments =
      [named (.primitive "Int32"), named (.primitive "String"), param 0 false] := by
  have outer : IsMarked "Outer`1" "Outer" 1 := splitArity?_eq_some_iff.1 (by decide +kernel)
  have inner : IsMarked "Inner`2" "Inner" 2 := splitArity?_eq_some_iff.1 (by decide +kernel)
  have declared : Declare ["Outer`1", "Inner`2"] (1 + (2 + 0)) := .marked outer (.marked inner .nil)
  obtain ⟨levels, -, length, -, -, all⟩ :=
    text_generic_levels ⟨"", ["Outer`1", "Inner`2"], none, false⟩
      [named (.primitive "Int32"), named (.primitive "String"), param 0 false]
  exact ⟨by decide +kernel, declared, levels, length, all (.inl declared)⟩

end FrameworkAudit.TypeShape
