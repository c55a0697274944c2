import FrameworkAudit.Proofs.Attribute.Value
import Mathlib.Data.Nat.Find

/-!
The types that declare the methods of an assembly. A method belongs to the type in whose row's range it
lies, and a range ends where that of the next row begins. An attribute whose constructor is a method
is looked up among the readable rows only, so where the owner's row cannot be read, the attribute goes
to the nearest readable row before it.
-/

set_option autoImplicit false

namespace FrameworkAudit

open Bytes

theorem TypeDefRow.methodList_of_read {l : Layout} {c d : Cursor} {row : TypeDefRow}
    (room : c.pos + l.rowSize .typeDef ≤ c.data.size) (h : Row.read l c = .ok row d) :
    row.methodList = littleEndian c.data (c.pos + l.rowSize .typeDef - l.rowBytes .methodDef)
      (l.rowBytes .methodDef) := by
  have takes : (Row.read l : Read TypeDefRow).Takes (l.rowSize .typeDef) := LawfulRow.takes l
  have stop := takes.passes room h
  obtain ⟨flags, _, -, h⟩ := Read.bind_ok_iff.1 h
  obtain ⟨name, _, -, h⟩ := Read.bind_ok_iff.1 h
  obtain ⟨space, _, -, h⟩ := Read.bind_ok_iff.1 h
  obtain ⟨base, _, -, h⟩ := Read.bind_ok_iff.1 h
  obtain ⟨fields, last, -, h⟩ := Read.bind_ok_iff.1 h
  obtain ⟨methods, _, read, h⟩ := Read.bind_ok_iff.1 h
  obtain ⟨rfl, rfl⟩ := Read.pure_ok_iff.1 h
  obtain ⟨-, value, moved⟩ := Read.word_ok_iff.1 read
  rw [← l.rowBytes_eq] at value moved
  rw [moved] at stop
  obtain ⟨data, position⟩ := Cursor.mk.inj stop
  have start : last.pos = c.pos + l.rowSize .typeDef - l.rowBytes .methodDef := by omega
  rw [← start, ← data]
  exact value

namespace Metadata

variable {m : Metadata} {row method first next : Nat}

/-- Where the methods of a row's type begin, as its bytes say, even if the row cannot be read. -/
def methodList? (m : Metadata) (row : Nat) : Option Nat := do
  let place ← m.tables.rowExtent? .typeDef row
  let width := m.tables.layout.rowBytes .methodDef
  return littleEndian m.tables.data (place.offset + place.length - width) width

def MethodsAscend (m : Metadata) : Prop :=
  ∀ row first next, m.methodList? row = some first → m.methodList? (row + 1) = some next → first ≤ next

/-- Whether a method lies between the first one of a row and the first one of the next row. -/
def Owns (m : Metadata) (row method : Nat) : Prop :=
  ∃ first, m.methodList? row = some first ∧ first ≤ method ∧
    ∀ next, m.methodList? (row + 1) = some next → method < next

theorem row_of_methodList? (h : m.methodList? row = some first) :
    0 < row ∧ row ≤ m.tables.rowCount .typeDef := by
  obtain ⟨place, placed, -⟩ := Option.bind_eq_some_iff.1 h
  obtain ⟨-, -, bounds, -⟩ := TableStream.rowExtent?_eq_some_iff.1 placed
  exact bounds

instance (m : Metadata) : Decidable m.MethodsAscend :=
  decidable_of_iff (∀ row < m.tables.rowCount .typeDef, (m.methodList? row).all fun first =>
      (m.methodList? (row + 1)).all fun next => first ≤ next) <| by
    simp only [Option.all_eq_true, decide_eq_true_eq, MethodsAscend]
    constructor
    · intro h row first next hr hn
      exact h row (row_of_methodList? hn).2 first hr next hn
    · exact fun h row _ first hr next hn => h row first next hr hn

theorem exists_methodList? (h : m.methodList? row = some next) {i : Nat} (some : 0 < i) (le : i ≤ row) :
    ∃ first, m.methodList? i = .some first := by
  obtain ⟨place, placed, -⟩ := Option.bind_eq_some_iff.1 h
  obtain ⟨region, found, bounds, -⟩ := TableStream.rowExtent?_eq_some_iff.1 placed
  have before := TableStream.rowExtent?_eq_some_iff.2 ⟨region, found, ⟨some, by omega⟩, rfl⟩
  exact ⟨_, Option.bind_eq_some_iff.2 ⟨_, before, rfl⟩⟩

namespace MethodsAscend

theorem le (ascend : m.MethodsAscend) {i : Nat} (hi : m.methodList? i = some first)
    (hr : m.methodList? row = some next) (le : i ≤ row) : first ≤ next := by
  induction row, le using Nat.le_induction generalizing next with
  | base =>
    obtain rfl := Option.some.inj (hi.symm.trans hr)
    exact Nat.le_refl _
  | succ j hj ih =>
    have inside := (row_of_methodList? hi).1
    obtain ⟨middle, hm⟩ := exists_methodList? hr (Nat.lt_of_lt_of_le inside hj) (Nat.le_succ j)
    exact Nat.le_trans (ih hm) (ascend j middle next hm hr)

theorem le_iff_of_owns (ascend : m.MethodsAscend) {owner : Nat} (owns : m.Owns owner method)
    (hr : m.methodList? row = some first) : first ≤ method ↔ row ≤ owner := by
  obtain ⟨own, ho, early, late⟩ := owns
  constructor
  · intro before
    by_contra past
    obtain ⟨next, hn⟩ := exists_methodList? hr (Nat.succ_pos owner) (by omega)
    have behind := ascend.le hn hr (by omega)
    have beyond := late next hn
    omega
  · intro le
    exact Nat.le_trans (ascend.le hr ho le) early

theorem owner_unique (ascend : m.MethodsAscend) {owner other : Nat} (owns : m.Owns owner method)
    (ownsToo : m.Owns other method) : owner = other := by
  obtain ⟨own, ho, early, -⟩ := id owns
  obtain ⟨own', ho', early', -⟩ := id ownsToo
  exact Nat.le_antisymm ((ascend.le_iff_of_owns ownsToo ho).1 early)
    ((ascend.le_iff_of_owns owns ho').1 early')

end MethodsAscend

theorem exists_last {p : Nat → Prop} {i n : Nat} (le : i ≤ n) (h : p i) :
    ∃ k, k ≤ n ∧ p k ∧ ∀ j, k < j → j ≤ n → ¬ p j := by
  classical
  exact ⟨Nat.findGreatest p n, Nat.findGreatest_le n, Nat.findGreatest_spec le h,
    fun j hk hn => Nat.findGreatest_is_greatest hk hn⟩

theorem exists_owner (hr : m.methodList? row = some first) (before : first ≤ method) :
    ∃ owner, m.Owns owner method := by
  obtain ⟨owner, -, ⟨own, ho, early⟩, last⟩ :=
    exists_last (p := fun row => ∃ first, m.methodList? row = some first ∧ first ≤ method)
      (row_of_methodList? hr).2 ⟨first, hr, before⟩
  refine ⟨owner, own, ho, early, fun next hn => ?_⟩
  by_contra past
  exact last (owner + 1) (Nat.lt_succ_self owner) (row_of_methodList? hn).2 ⟨next, hn, by omega⟩

theorem methodList_of_typeDef {r : TypeDefRow} {entry : TypeDef} (h : m.typeDef r = .ok entry) :
    entry.methodList = r.methodList := by
  obtain ⟨space, -, h⟩ := bind_eq_ok_iff.1 h
  obtain ⟨name, -, h⟩ := bind_eq_ok_iff.1 h
  rw [← pure_eq_ok_iff.1 h]

theorem methodList?_of_decode? {start : Nat} (laid : m.tables.Laid start) {entry : TypeDef}
    (h : m.decode? m.typeDef row = some entry) : m.methodList? row = some entry.methodList := by
  obtain ⟨t, ht, decoded⟩ := Option.bind_eq_some_iff.1 h
  obtain ⟨r, hr, resolved⟩ := bind_eq_ok_iff.1 (toOption_eq_some_iff.1 decoded)
  rw [laid.table?_eq, Option.map_eq_some_iff] at ht
  obtain ⟨region, found, rfl⟩ := ht
  obtain ⟨bounds, d, read⟩ := RowTable.get_eq_ok_iff.1 hr
  have placed := TableStream.rowExtent?_eq_some_iff.2 ⟨region, found, bounds, rfl⟩
  have column := TypeDefRow.methodList_of_read (laid.rowExtent_inside placed).2 read
  rw [methodList_of_typeDef resolved, column]
  exact Option.bind_eq_some_iff.2 ⟨_, placed, rfl⟩

end Metadata

namespace Assembly

variable {m : Metadata} {identity : Identity} {row method : Nat} {start : Nat}

theorem takeWhile_eq_filter {α : Type} {p : α → Bool} {xs : List α}
    (closed : xs.Pairwise fun x y => p y = true → p x = true) : xs.takeWhile p = xs.filter p := by
  induction xs with
  | nil => rfl
  | cons x xs ih =>
    obtain ⟨first, rest⟩ := List.pairwise_cons.1 closed
    by_cases here : p x = true
    · rw [List.takeWhile_cons_of_pos here, List.filter_cons_of_pos here, ih rest]
    · have none : xs.filter p = [] :=
        List.filter_eq_nil_iff.2 fun y hy later => here (first y hy later)
      rw [List.takeWhile_cons_of_neg here, List.filter_cons_of_neg here, none]

def typeName? (a : Assembly) (row : Nat) : Option (String × String) :=
  (a.typeDef? row).map fun entry => (entry.space, entry.name)

theorem typeDef?_ofMetadata [Host] :
    (ofMetadata m identity).value.typeDef? row = m.decode? m.typeDef row :=
  Metadata.rowOf_kept m m.typeDef row

/-- A constructor's type is in the last readable row whose methods begin at or before it. -/
theorem constructorType?_eq_some_iff [Host] (laid : m.tables.Laid start) (ascend : m.MethodsAscend)
    {name : String × String} :
    (ofMetadata m identity).value.constructorType? ⟨.methodDef, method⟩ = some name ↔
      ∃ row entry, m.decode? m.typeDef row = some entry ∧ entry.methodList ≤ method ∧
        (entry.space, entry.name) = name ∧
        ∀ later other, row < later → m.decode? m.typeDef later = some other →
          method < other.methodList := by
  have rows : (ofMetadata m identity).value.typeDefs.toList.filterMap id =
      (List.range (m.tables.rowCount .typeDef)).filterMap fun i => m.decode? m.typeDef (i + 1) :=
    Metadata.filterMap_kept laid m.typeDef
  have list {row : Nat} {entry : TypeDef} (h : m.decode? m.typeDef row = some entry) :=
    Metadata.methodList?_of_decode? laid h
  have closed : ((List.range (m.tables.rowCount .typeDef)).filterMap fun i =>
      m.decode? m.typeDef (i + 1)).Pairwise fun x y =>
        decide (y.methodList ≤ method) = true → decide (x.methodList ≤ method) = true := by
    refine List.pairwise_filterMap.2 (List.pairwise_lt_range.imp fun {i j} lt x hx y hy early => ?_)
    have le := ascend.le (list hx) (list hy) (by omega)
    simp only [decide_eq_true_eq] at early ⊢
    omega
  have inside {row : Nat} {entry : TypeDef} (h : m.decode? m.typeDef row = some entry) :
      ∃ i < m.tables.rowCount .typeDef, row = i + 1 := by
    have bounds := Metadata.row_of_methodList? (list h)
    exact ⟨row - 1, by omega, by omega⟩
  simp only [constructorType?, rows]
  rw [takeWhile_eq_filter closed, List.filter_filterMap, Option.map_eq_some_iff]
  simp only [getLast?_filterMap_range, Option.filter_eq_some_iff, Option.filter_eq_none_iff,
    decide_eq_true_eq, Nat.not_le]
  constructor
  · rintro ⟨entry, ⟨i, -, ⟨here, early⟩, late⟩, named⟩
    refine ⟨i + 1, entry, here, early, named, fun later other lt h => ?_⟩
    obtain ⟨j, hj, rfl⟩ := inside h
    exact late j (by omega) hj other h
  · rintro ⟨row, entry, here, early, named, late⟩
    obtain ⟨i, hi, rfl⟩ := inside here
    exact ⟨entry, ⟨i, hi, ⟨here, early⟩, fun j lt _ other h => late (j + 1) other (by omega) h⟩, named⟩

/-- Whether an attribute's constructor that is a method has the type of the row that owns the method,
and none if there is no such row or it cannot be read. -/
def Attributed (a : Assembly) (m : Metadata) (method : Nat) : Prop :=
  ∀ name, a.constructorType? ⟨.methodDef, method⟩ = some name ↔
    ∃ owner, m.Owns owner method ∧ a.typeName? owner = some name

def Nearest (a : Assembly) (m : Metadata) (method row : Nat) : Prop :=
  ∃ owner, m.Owns owner method ∧ row ≤ owner ∧ (a.typeDef? row).isSome ∧
    ∀ between, row < between → between ≤ owner → a.typeDef? between = none

theorem constructorType?_iff_nearest [Host] (laid : m.tables.Laid start) (ascend : m.MethodsAscend)
    {name : String × String} :
    (ofMetadata m identity).value.constructorType? ⟨.methodDef, method⟩ = some name ↔
      ∃ row, (ofMetadata m identity).value.Nearest m method row ∧
        (ofMetadata m identity).value.typeName? row = some name := by
  simp only [constructorType?_eq_some_iff laid ascend, Nearest, typeName?, typeDef?_ofMetadata]
  have list {row : Nat} {entry : TypeDef} (h : m.decode? m.typeDef row = some entry) :=
    Metadata.methodList?_of_decode? laid h
  constructor
  · rintro ⟨row, entry, here, early, rfl, late⟩
    obtain ⟨owner, owns⟩ := Metadata.exists_owner (list here) early
    refine ⟨row, ⟨owner, owns, (ascend.le_iff_of_owns owns (list here)).1 early, by simp [here], ?_⟩,
      by simp [here]⟩
    intro between lt le
    by_contra some
    obtain ⟨other, h⟩ := Option.ne_none_iff_exists'.1 some
    have behind := late between other lt h
    have before := (ascend.le_iff_of_owns owns (list h)).2 le
    omega
  · rintro ⟨row, ⟨owner, owns, le, -, silent⟩, named⟩
    obtain ⟨entry, here, rfl⟩ := Option.map_eq_some_iff.1 named
    refine ⟨row, entry, here, (ascend.le_iff_of_owns owns (list here)).2 le, rfl, ?_⟩
    intro later other lt h
    by_contra early
    have before := (ascend.le_iff_of_owns owns (list h)).1 (by omega)
    rw [silent later lt before] at h
    cases h

theorem attributed_iff [Host] (laid : m.tables.Laid start) (ascend : m.MethodsAscend) :
    (ofMetadata m identity).value.Attributed m method ↔
      ∀ owner, m.Owns owner method → (ofMetadata m identity).value.typeDef? owner = none →
        ∀ row < owner, (ofMetadata m identity).value.typeDef? row = none := by
  generalize ha : (ofMetadata m identity).value = a
  have nearest {name : String × String} : a.constructorType? ⟨.methodDef, method⟩ = some name ↔
      ∃ row, a.Nearest m method row ∧ a.typeName? row = some name :=
    ha ▸ constructorType?_iff_nearest laid ascend
  simp only [Attributed, nearest]
  constructor
  · intro attributed owner owns lost row lt
    by_contra readable
    obtain ⟨last, le, some, silent⟩ := Metadata.exists_last (p := fun row => a.typeDef? row ≠ none)
      (Nat.le_of_lt lt) readable
    obtain ⟨entry, here⟩ := Option.ne_none_iff_exists'.1 some
    have found : a.Nearest m method last :=
      ⟨owner, owns, le, by simp [here], fun between lt le => not_not.1 (silent between lt le)⟩
    have named : a.typeName? last = .some (entry.space, entry.name) := by simp [typeName?, here]
    obtain ⟨other, ownsToo, readToo⟩ := (attributed _).1 ⟨last, found, named⟩
    obtain rfl := ascend.owner_unique owns ownsToo
    simp [typeName?, lost] at readToo
  · intro reach name
    constructor
    · rintro ⟨row, ⟨owner, owns, le, readable, silent⟩, named⟩
      refine ⟨owner, owns, ?_⟩
      rcases Nat.eq_or_lt_of_le le with rfl | lt
      · exact named
      · have lost := reach owner owns (silent owner lt (Nat.le_refl owner)) row lt
        simp [lost] at readable
    · rintro ⟨owner, owns, named⟩
      obtain ⟨entry, here, -⟩ := Option.map_eq_some_iff.1 named
      exact ⟨owner, ⟨owner, owns, Nat.le_refl owner, by simp [here], fun between lt le => by omega⟩,
        named⟩

/-- Where the methods of the types of an image ascend, a constructor that is a method is given the type
in the nearest readable row at or before its owner. This is the owner, as it should be, unless the
owner cannot be read and some row before it can. An attribute that is given to its owner states
something only as an attribute of the owner's type. -/
theorem ofFile_owners [Host] (data : ByteArray) (cancelled : Bool) (a : Assembly) (m : Metadata)
    (taken : (ofFile data cancelled).value = .ok a) (opened : Metadata.ofFile data = .ok m)
    (ascend : m.MethodsAscend) (method : Nat) :
    (∀ name, a.constructorType? ⟨.methodDef, method⟩ = some name ↔
      ∃ row, a.Nearest m method row ∧ a.typeName? row = some name) ∧
    (a.Attributed m method ↔ ∀ owner, m.Owns owner method → a.typeDef? owner = none →
      ∀ row < owner, a.typeDef? row = none) ∧
    (a.Attributed m method → ∀ (row : Nat) (entry : CustomAttributeRow) (kind : AttributeKind)
      (text : String), m.decode? .ok row = some entry → entry.constructor = ⟨.methodDef, method⟩ →
      a.States m kind row text → ∃ owner, m.Owns owner method ∧ a.typeName? owner = some kind.typeName) := by
  obtain ⟨_, identity, found, rfl⟩ := exists_ofMetadata_of_ofFile taken
  obtain rfl : m = _ := Except.ok.inj (opened.symm.trans found)
  obtain ⟨start, laid⟩ := Metadata.exists_laid opened
  refine ⟨fun name => constructorType?_iff_nearest laid ascend, attributed_iff laid ascend, ?_⟩
  rintro attributed row entry kind text read constructor ⟨other, value, same, -, declared, -⟩
  obtain rfl : entry = other := Option.some.inj (read.symm.trans same)
  exact (attributed kind.typeName).1 (constructor ▸ declared)

/-- Two types with a method each, of which only the first can be read: the base of the second one has
a tag that selects no table. The assembly has an attribute whose constructor is the method of the
second type. -/
def lostOwner : ByteArray :=
  Metadata.image
    [0, 0, 0, 0, 2, 0, 0, 1, 0x45, 0x10, 0, 0, 1, 0, 0, 0, 0, 0, 0, 0, 0, 0, 0, 0,
     1, 0, 0, 0, 2, 0, 0, 0, 2, 0, 0, 0, 1, 0, 0, 0, 1, 0, 0, 0,
     0, 0, 0, 0, 0, 0, 0, 0, 0, 0,
     0, 0, 0, 0, 27, 0, 1, 0, 0, 0, 1, 0, 1, 0,
     0, 0, 0, 0, 0, 0, 0, 0, 3, 0, 1, 0, 2, 0,
     0, 0, 0, 0, 0, 0, 0, 0, 0, 0, 0, 0, 1, 0,
     0, 0, 0, 0, 0, 0, 0, 0, 0, 0, 0, 0, 1, 0,
     46, 0, 18, 0, 1, 0,
     0, 0, 0, 0, 1, 0, 0, 0, 0, 0, 0, 0, 0, 0, 0, 0, 0, 0, 0, 0, 0, 0]
    (asciiTexts ["", "System.Runtime.Versioning", "TargetFrameworkAttribute"])
    [0, 6, 1, 0, 1, 0x41, 0, 0]

theorem lostOwner_passes : passes (fun a m => decide (m.MethodsAscend ∧
    m.methodList? 1 = some 1 ∧ m.methodList? 2 = some 2 ∧ m.methodList? 3 = none ∧
    a.typeName? 1 = some AttributeKind.framework.typeName ∧ a.typeDef? 2 = none ∧
    a.constructorType? ⟨.methodDef, 2⟩ = some AttributeKind.framework.typeName ∧
    a.framework = "A" ∧ statedRows a m .framework = [(1, "A")])) (Metadata.ofFile lostOwner) = true := by
  rw [lostOwner, Metadata.ofFile_image (by decide +kernel)]
  decide +kernel

/-- The first method is given to its owner, whose row is readable. -/
theorem ofFile_owners_of_first : ∃ a m,
    (ofFile lostOwner false).value = .ok a ∧ Metadata.ofFile lostOwner = .ok m ∧ m.MethodsAscend ∧
    m.Owns 1 1 ∧ a.Attributed m 1 ∧
    a.constructorType? ⟨.methodDef, 1⟩ = some AttributeKind.framework.typeName := by
  obtain ⟨a, m, taken, opened, facts⟩ := exists_of_passes lostOwner_passes
  obtain ⟨ascend, first, second, -, named, -⟩ := of_decide_eq_true facts
  have owns : m.Owns 1 1 := ⟨1, first, Nat.le_refl 1, fun next h => by
    obtain rfl := Option.some.inj (second.symm.trans h)
    omega⟩
  obtain ⟨-, given, -⟩ := ofFile_owners lostOwner false a m taken opened ascend 1
  have attributed : a.Attributed m 1 := given.2 fun owner ownsToo lost => by
    obtain rfl := ascend.owner_unique owns ownsToo
    simp [typeName?, lost] at named
  exact ⟨a, m, taken, opened, ascend, owns, attributed, (attributed _).2 ⟨1, owns, named⟩⟩

/-- The second method is given to the first type, and so is the attribute: the framework is the text of
an attribute whose type cannot be read. -/
theorem not_attributed_of_lostOwner : ∃ a m,
    (ofFile lostOwner false).value = .ok a ∧ Metadata.ofFile lostOwner = .ok m ∧ m.MethodsAscend ∧
    m.Owns 2 2 ∧ a.typeDef? 2 = none ∧
    a.constructorType? ⟨.methodDef, 2⟩ = some AttributeKind.framework.typeName ∧
    ¬ a.Attributed m 2 ∧ a.States m .framework 1 "A" ∧ a.framework = "A" := by
  obtain ⟨a, m, taken, opened, facts⟩ := exists_of_passes lostOwner_passes
  obtain ⟨ascend, -, second, third, -, lost, given, framework, stated⟩ := of_decide_eq_true facts
  have owns : m.Owns 2 2 := ⟨2, second, Nat.le_refl 2, fun next h => by
    rw [third] at h
    cases h⟩
  have unlike : ¬ a.Attributed m 2 := by
    intro attributed
    obtain ⟨owner, ownsToo, named⟩ := (attributed _).1 given
    obtain rfl := ascend.owner_unique owns ownsToo
    simp [typeName?, lost] at named
  have states : a.States m .framework 1 "A" := mem_statedRows.1 (by simp [stated])
  exact ⟨a, m, taken, opened, ascend, owns, lost, given, unlike, states, framework⟩

end Assembly

end FrameworkAudit
