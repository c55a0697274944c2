import FrameworkAudit.Proofs.Encoding
import FrameworkAudit.Proofs.Metadata.Image
import Mathlib.Order.Monotone.Basic

/-!
The framework and the file version of an assembly. Each of them is what the last attribute of its kind
states, in the order of the table, and a default if none states it. A row that cannot be read, a value
that is no text, and attributes of the other kind state nothing.
-/

set_option autoImplicit false

namespace FrameworkAudit

open Bytes

namespace Read

variable {α : Type}

theorem run_eq_ok_iff {read : Read α} {data : ByteArray} {value : α} :
    run read data = .ok value ↔ ∃ d, read (.ofBytes data) = .ok value d :=
  runAt_eq_ok_iff

end Read

namespace Assembly

/-- An attribute's value that gives a text: the prolog, and the text with its length in front. -/
def HoldsText (value : ByteArray) (text : String) : Prop :=
  ∃ w : NumberWidth, text.utf8ByteSize < w.limit ∧
    [1, 0] ++ Read.textBytes w text <+: value.toList

theorem readArgument_ok_iff {value : ByteArray} {text : String} :
    Read.run readArgument value = .ok (some text) ↔ HoldsText value text := by
  simp only [Read.run_eq_ok_iff, readArgument, Read.bind_ok_iff, Read.check_ok_iff,
    Read.serialString_ok_iff, Read.word_ok_iff_next Nat.two_pos, HoldsText,
    ← Cursor.next_ofBytes_iff, Cursor.next_append_iff]
  constructor
  · rintro ⟨d, n, _, ⟨⟨-, first⟩, rfl⟩, one, w, fits, next, rfl⟩
    obtain rfl : n = attributeProlog := Decidable.not_not.1 one
    exact ⟨w, fits, first, next⟩
  · rintro ⟨w, fits, first, next⟩
    exact ⟨_, attributeProlog, _, ⟨⟨by decide, first⟩, rfl⟩, not_not.2 rfl, w, fits, next, rfl⟩

end Assembly

namespace AttributeKind

variable {kind : AttributeKind} {name : String × String}

theorem ofTypeName?_eq_some_iff : ofTypeName? name = some kind ↔ name = kind.typeName := by
  constructor
  · intro h
    rw [ofTypeName?] at h
    have found := List.find?_some h
    exact (beq_iff_eq.1 found).symm
  · rintro rfl
    cases kind <;> decide

theorem bind_ofTypeName?_eq_some_iff {name? : Option (String × String)} :
    name?.bind ofTypeName? = some kind ↔ name? = some kind.typeName := by
  simp only [Option.bind_eq_some_iff, ofTypeName?_eq_some_iff, exists_eq_right]

def value (a : Assembly) : AttributeKind → String
  | .framework => a.framework
  | .fileVersion => a.fileVersion

def default (a : Assembly) : AttributeKind → String
  | .framework => ""
  | .fileVersion => a.identity.version.text

end AttributeKind

namespace Assembly

variable {a b : Assembly} {m n : Metadata} {kind : AttributeKind} {row : Nat} {text : String}

def States (a : Assembly) (m : Metadata) (kind : AttributeKind) (row : Nat) (text : String) : Prop :=
  ∃ (entry : CustomAttributeRow) (value : ByteArray), m.decode? .ok row = some entry ∧
    entry.parent.table = .assembly ∧
    a.constructorType? entry.constructor = some kind.typeName ∧
    m.blob entry.value = .ok value ∧ HoldsText value text

def StatesLast (a : Assembly) (m : Metadata) (kind : AttributeKind) (text : String) : Prop :=
  ∃ row, States a m kind row text ∧ ∀ later other, States a m kind later other → later ≤ row

def said? (kind : AttributeKind) : AttributeOutcome → Option String
  | .argument found (.ok (some text)) => if found = kind then some text else none
  | _ => none

theorem said?_eq_some_iff {outcome : AttributeOutcome} :
    said? kind outcome = some text ↔ outcome = .argument kind (.ok (some text)) := by
  unfold said?
  split
  · rename_i found said
    by_cases same : found = kind
    · simp [same]
    · simp [same]
  · rename_i other
    simp only [reduceCtorEq, false_iff]
    exact other kind text

theorem attributeOutcome_eq_iff {read : Except Error CustomAttributeRow} :
    a.attributeOutcome m read = .argument kind (.ok (some text)) ↔
      ∃ (entry : CustomAttributeRow) (value : ByteArray), read = .ok entry ∧
        entry.parent.table = .assembly ∧
        a.constructorType? entry.constructor = some kind.typeName ∧
        m.blob entry.value = .ok value ∧ HoldsText value text := by
  cases read with
  | error e => simp [attributeOutcome]
  | ok entry =>
    have argument : (m.blob entry.value).bind (Read.run readArgument) = .ok (some text) ↔
        ∃ value, m.blob entry.value = .ok value ∧ HoldsText value text := by
      simp only [← readArgument_ok_iff]
      exact bind_eq_ok_iff
    simp only [attributeOutcome, Except.ok.injEq, exists_and_left, exists_eq_left',
      ← AttributeKind.bind_ofTypeName?_eq_some_iff]
    by_cases own : entry.parent.table = .assembly
    · rw [if_neg (not_not.2 own)]
      cases (a.constructorType? entry.constructor).bind AttributeKind.ofTypeName? with
      | none => simp
      | some found =>
        simp only [AttributeOutcome.argument.injEq, Option.some.injEq, argument, own, true_and]
    · simp [own]

theorem getLast?_filterMap_range {β : Type} {f : Nat → Option β} {n : Nat} {b : β} :
    ((List.range n).filterMap f).getLast? = some b ↔
      ∃ i < n, f i = some b ∧ ∀ j, i < j → j < n → f j = none := by
  induction n with
  | zero => simp
  | succ n ih =>
    rw [List.range_succ, List.filterMap_append, List.getLast?_append]
    cases here : f n with
    | none =>
      simp only [List.filterMap_cons, here, List.filterMap_nil, List.getLast?_nil, Option.none_or, ih]
      constructor
      · rintro ⟨i, hi, said, silent⟩
        refine ⟨i, by omega, said, fun j hij hj => ?_⟩
        rcases Nat.eq_or_lt_of_le (Nat.le_of_lt_succ hj) with rfl | hlt
        · exact here
        · exact silent j hij hlt
      · rintro ⟨i, hi, said, silent⟩
        have other : i ≠ n := fun e => by simp [e, here] at said
        exact ⟨i, by omega, said, fun j hij hj => silent j hij (by omega)⟩
    | some c =>
      simp only [List.filterMap_cons, here, List.filterMap_nil, List.getLast?_singleton, Option.some_or]
      constructor
      · intro same
        exact ⟨n, Nat.lt_succ_self n, here.trans same, fun j hj hlt => by omega⟩
      · rintro ⟨i, hi, said, silent⟩
        rcases Nat.eq_or_lt_of_le (Nat.le_of_lt_succ hi) with rfl | hlt
        · exact here.symm.trans said
        · rw [silent n hlt (Nat.lt_succ_self n)] at here
          cases here

def stated? (a : Assembly) (m : Metadata) (kind : AttributeKind) (row : Nat) : Option String := do
  let table ← m.tables.table? CustomAttributeRow
  said? kind (a.attributeOutcome m (table.get row))

theorem states_iff : States a m kind row text ↔ a.stated? m kind row = some text := by
  have keep (read : Except Error CustomAttributeRow) : read.bind .ok = read := by
    cases read <;> rfl
  simp only [States, stated?, Metadata.decode?, Option.bind_eq_bind, keep]
  cases m.tables.table? CustomAttributeRow with
  | none => simp
  | some table =>
    simp only [Option.bind_some, toOption_eq_some_iff, said?_eq_some_iff, attributeOutcome_eq_iff]

theorem row_of_stated? {table : RowTable CustomAttributeRow}
    (opened : m.tables.table? CustomAttributeRow = some table)
    (h : a.stated? m kind row = some text) : ∃ i < table.count, row = i + 1 := by
  simp only [stated?, opened, Option.bind_eq_bind, Option.bind_some] at h
  obtain ⟨entry, -, read, -⟩ := attributeOutcome_eq_iff.1 (said?_eq_some_iff.1 h)
  obtain ⟨bounds, -⟩ := RowTable.get_eq_ok_iff.1 read
  exact ⟨row - 1, by omega, by omega⟩

def statedRows (a : Assembly) (m : Metadata) (kind : AttributeKind) : List (Nat × String) :=
  match m.tables.table? CustomAttributeRow with
  | none => []
  | some table =>
    (List.range table.count).filterMap fun i => (a.stated? m kind (i + 1)).map (i + 1, ·)

theorem mem_statedRows : (row, text) ∈ statedRows a m kind ↔ States a m kind row text := by
  rw [states_iff, statedRows]
  cases opened : m.tables.table? CustomAttributeRow with
  | none => simp [stated?, opened]
  | some table =>
    simp only [List.mem_filterMap, List.mem_range, Option.map_eq_some_iff, Prod.mk.injEq]
    constructor
    · rintro ⟨i, -, other, said, rfl, rfl⟩
      exact said
    · intro said
      obtain ⟨i, hi, rfl⟩ := row_of_stated? opened said
      exact ⟨i, hi, text, said, rfl, rfl⟩

theorem attributeValue?_eq {table : RowTable CustomAttributeRow}
    (opened : m.tables.table? CustomAttributeRow = some table) :
    attributeValue? kind (a.attributeOutcomes m) =
      ((List.range table.count).filterMap fun i => a.stated? m kind (i + 1)).getLast? := by
  simp only [attributeValue?, attributeOutcomes, stated?, opened, RowTable.toList, List.map_map,
    List.filterMap_map, Option.bind_eq_bind, Option.bind_some]
  rfl

theorem attributeValue?_eq_some_iff :
    attributeValue? kind (a.attributeOutcomes m) = some text ↔ StatesLast a m kind text := by
  simp only [StatesLast, states_iff]
  cases opened : m.tables.table? CustomAttributeRow with
  | none => simp [attributeValue?, attributeOutcomes, stated?, opened]
  | some table =>
    rw [attributeValue?_eq opened, getLast?_filterMap_range]
    constructor
    · rintro ⟨i, hi, said, silent⟩
      refine ⟨i + 1, said, fun later other h => ?_⟩
      obtain ⟨j, hj, rfl⟩ := row_of_stated? opened h
      by_contra past
      rw [silent j (by omega) hj] at h
      cases h
    · rintro ⟨row, said, last⟩
      obtain ⟨i, hi, rfl⟩ := row_of_stated? opened said
      refine ⟨i, hi, said, fun j hij hj => ?_⟩
      by_contra some
      obtain ⟨other, h⟩ := Option.ne_none_iff_exists'.1 some
      have early := last (j + 1) other h
      omega

theorem attributeValue?_eq_none_iff :
    attributeValue? kind (a.attributeOutcomes m) = none ↔ ∀ row text, ¬ States a m kind row text := by
  simp only [states_iff]
  cases opened : m.tables.table? CustomAttributeRow with
  | none => simp [attributeValue?, attributeOutcomes, stated?, opened]
  | some table =>
    rw [attributeValue?_eq opened, List.getLast?_eq_none_iff, List.filterMap_eq_nil_iff]
    constructor
    · intro silent row text h
      obtain ⟨i, hi, rfl⟩ := row_of_stated? opened h
      rw [silent i (List.mem_range.2 hi)] at h
      cases h
    · intro silent i _
      exact Option.eq_none_iff_forall_ne_some.2 (silent (i + 1))

theorem value_ofMetadata [Host] (identity : Identity) (kind : AttributeKind) :
    kind.value (ofMetadata m identity).value =
      (attributeValue? kind ((ofMetadata m identity).value.attributeOutcomes m)).getD
        (kind.default (ofMetadata m identity).value) := by
  cases kind <;> rfl

/-- Rows of two images that state the same texts of a kind in the same order, whatever else the
tables of these images hold and wherever the rows stand. -/
def SameStated (a : Assembly) (m : Metadata) (b : Assembly) (n : Metadata) (kind : AttributeKind) :
    Prop :=
  ∃ place : Nat → Nat, StrictMono place ∧
    ∀ row text, States b n kind row text ↔ ∃ own, place own = row ∧ States a m kind own text

theorem SameStated.statesLast_iff (h : SameStated a m b n kind) :
    StatesLast b n kind text ↔ StatesLast a m kind text := by
  obtain ⟨place, ordered, same⟩ := h
  constructor
  · rintro ⟨row, said, last⟩
    obtain ⟨own, rfl, saidFirst⟩ := (same row text).1 said
    refine ⟨own, saidFirst, fun later other h => ?_⟩
    exact ordered.le_iff_le.1 (last _ other ((same _ other).2 ⟨later, rfl, h⟩))
  · rintro ⟨own, said, last⟩
    refine ⟨place own, (same _ text).2 ⟨own, rfl, said⟩, fun later other h => ?_⟩
    obtain ⟨before, rfl, saidBefore⟩ := (same later other).1 h
    exact ordered.monotone (last before other saidBefore)

theorem SameStated.silent_iff (h : SameStated a m b n kind) :
    (∀ row text, ¬ States b n kind row text) ↔ ∀ row text, ¬ States a m kind row text := by
  obtain ⟨place, -, same⟩ := h
  constructor
  · intro silent own text said
    exact silent (place own) text ((same _ text).2 ⟨own, rfl, said⟩)
  · intro silent row text said
    obtain ⟨own, -, saidFirst⟩ := (same row text).1 said
    exact silent own text saidFirst

theorem value_eq_iff [Host] (identity : Identity) :
    kind.value (ofMetadata m identity).value = text ↔
      StatesLast (ofMetadata m identity).value m kind text ∨
        (∀ row other, ¬ States (ofMetadata m identity).value m kind row other) ∧
          text = kind.default (ofMetadata m identity).value := by
  rw [value_ofMetadata, ← attributeValue?_eq_some_iff, ← attributeValue?_eq_none_iff]
  cases attributeValue? kind ((ofMetadata m identity).value.attributeOutcomes m) with
  | none => simp [eq_comm]
  | some last => simp

/-- The framework and the file version of an assembly that is taken from a file are what the last
rows of their kinds state. The framework is empty if no row states one, and the file version is then
the version of the assembly. Nothing else in an image bears on a value: it is the same for any two
images whose rows state the same texts of its kind in the same order. -/
theorem ofFile_values [Host] (data : ByteArray) (cancelled : Bool) (a : Assembly)
    (taken : (ofFile data cancelled).value = .ok a) :
    ∃ m, Metadata.ofFile data = .ok m ∧
      (∀ kind text, kind.value a = text ↔
        StatesLast a m kind text ∨
          (∀ row other, ¬ States a m kind row other) ∧ text = kind.default a) ∧
      ∀ other stop b n, (ofFile other stop).value = .ok b → Metadata.ofFile other = .ok n →
        ∀ kind, SameStated a m b n kind → kind.default b = kind.default a →
          kind.value b = kind.value a := by
  obtain ⟨m, identity, opened, rfl⟩ := exists_ofMetadata_of_ofFile taken
  refine ⟨m, opened, fun kind text => value_eq_iff identity, ?_⟩
  intro other stop b n hb hn kind same default
  obtain ⟨_, second, found, rfl⟩ := exists_ofMetadata_of_ofFile hb
  obtain rfl : n = _ := Except.ok.inj (hn.symm.trans found)
  rw [value_eq_iff, default, same.statesLast_iff, same.silent_iff, ← value_eq_iff]

theorem sameStated_of_statedRows (ha : statedRows a m kind = []) (hb : statedRows b n kind = []) :
    SameStated a m b n kind := by
  refine ⟨id, strictMono_id, fun row text => ?_⟩
  simp only [← mem_statedRows, ha, hb, List.not_mem_nil, and_false, exists_false]

/-- Six attributes of one type: a row that cannot be read, the text `A`, no text, an attribute of the
module, the text `B`, and a value with another prolog. -/
def mixed : ByteArray :=
  Metadata.image
    [0, 0, 0, 0, 2, 0, 0, 1, 3, 0x14, 0, 0, 0, 0, 0, 0, 0, 0, 0, 0, 0, 0, 0, 0,
     1, 0, 0, 0, 1, 0, 0, 0, 1, 0, 0, 0, 6, 0, 0, 0,
     0, 0, 0, 0, 0, 0, 0, 0, 0, 0,
     4, 0, 27, 0, 1, 0,
     9, 0, 0, 0, 0, 0,
     31, 0, 11, 0, 10, 0, 46, 0, 11, 0, 1, 0, 46, 0, 11, 0, 6, 0,
     39, 0, 11, 0, 1, 0, 46, 0, 11, 0, 10, 0, 46, 0, 11, 0, 15, 0]
    (asciiTexts ["", "System.Runtime.Versioning", "TargetFrameworkAttribute"])
    [0, 4, 1, 0, 1, 0x41, 3, 1, 0, 0xFF, 4, 1, 0, 1, 0x42, 4, 2, 0, 1, 0x43]

def moduleOnly : ByteArray :=
  Metadata.image
    [0, 0, 0, 0, 2, 0, 0, 1, 1, 0, 0, 0, 0, 0, 0, 0, 0, 0, 0, 0, 0, 0, 0, 0,
     1, 0, 0, 0, 0, 0, 0, 0, 0, 0, 0, 0, 0, 0] [0] [0]

/-- The attributes of the one image say nothing of the file version, so it is that of the other. -/
theorem ofFile_values_mixed : ∃ a m b n,
    (ofFile mixed false).value = .ok a ∧ Metadata.ofFile mixed = .ok m ∧
    (ofFile moduleOnly false).value = .ok b ∧ Metadata.ofFile moduleOnly = .ok n ∧
    StatesLast a m .framework "B" ∧ a.framework = "B" ∧
    SameStated a m b n .fileVersion ∧ b.fileVersion = a.fileVersion := by
  have first : passes (fun a m => decide (statedRows a m .framework = [(2, "A"), (5, "B")] ∧
      statedRows a m .fileVersion = [] ∧ AttributeKind.fileVersion.default a = "0.0.0.0"))
      (Metadata.ofFile mixed) = true := by
    rw [mixed, Metadata.ofFile_image (by decide)]
    decide +kernel
  have second : passes (fun a m => decide (statedRows a m .fileVersion = [] ∧
      AttributeKind.fileVersion.default a = "0.0.0.0")) (Metadata.ofFile moduleOnly) = true := by
    rw [moduleOnly, Metadata.ofFile_image (by decide)]
    decide +kernel
  obtain ⟨a, m, ha, hm, facts⟩ := exists_of_passes first
  obtain ⟨frameworks, versions, own⟩ := of_decide_eq_true facts
  obtain ⟨b, n, hb, hn, facts⟩ := exists_of_passes second
  obtain ⟨others, default⟩ := of_decide_eq_true facts
  obtain ⟨_, opened, values, alone⟩ := ofFile_values mixed false a ha
  obtain rfl : m = _ := Except.ok.inj (hm.symm.trans opened)
  have last : StatesLast a m .framework "B" := by
    refine ⟨5, mem_statedRows.1 (by simp [frameworks]), fun later other h => ?_⟩
    have listed := mem_statedRows.2 h
    rw [frameworks] at listed
    simp at listed
    omega
  have same := sameStated_of_statedRows versions others
  exact ⟨a, m, b, n, ha, hm, hb, hn, last, (values .framework "B").2 (.inl last), same,
    alone moduleOnly false b n hb hn .fileVersion same (default.trans own.symm)⟩

end Assembly

end FrameworkAudit
