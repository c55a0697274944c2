import FrameworkAudit.Proofs.Dependency.Mention
import FrameworkAudit.Proofs.Resolution
import Mathlib.Data.Nat.Find

set_option autoImplicit false

namespace FrameworkAudit.Finder

variable {f : Finder} {a : Assembly} {row : Nat} {core? : Option Identity} {e : Error}

/-- The assembly that defines a member: the one of its declaring type, and the core library if a
signature writes that type as a byte. -/
def definingAssembly? (f : Finder) (a : Assembly) (m : MemberShape) : Option Identity :=
  if m.parent.isPrimitive then f.coreLibrary? a else m.parent.assembly?

/-- Whether a row refers to a member of a primitive type and the assembly has no core library. -/
def Lacks (f : Finder) (a : Assembly) (row : Nat) : Prop :=
  f.coreLibrary? a = none ∧ ∃ m t, a.memberShape row = .ok (some m) ∧
    m.parent.core? = some t ∧ t.isPrimitive = true

def Overflows (f : Finder) (a : Assembly) (row : Nat) : Prop :=
  ∃ m, a.memberShape row = .ok (some m) ∧ (f.definingAssembly? a m).isSome = true ∧
    m.isWritable = false

theorem overflows_iff_any : Overflows f a row ↔ (a.memberShape row).toOption.join.any
    (fun m => (f.definingAssembly? a m).isSome && !m.isWritable) = true := by
  cases resolved : a.memberShape row with
  | error e => simp [Overflows, resolved, Except.toOption]
  | ok m? => cases m? <;> simp [Overflows, resolved, Except.toOption]

instance : Decidable (Overflows f a row) := decidable_of_iff _ overflows_iff_any.symm

def Reaches (f : Finder) (a : Assembly) (row : Nat) : Prop :=
  ∀ earlier < row, ¬ f.Lacks a earlier ∧ ¬ f.Overflows a earlier

theorem skipping_eq (table : TableId) (row : Nat) (h : e.isMalformedInput = true) :
    skipping table row e = .ok (.skipped table row e) := by
  rw [skipping, if_pos h]

theorem typeRefOutcome_ne_error : typeRefOutcome a row ≠ .error e := by
  unfold typeRefOutcome
  cases resolved : a.typeRefShape row with
  | error d => simp [skipping_eq _ _ (Assembly.isMalformedInput_of_typeRefChain resolved)]
  | ok t => simp

theorem memberOutcome_eq_error_iff {m : MemberShape} {definedIn : Identity} :
    memberOutcome a m definedIn = .error e ↔ e = .arityOverflow ∧ m.isWritable = false := by
  unfold memberOutcome
  split <;> simp [*, eq_comm (a := e)]

theorem lacks_iff : f.Lacks a row ↔ ∃ m, a.memberShape row = .ok (some m) ∧
    m.parent.isPrimitive = true ∧ f.coreLibrary? a = none := by
  simp only [Lacks, TypeShape.isPrimitive, Option.any_eq_true]
  grind

theorem memberRefOutcome_eq_error_iff [Host] : memberRefOutcome (f.coreLibrary? a) a row = .error e ↔
    e = .missingCoreLibrary a.identity.display ∧ f.Lacks a row ∨
      e = .arityOverflow ∧ f.Overflows a row := by
  rw [lacks_iff, Overflows]
  unfold memberRefOutcome definingAssembly?
  cases resolved : a.memberShape row with
  | error d => simp [skipping_eq _ _ (Assembly.isMalformedInput_of_memberShape resolved)]
  | ok m? =>
    cases m? with
    | none => simp
    | some m =>
      by_cases primitive : m.parent.isPrimitive = true
      · cases f.coreLibrary? a <;>
          simp [primitive, memberOutcome_eq_error_iff, eq_comm (a := e)]
      · simp only [if_neg primitive]
        cases defined : m.parent.assembly? <;> simp [primitive, defined, memberOutcome_eq_error_iff]

theorem mem_rowNumbers_iff {count : Nat} : row ∈ rowNumbers count ↔ 0 < row ∧ row ≤ count := by
  simp only [rowNumbers, List.mem_map, List.mem_range]
  constructor
  · rintro ⟨i, hi, rfl⟩
    omega
  · rintro ⟨hpos, hrow⟩
    exact ⟨row - 1, by omega, by omega⟩

theorem mem_rowNumbers_of_rowOf {α : Type} {rows : Array (Option α)} {entry : α}
    (h : Assembly.rowOf rows row = some entry) : row ∈ rowNumbers rows.size := by
  rw [mem_rowNumbers_iff]
  cases row with
  | zero => cases h
  | succ i =>
    have inside : i < rows.size := by
      by_contra past
      simp [Assembly.rowOf, Array.getElem?_eq_none (Nat.le_of_not_lt past)] at h
    omega

theorem mem_rowNumbers_of_memberShape {m? : Option MemberShape} (h : a.memberShape row = .ok m?) :
    row ∈ rowNumbers a.memberRefs.size := by
  cases here : a.memberRef? row with
  | none =>
    rw [Assembly.memberShape_of_missing here] at h
    cases h
  | some entry => exact mem_rowNumbers_of_rowOf here

theorem pairwise_rowNumbers (count : Nat) : (rowNumbers count).Pairwise (· < ·) := by
  rw [rowNumbers, List.pairwise_map]
  exact List.pairwise_lt_range.imp Nat.succ_lt_succ

theorem find?_eq_some_iff_of_ordered {p : Nat → Bool} {n : Nat} {l : List Nat}
    (ordered : l.Pairwise (· < ·)) : l.find? p = some n ↔
      n ∈ l ∧ p n = true ∧ ∀ m ∈ l, m < n → p m = false := by
  induction l with
  | nil => simp
  | cons m l ih =>
    obtain ⟨later, rest⟩ := List.pairwise_cons.1 ordered
    by_cases met : p m = true
    · rw [List.find?_cons_of_pos met]
      grind
    · rw [List.find?_cons_of_neg met, ih rest]
      grind

/-- The first row that fails decides. -/
theorem mapM_rowNumbers_eq_error_iff {α : Type} {step : Nat → Except Error α} {count : Nat} :
    (rowNumbers count).mapM step = .error e ↔ ∃ row ∈ rowNumbers count, step row = .error e ∧
      ∀ earlier ∈ rowNumbers count, earlier < row → ∀ d, step earlier ≠ .error d := by
  have sound (row : Nat) : (step row).toOption.isNone = false ↔ ∀ d, step row ≠ .error d := by
    cases step row <;> simp [toOption_ok, toOption_error]
  rw [mapM_eq_error_iff]
  refine exists_congr fun row => ?_
  rw [find?_eq_some_iff_of_ordered (pairwise_rowNumbers count)]
  simp only [sound]
  constructor
  · rintro ⟨⟨mem, -, before⟩, failed⟩
    exact ⟨mem, failed, before⟩
  · rintro ⟨mem, failed, before⟩
    exact ⟨⟨mem, by rw [failed, toOption_error, Option.isNone_none], before⟩, failed⟩

theorem mapM_outcomes_eq_error_iff [Host] : (f.outcomes a).mapM id = .error e ↔
    (rowNumbers a.memberRefs.size).mapM (memberRefOutcome (f.coreLibrary? a) a) = .error e := by
  have types : ∃ found, ((rowNumbers a.typeRefs.size).map (typeRefOutcome a)).mapM id =
      .ok found := by
    cases result : ((rowNumbers a.typeRefs.size).map (typeRefOutcome a)).mapM id with
    | ok found => exact ⟨found, rfl⟩
    | error d =>
      obtain ⟨outcome, mem, failed⟩ := exists_of_mapM_eq_error result
      obtain ⟨row, -, rfl⟩ := List.mem_map.1 mem
      exact absurd failed typeRefOutcome_ne_error
  obtain ⟨found, types⟩ := types
  rw [outcomes, List.mapM_append, types]
  simp [bind_eq_error_iff, pure, Except.pure]

theorem find_eq_error_iff [Host] : (f.find a false).value = .error e ↔ ∃ row, f.Reaches a row ∧
    (e = .missingCoreLibrary a.identity.display ∧ f.Lacks a row ∨
      e = .arityOverflow ∧ f.Overflows a row) := by
  have failed : (f.find a false).value = .error e ↔ (f.outcomes a).mapM id = .error e := by
    unfold find
    cases rows : (f.outcomes a).mapM id <;> simp [rows]
  have listed (row : Nat) (h : f.Lacks a row ∨ f.Overflows a row) :
      row ∈ rowNumbers a.memberRefs.size := by
    rcases h with ⟨-, m, t, resolved, -⟩ | ⟨m, resolved, -⟩ <;>
      exact mem_rowNumbers_of_memberShape resolved
  rw [failed, mapM_outcomes_eq_error_iff, mapM_rowNumbers_eq_error_iff]
  simp only [memberRefOutcome_eq_error_iff]
  refine exists_congr fun row => ?_
  constructor
  · rintro ⟨mem, ends, sound⟩
    refine ⟨fun earlier less => ⟨fun lacks => ?_, fun overflows => ?_⟩, ends⟩
    · exact sound earlier (listed _ (.inl lacks)) less _
        (memberRefOutcome_eq_error_iff.2 (.inl ⟨rfl, lacks⟩))
    · exact sound earlier (listed _ (.inr overflows)) less _
        (memberRefOutcome_eq_error_iff.2 (.inr ⟨rfl, overflows⟩))
  · rintro ⟨reaches, ends⟩
    refine ⟨listed _ (ends.imp And.right And.right), ends, fun earlier _ less d failed => ?_⟩
    obtain ⟨-, lacks⟩ | ⟨-, overflows⟩ := memberRefOutcome_eq_error_iff.1 failed
    · exact (reaches earlier less).1 lacks
    · exact (reaches earlier less).2 overflows

theorem exists_reaches (h : f.Lacks a row ∨ f.Overflows a row) :
    ∃ first, f.Reaches a first ∧ (f.Lacks a first ∨ f.Overflows a first) := by
  classical
  have some : ∃ row, f.Lacks a row ∨ f.Overflows a row := ⟨row, h⟩
  exact ⟨Nat.find some, fun earlier less => not_or.1 (Nat.find_min some less), Nat.find_spec some⟩

theorem exists_found_iff [Host] : (∃ found, (f.find a false).value = .ok found) ↔
    ∀ row, ¬ f.Lacks a row ∧ ¬ f.Overflows a row := by
  cases result : (f.find a false).value with
  | ok found =>
    simp only [Except.ok.injEq, exists_eq', true_iff, ← not_or]
    intro row ends
    obtain ⟨first, reaches, ends⟩ := exists_reaches ends
    have failed {e : Error} (h : e = .missingCoreLibrary a.identity.display ∧ f.Lacks a first ∨
        e = .arityOverflow ∧ f.Overflows a first) : False := by
      simp [find_eq_error_iff.2 ⟨first, reaches, h⟩] at result
    rcases ends with lacks | overflows
    · exact failed (.inl ⟨rfl, lacks⟩)
    · exact failed (.inr ⟨rfl, overflows⟩)
  | error e =>
    obtain ⟨row, -, ends⟩ := find_eq_error_iff.1 result
    simp only [reduceCtorEq, exists_false, false_iff]
    intro none
    rcases ends with ⟨-, lacks⟩ | ⟨-, overflows⟩
    · exact (none row).1 lacks
    · exact (none row).2 overflows

/-- Where there is a core library, a member that cannot be written always ends the search. -/
theorem find_of_overflows [Host] (core : (f.coreLibrary? a).isSome = true)
    (h : f.Overflows a row) : (f.find a false).value = .error .arityOverflow := by
  obtain ⟨first, reaches, ⟨missing, -⟩ | overflows⟩ := exists_reaches (.inr h)
  · simp [missing] at core
  · exact find_eq_error_iff.2 ⟨first, reaches, .inr ⟨rfl, overflows⟩⟩

/-- A search that no one has stopped fails at the first row that refers to a member of a primitive type
where there is no core library, or to a member that cannot be written, and it has a result if there
is no such row; nothing else that is wrong with the rows makes it fail, as every reason for which a row
cannot be resolved is damage. So a member without a core library is missed exactly if there is one, as
long as all members can be written. -/
theorem find_outcome [Host] (f : Finder) (a : Assembly) :
    (f.find a true).value = .error .cancelled ∧
      (∀ e, (f.find a false).value = .error e ↔ ∃ row, f.Reaches a row ∧
        (e = .missingCoreLibrary a.identity.display ∧ f.Lacks a row ∨
          e = .arityOverflow ∧ f.Overflows a row)) ∧
      ((∃ found, (f.find a false).value = .ok found) ↔
        ∀ row, ¬ f.Lacks a row ∧ ¬ f.Overflows a row) ∧
      ((∀ row, ¬ f.Overflows a row) →
        ((f.find a false).value = .error (.missingCoreLibrary a.identity.display) ↔
          ∃ row, f.Lacks a row)) ∧
      (∀ row e, a.typeRefShape row = .error e → e.isMalformedInput = true) ∧
      ∀ row e, a.memberShape row = .error e → e.isMalformedInput = true := by
  refine ⟨rfl, fun e => find_eq_error_iff, exists_found_iff, fun written => ?_,
    fun _ _ => Assembly.isMalformedInput_of_typeRefChain,
    fun _ _ => Assembly.isMalformedInput_of_memberShape⟩
  rw [find_eq_error_iff]
  constructor
  · rintro ⟨row, -, ⟨-, lacks⟩ | ⟨-, overflows⟩⟩
    · exact ⟨row, lacks⟩
    · exact absurd overflows (written row)
  · rintro ⟨row, lacks⟩
    obtain ⟨first, reaches, lacks | overflows⟩ := exists_reaches (.inl lacks)
    · exact ⟨first, reaches, .inl ⟨rfl, lacks⟩⟩
    · exact absurd overflows (written first)

/-- The caller of a method with a parameter of the type `B` in `A` on one argument. The name of `A`
marks that argument, and the one of `B` as many as 64 bits can count. -/
def overfullCaller : Assembly where
  identity := ⟨"App", .zero, none, none⟩
  framework := ""
  fileVersion := "0.0.0.0"
  assemblyRefs := #[some coreReference]
  typeRefs := #[some ⟨"N", "A`1", ⟨.assemblyRef, 1⟩⟩,
    some ⟨"", "B`18446744073709551615", ⟨.typeRef, 1⟩⟩]
  typeDefs := #[]
  typeSpecs := #[]
  memberRefs := #[some ⟨"F", ⟨.typeRef, 1⟩, ⟨#[0, 1, 1, 0x15, 0x12, 9, 1, 8]⟩⟩]
  nesting := []

theorem find_overfullCaller : (standard.find overfullCaller false).value = .error .arityOverflow :=
  have met : standard.Overflows overfullCaller 1 := by decide +kernel
  find_of_overflows (by decide +kernel) met

/-- There is a core library, and still there is no result. -/
theorem not_found_or_lacks : ¬ ∀ (f : Finder) (a : Assembly),
    (∃ row, f.Lacks a row) ∨ ∃ found, (f.find a false).value = .ok found := by
  intro ends
  obtain ⟨row, missing, -⟩ | ⟨found, result⟩ := ends standard overfullCaller
  · exact absurd missing (by decide +kernel)
  · exact nomatch find_overfullCaller.symm.trans result

end FrameworkAudit.Finder
