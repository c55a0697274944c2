import FrameworkAudit.Proofs.Resolution

/-!
Chains of rows. The scope of a reference to a type can be another reference, and a definition can lie in
another: each row then names the next, and nothing keeps a damaged file from naming rows in a circle.
A chain resolves exactly if it ends within its limit and every row of it is there.
-/

set_option autoImplicit false

namespace FrameworkAudit

structure TypeRows where
  /-- The name of a row, if the row is there. -/
  name? : Nat → Option String
  /-- Why a row that is not there has no type. -/
  missing : Nat → Defect
  /-- The row around a row. -/
  outer? : Nat → Option Nat
  /-- The namespace of a row that lies in no other, and the assembly that defines it. -/
  origin : Nat → Except Defect (String × Identity)

namespace TypeRows

variable (rows : TypeRows) {room row outer last : Nat} {name : String} {t : NamedType}

def outermost (row : Nat) (name : String) : Except Error NamedType :=
  match rows.origin row with
  | .ok (space, owner) => .ok (.ofName space name owner)
  | .error defect => .error (.malformed defect)

def typeWithin : Nat → Nat → Except Error NamedType
  | 0, _ => .error (.recursionLimit maxChain)
  | room + 1, row =>
    match rows.name? row with
    | none => .error (.malformed (rows.missing row))
    | some name =>
      match rows.outer? row with
      | some outer => do return (← typeWithin room outer).nested name
      | none => rows.outermost row name

def row? (row : Nat) : Nat → Option Nat
  | 0 => some row
  | k + 1 => (row? row k).bind rows.outer?

def nameAt? (row k : Nat) : Option String := (rows.row? row k).bind rows.name?

def names (row k : Nat) : List String :=
  (List.range (k + 1)).reverse.filterMap (rows.nameAt? row)

def Available (row k : Nat) : Prop := ∀ i ≤ k, (rows.nameAt? row i).isSome

def EndsAt (row k last : Nat) : Prop := rows.row? row k = some last ∧ rows.outer? last = none

/-- Whether a row lies on a cycle, or its chain leads into one. -/
def MeetsCycle (row : Nat) : Prop :=
  ∃ i j, i < j ∧ (rows.row? row j).isSome ∧ rows.row? row i = rows.row? row j

theorem row?_succ (h : rows.outer? row = some outer) (k : Nat) :
    rows.row? row (k + 1) = rows.row? outer k := by
  induction k with
  | zero => simp [row?, h]
  | succ k ih => rw [row?, ih, row?]

theorem row?_succ_of_last (h : rows.outer? row = none) (k : Nat) : rows.row? row (k + 1) = none := by
  induction k with
  | zero => simp [row?, h]
  | succ k ih => rw [row?, ih, Option.bind_none]

theorem nameAt?_zero (row : Nat) : rows.nameAt? row 0 = rows.name? row := rfl

theorem nameAt?_succ (h : rows.outer? row = some outer) (k : Nat) :
    rows.nameAt? row (k + 1) = rows.nameAt? outer k := by
  rw [nameAt?, nameAt?, rows.row?_succ h]

theorem names_zero (here : rows.name? row = some name) : rows.names row 0 = [name] := by
  simp [names, nameAt?_zero, here]

theorem names_succ (here : rows.name? row = some name) (h : rows.outer? row = some outer) (k : Nat) :
    rows.names row (k + 1) = rows.names outer k ++ [name] := by
  have rest : rows.nameAt? row ∘ Nat.succ = rows.nameAt? outer := funext (rows.nameAt?_succ h)
  rw [names, List.range_succ_eq_map, List.reverse_cons, List.filterMap_append, ← List.map_reverse,
    List.filterMap_map, rest, names]
  simp [nameAt?_zero, here]

theorem available_zero : rows.Available row 0 ↔ (rows.name? row).isSome := by
  simp [Available, nameAt?_zero]

theorem available_succ (h : rows.outer? row = some outer) (k : Nat) :
    rows.Available row (k + 1) ↔ (rows.name? row).isSome ∧ rows.Available outer k := by
  constructor
  · intro available
    refine ⟨available 0 (Nat.zero_le _), fun i hi => ?_⟩
    rw [← rows.nameAt?_succ h]
    exact available (i + 1) (by omega)
  · rintro ⟨first, rest⟩ i hi
    cases i with
    | zero => exact first
    | succ i =>
      rw [rows.nameAt?_succ h]
      exact rest i (by omega)

theorem endsAt_zero : rows.EndsAt row 0 last ↔ row = last ∧ rows.outer? last = none := by
  rw [EndsAt, row?, Option.some.injEq]

theorem endsAt_succ (h : rows.outer? row = some outer) (k : Nat) :
    rows.EndsAt row (k + 1) last ↔ rows.EndsAt outer k last := by
  rw [EndsAt, EndsAt, rows.row?_succ h]

theorem not_endsAt_zero (h : rows.outer? row = some outer) : ¬ rows.EndsAt row 0 last := by
  rintro ⟨here, ends⟩
  obtain rfl := Option.some.inj here
  rw [h] at ends
  cases ends

theorem not_endsAt_succ (h : rows.outer? row = none) (k : Nat) : ¬ rows.EndsAt row (k + 1) last := by
  rintro ⟨here, -⟩
  rw [rows.row?_succ_of_last h] at here
  cases here

theorem outermost_eq_ok_iff : rows.outermost row name = .ok t ↔
    ∃ space owner, rows.origin row = .ok (space, owner) ∧ t = .ofName space name owner := by
  unfold outermost
  cases rows.origin row with
  | ok origin => simp [Prod.ext_iff, eq_comm]
  | error defect => simp

theorem outermost_ne_limit (limit : Nat) : rows.outermost row name ≠ .error (.recursionLimit limit) := by
  unfold outermost
  split <;> simp

def MakesAt (row k : Nat) (t : NamedType) : Prop :=
  rows.Available row k ∧ ∃ last space owner, rows.EndsAt row k last ∧
    rows.origin last = .ok (space, owner) ∧ t = ⟨space, rows.names row k, some owner, false⟩

theorem makesAt_zero (here : rows.name? row = some name) (h : rows.outer? row = none) :
    rows.MakesAt row 0 t ↔ rows.outermost row name = .ok t := by
  have first : rows.Available row 0 := rows.available_zero.2 (by simp [here])
  simp only [MakesAt, first, true_and, outermost_eq_ok_iff, endsAt_zero, rows.names_zero here,
    NamedType.ofName]
  constructor
  · rintro ⟨_, space, owner, ⟨rfl, -⟩, origin, rfl⟩
    exact ⟨space, owner, origin, rfl⟩
  · rintro ⟨space, owner, origin, rfl⟩
    exact ⟨row, space, owner, ⟨rfl, h⟩, origin, rfl⟩

theorem makesAt_succ (here : rows.name? row = some name) (h : rows.outer? row = some outer) (k : Nat) :
    rows.MakesAt row (k + 1) t ↔ ∃ inner, rows.MakesAt outer k inner ∧ t = inner.nested name := by
  simp only [MakesAt, rows.available_succ h, rows.endsAt_succ h, rows.names_succ here h, here,
    Option.isSome_some, true_and]
  constructor
  · rintro ⟨available, last, space, owner, ends, origin, rfl⟩
    exact ⟨_, ⟨available, last, space, owner, ends, origin, rfl⟩, rfl⟩
  · rintro ⟨_, ⟨available, last, space, owner, ends, origin, rfl⟩, rfl⟩
    exact ⟨available, last, space, owner, ends, origin, rfl⟩

/-- A row has a type exactly if its chain makes it at a place within the room. -/
theorem typeWithin_eq_ok_iff : rows.typeWithin room row = .ok t ↔ ∃ k < room, rows.MakesAt row k t := by
  induction room generalizing row t with
  | zero => simp [typeWithin]
  | succ room ih =>
    rw [typeWithin, Nat.exists_lt_succ_left]
    cases here : rows.name? row with
    | none =>
      have gone (k : Nat) : ¬ rows.MakesAt row k t := fun made => by
        have first := made.1 0 (Nat.zero_le k)
        simp [nameAt?_zero, here] at first
      simp [gone]
    | some name =>
      cases around : rows.outer? row with
      | none =>
        have inner (k : Nat) : ¬ rows.MakesAt row (k + 1) t := by
          rintro ⟨-, last, space, owner, ends, -⟩
          exact rows.not_endsAt_succ around k ends
        simp [rows.makesAt_zero here around, inner]
      | some outer =>
        have last : ¬ rows.MakesAt row 0 t := by
          rintro ⟨-, last, space, owner, ends, -⟩
          exact rows.not_endsAt_zero around ends
        simp only [last, false_or, rows.makesAt_succ here around, bind_eq_ok_iff, pure_eq_ok_iff, ih]
        constructor
        · rintro ⟨inner, ⟨k, within, made⟩, rfl⟩
          exact ⟨k, within, inner, made, rfl⟩
        · rintro ⟨k, within, inner, made, rfl⟩
          exact ⟨inner, ⟨k, within, made⟩, rfl⟩

def PassesAt (row k : Nat) : Prop :=
  (rows.nameAt? row k).isSome ∧ ∀ last, ¬ rows.EndsAt row k last

theorem passesAt_zero : rows.PassesAt row 0 ↔
    (rows.name? row).isSome ∧ (rows.outer? row).isSome := by
  simp [PassesAt, nameAt?_zero, endsAt_zero, Option.isSome_iff_ne_none]

theorem passesAt_succ (h : rows.outer? row = some outer) (k : Nat) :
    rows.PassesAt row (k + 1) ↔ rows.PassesAt outer k := by
  simp only [PassesAt, rows.nameAt?_succ h, rows.endsAt_succ h]

theorem typeWithin_eq_limit_iff : rows.typeWithin room row = .error (.recursionLimit maxChain) ↔
    ∀ k < room, rows.PassesAt row k := by
  induction room generalizing row with
  | zero => simp [typeWithin]
  | succ room ih =>
    rw [typeWithin, Nat.forall_lt_succ_left, passesAt_zero]
    cases here : rows.name? row with
    | none => simp
    | some name =>
      cases around : rows.outer? row with
      | none => simp [rows.outermost_ne_limit]
      | some outer =>
        simp [rows.passesAt_succ around, bind_eq_error_iff, pure, Except.pure, ih]

theorem row?_add {i j : Nat} {row : Nat} (same : rows.row? row i = rows.row? row j) (m : Nat) :
    rows.row? row (i + m) = rows.row? row (j + m) := by
  induction m with
  | zero => exact same
  | succ m ih => rw [← Nat.add_assoc, ← Nat.add_assoc, row?, row?, ih]

theorem isSome_row?_of_le {i j : Nat} (h : i ≤ j) (reached : (rows.row? row j).isSome) :
    (rows.row? row i).isSome := by
  induction h with
  | refl => exact reached
  | step _ ih =>
    rw [row?] at reached
    exact ih (Option.isSome_of_isSome_bind reached)

theorem isSome_row?_of_meetsCycle (meets : rows.MeetsCycle row) (k : Nat) : (rows.row? row k).isSome := by
  obtain ⟨i, j, less, reached, same⟩ := meets
  induction k using Nat.strongRecOn with
  | ind k ih =>
    rcases Nat.lt_or_ge j k with behind | before
    · have back := rows.row?_add same (k - j)
      rw [Nat.add_sub_cancel' (Nat.le_of_lt behind)] at back
      rw [← back]
      exact ih (i + (k - j)) (by omega)
    · exact rows.isSome_row?_of_le before reached

theorem not_endsAt_of_meetsCycle (meets : rows.MeetsCycle row) (k : Nat) : ¬ rows.EndsAt row k last := by
  rintro ⟨here, ends⟩
  have further := rows.isSome_row?_of_meetsCycle meets (k + 1)
  rw [row?, here, Option.bind_some, ends] at further
  cases further

theorem isMalformedInput_of_outermost {e : Error} (failed : rows.outermost row name = .error e) :
    e.isMalformedInput = true := by
  unfold outermost at failed
  split at failed <;> cases failed
  rfl

theorem isMalformedInput_of_typeWithin {e : Error} (failed : rows.typeWithin room row = .error e) :
    e.isMalformedInput = true := by
  induction room generalizing row e with
  | zero =>
    cases failed
    rfl
  | succ room ih =>
    rw [typeWithin] at failed
    split at failed
    · cases failed
      rfl
    · split at failed
      · obtain inner | ⟨t, -, done⟩ := bind_eq_error_iff.1 failed
        · exact ih inner
        · cases done
      · exact rows.isMalformedInput_of_outermost failed

theorem exists_error_of_meetsCycle (meets : rows.MeetsCycle row) (room : Nat) :
    ∃ e, rows.typeWithin room row = .error e ∧ e.isMalformedInput = true := by
  cases resolved : rows.typeWithin room row with
  | error e => exact ⟨e, rfl, rows.isMalformedInput_of_typeWithin resolved⟩
  | ok t =>
    obtain ⟨k, -, -, last, space, owner, ends, -⟩ := rows.typeWithin_eq_ok_iff.1 resolved
    exact absurd ends (rows.not_endsAt_of_meetsCycle meets k)

end TypeRows

def TypeRef.outer? (entry : TypeRef) : Option Nat :=
  if entry.scope.table = .typeRef ∧ entry.scope.isNull = false then some entry.scope.row else none

namespace Assembly

variable (a : Assembly) {row : Nat} {t : NamedType}

def owner? (entry : TypeRef) : Option Identity :=
  if entry.scope.table = .assemblyRef then a.assemblyRef? entry.scope.row else some a.identity

def scopes : TypeRows where
  name? row := (a.typeRef? row).map TypeRef.name
  missing row := .rowUnavailable .typeRef row
  outer? row := (a.typeRef? row).bind TypeRef.outer?
  origin row :=
    match a.typeRef? row with
    | none => .error (.rowUnavailable .typeRef row)
    | some entry =>
      match a.owner? entry with
      | some owner => .ok (entry.space, owner)
      | none => .error (.scopeUnavailable row entry.scope.row)

def enclosures : TypeRows where
  name? row := (a.typeDef? row).map TypeDef.name
  missing row := .rowUnavailable .typeDef row
  outer? := a.enclosing?
  origin row :=
    match a.typeDef? row with
    | none => .error (.rowUnavailable .typeDef row)
    | some entry => .ok (entry.space, a.identity)

@[simp] theorem name?_scopes (row : Nat) :
    a.scopes.name? row = (a.typeRef? row).map TypeRef.name := rfl

@[simp] theorem outer?_scopes (row : Nat) :
    a.scopes.outer? row = (a.typeRef? row).bind TypeRef.outer? := rfl

@[simp] theorem name?_enclosures (row : Nat) :
    a.enclosures.name? row = (a.typeDef? row).map TypeDef.name := rfl

@[simp] theorem outer?_enclosures (row : Nat) : a.enclosures.outer? row = a.enclosing? row := rfl

theorem makesAt_scopes_iff {k : Nat} : a.scopes.MakesAt row k t ↔ a.scopes.Available row k ∧
    ∃ last entry owner, a.scopes.EndsAt row k last ∧ a.typeRef? last = some entry ∧
      a.owner? entry = some owner ∧ t = ⟨entry.space, a.scopes.names row k, some owner, false⟩ := by
  have origin (last : Nat) (space : String) (owner : Identity) :
      a.scopes.origin last = .ok (space, owner) ↔
        ∃ entry, a.typeRef? last = some entry ∧ a.owner? entry = some owner ∧ entry.space = space := by
    simp only [scopes]
    cases a.typeRef? last with
    | none => simp
    | some entry => cases h : a.owner? entry <;> simp [h, and_comm]
  refine and_congr_right fun _ => ?_
  constructor
  · rintro ⟨last, space, owner, ends, here, rfl⟩
    obtain ⟨entry, found, owned, rfl⟩ := (origin _ _ _).1 here
    exact ⟨last, entry, owner, ends, found, owned, rfl⟩
  · rintro ⟨last, entry, owner, ends, found, owned, rfl⟩
    exact ⟨last, entry.space, owner, ends, (origin _ _ _).2 ⟨entry, found, owned, rfl⟩, rfl⟩

theorem makesAt_enclosures_iff {k : Nat} : a.enclosures.MakesAt row k t ↔
    a.enclosures.Available row k ∧ ∃ last entry, a.enclosures.EndsAt row k last ∧
      a.typeDef? last = some entry ∧
      t = ⟨entry.space, a.enclosures.names row k, some a.identity, false⟩ := by
  have origin (last : Nat) (space : String) (owner : Identity) :
      a.enclosures.origin last = .ok (space, owner) ↔
        ∃ entry, a.typeDef? last = some entry ∧ entry.space = space ∧ a.identity = owner := by
    simp only [enclosures]
    cases a.typeDef? last <;> simp
  refine and_congr_right fun _ => ?_
  constructor
  · rintro ⟨last, space, owner, ends, here, rfl⟩
    obtain ⟨entry, found, rfl, rfl⟩ := (origin _ _ _).1 here
    exact ⟨last, entry, ends, found, rfl⟩
  · rintro ⟨last, entry, ends, found, rfl⟩
    exact ⟨last, entry.space, a.identity, ends, (origin _ _ _).2 ⟨entry, found, rfl, rfl⟩, rfl⟩

theorem outermost_scopes {entry : TypeRef} (found : a.typeRef? row = some entry) :
    a.scopes.outermost row entry.name =
      match a.owner? entry with
      | some owner => .ok (.ofName entry.space entry.name owner)
      | none => .error (.malformed (.scopeUnavailable row entry.scope.row)) := by
  simp only [TypeRows.outermost, scopes, found]
  cases a.owner? entry <;> rfl

theorem outermost_enclosures {entry : TypeDef} (found : a.typeDef? row = some entry) :
    a.enclosures.outermost row entry.name = .ok (.ofName entry.space entry.name a.identity) := by
  simp only [TypeRows.outermost, enclosures, found]

theorem typeRefChain_eq (room row : Nat) :
    a.typeRefChain room row = a.scopes.typeWithin room row := by
  induction room generalizing row with
  | zero => rfl
  | succ room ih =>
    rw [typeRefChain, TypeRows.typeWithin, name?_scopes, outer?_scopes]
    cases here : a.typeRef? row with
    | none => rfl
    | some entry =>
      simp only [Option.map_some, Option.bind_some, a.outermost_scopes here, TypeRef.outer?, owner?]
      cases table : entry.scope.table with
      | typeRef => cases null : entry.scope.isNull <;> simp [ih]
      | assemblyRef => cases a.assemblyRef? entry.scope.row <;> simp
      | _ => simp

theorem typeDefChain_eq (room row : Nat) :
    a.typeDefChain room row = a.enclosures.typeWithin room row := by
  induction room generalizing row with
  | zero => rfl
  | succ room ih =>
    rw [typeDefChain, TypeRows.typeWithin, name?_enclosures, outer?_enclosures]
    cases here : a.typeDef? row with
    | none => rfl
    | some entry =>
      simp only [Option.map_some, a.outermost_enclosures here]
      cases a.enclosing? row with
      | none => rfl
      | some outer => simp [ih]

/-- A reference resolves exactly if its chain of scopes ends within the limit, all its rows are there
and so is the assembly in whose scope the last one stands. Its names are those of the chain from the
last row back to its own. It exceeds the limit exactly if every row within it stands in the scope of
another, so a row that meets a cycle is never resolved. The same holds of definitions and the types
around them, which the assembly itself defines. -/
theorem types_by_chain (row : Nat) :
    ((∀ t, a.typeRefShape row = .ok t ↔ ∃ k ≤ maxChain, a.scopes.Available row k ∧
        ∃ last entry owner, a.scopes.EndsAt row k last ∧ a.typeRef? last = some entry ∧
          a.owner? entry = some owner ∧ t = ⟨entry.space, a.scopes.names row k, some owner, false⟩) ∧
      (a.typeRefShape row = .error (.recursionLimit maxChain) ↔
        ∀ k ≤ maxChain, a.scopes.PassesAt row k) ∧
      (a.scopes.MeetsCycle row → ∃ e, a.typeRefShape row = .error e ∧ e.isMalformedInput = true)) ∧
    (∀ t, a.typeDefShape row = .ok t ↔ ∃ k ≤ maxChain, a.enclosures.Available row k ∧
        ∃ last entry, a.enclosures.EndsAt row k last ∧ a.typeDef? last = some entry ∧
          t = ⟨entry.space, a.enclosures.names row k, some a.identity, false⟩) ∧
      (a.typeDefShape row = .error (.recursionLimit maxChain) ↔
        ∀ k ≤ maxChain, a.enclosures.PassesAt row k) ∧
      (a.enclosures.MeetsCycle row → ∃ e, a.typeDefShape row = .error e ∧ e.isMalformedInput = true) := by
  have reference : a.typeRefShape row = a.scopes.typeWithin (maxChain + 1) row := a.typeRefChain_eq _ _
  have definition : a.typeDefShape row = a.enclosures.typeWithin (maxChain + 1) row :=
    a.typeDefChain_eq _ _
  refine ⟨⟨fun t => ?_, ?_, fun meets => ?_⟩, fun t => ?_, ?_, fun meets => ?_⟩
  · simp only [reference, TypeRows.typeWithin_eq_ok_iff, Nat.lt_succ_iff, makesAt_scopes_iff]
  · simp only [reference, TypeRows.typeWithin_eq_limit_iff, Nat.lt_succ_iff]
  · rw [reference]
    exact a.scopes.exists_error_of_meetsCycle meets _
  · simp only [definition, TypeRows.typeWithin_eq_ok_iff, Nat.lt_succ_iff, makesAt_enclosures_iff]
  · simp only [definition, TypeRows.typeWithin_eq_limit_iff, Nat.lt_succ_iff]
  · rw [definition]
    exact a.enclosures.exists_error_of_meetsCycle meets _

/-- A reference in the scope of one that stands in its own scope, and two definitions that each lie in
the other. -/
def circular : Assembly where
  identity := .make "App" .zero none none
  framework := ""
  fileVersion := ""
  assemblyRefs := #[]
  typeRefs := #[some ⟨"", "Inner", ⟨.typeRef, 2⟩⟩, some ⟨"", "Loop", ⟨.typeRef, 2⟩⟩]
  typeDefs := #[some ⟨"", "Left", 1⟩, some ⟨"", "Right", 1⟩]
  typeSpecs := #[]
  memberRefs := #[]
  nesting := [(1, 2), (2, 1)]

theorem types_by_chain_circular : circular.scopes.MeetsCycle 1 ∧ circular.enclosures.MeetsCycle 1 ∧
    (∃ e, circular.typeRefShape 1 = .error e ∧ e.isMalformedInput = true) ∧
    ∃ e, circular.typeDefShape 1 = .error e ∧ e.isMalformedInput = true := by
  have scopes : circular.scopes.MeetsCycle 1 := ⟨1, 2, by decide, rfl, rfl⟩
  have enclosures : circular.enclosures.MeetsCycle 1 := ⟨0, 2, by decide, rfl, rfl⟩
  obtain ⟨⟨-, -, reference⟩, -, -, definition⟩ := circular.types_by_chain 1
  exact ⟨scopes, enclosures, reference scopes, definition enclosures⟩

end Assembly

end FrameworkAudit
