import FrameworkAudit.Host.Standard
import FrameworkAudit.Proofs.Breaking.Found

/-!
Which breaking changes an audit finds. A finding is a change, a member and a caller; it is there
exactly if the member is called and foreign, the change is the first record of its id among those of
the member and its ancestors, it is shown, and some target that counts for the caller has it.
-/

set_option autoImplicit false

namespace FrameworkAudit

theorem mem_foldl_keepNew {α κ : Type} [BEq κ] [LawfulBEq κ] (key : α → κ) {x : α}
    (xs kept : List α) :
    x ∈ xs.foldl (fun kept y => if kept.any fun k => key k == key y then kept else kept ++ [y])
        kept ↔
      x ∈ kept ∨ (∀ k ∈ kept, key k ≠ key x) ∧ xs.find? (fun y => key y == key x) = some x := by
  induction xs generalizing kept with
  | nil => simp
  | cons y ys ih =>
    rw [List.foldl_cons, ih, List.find?_cons]
    cases hy : kept.any fun k => key k == key y with
    | true =>
      obtain ⟨k, hk, he⟩ := List.any_eq_true.1 hy
      have he : key k = key y := by simpa using he
      by_cases hx : key y = key x
      · have old : ¬ ∀ k ∈ kept, key k ≠ key x := fun h => h k hk (he.trans hx)
        simp [old]
      · have other : (key y == key x) = false := by simpa using hx
        simp [other]
    | false =>
      have new : ∀ k ∈ kept, key k ≠ key y := by simpa using hy
      by_cases hx : key y = key x
      · have fresh : ∀ k ∈ kept, key k ≠ key x := hx ▸ new
        simp only [Bool.false_eq_true, if_false, List.mem_append, List.mem_singleton, hx,
          BEq.rfl, Option.some.injEq]
        constructor
        · rintro ((h | rfl) | ⟨h, -⟩)
          · exact .inl h
          · exact .inr ⟨fresh, rfl⟩
          · exact absurd hx (h y (by simp))
        · rintro (h | ⟨-, rfl⟩)
          · exact .inl (.inl h)
          · exact .inl (.inr rfl)
      · have other : (key y == key x) = false := by simpa using hx
        have apart : x ≠ y := fun e => hx (e ▸ rfl)
        have same : (∀ k ∈ kept ++ [y], key k ≠ key x) ↔ ∀ k ∈ kept, key k ≠ key x := by
          simp [or_imp, forall_and, hx]
        simp only [Bool.false_eq_true, if_false, other, same]
        simp only [List.mem_append, List.mem_singleton, apart, or_false]

theorem Policy.suppresses_eq_false_iff {policy : Policy} {id : String} :
    policy.suppresses id = false ↔ id ∉ policy.suppressed := by
  simp [suppresses]

namespace BreakingChange

variable {change : BreakingChange}

theorem appliesTo_iff {v : Version} : change.appliesTo v = true ↔
    change.broken ≤ v ∧ ∀ fixed, change.fixed? = some fixed → v < fixed := by
  simp [appliesTo, Option.all_eq_true]

theorem shown_iff {retargeting : Bool} :
    (!change.quirked || retargeting) = true ↔ (change.quirked = true → retargeting = true) := by
  cases change.quirked <;> simp

end BreakingChange

namespace Catalog

variable {c : Catalog} {targets : List Target} {policy : Policy} {submitted : List String}
  {retargeting : Bool} {change : BreakingChange} {member : MemberInfo} {caller : AssemblyInfo}

def records (c : Catalog) (id : DocId) : List BreakingChange :=
  c.breaking id ++ (c.ancestors id).flatMap c.breaking

theorem mem_changesFor {id : DocId} :
    change ∈ c.changesFor id ↔ (c.records id).find? (fun k => k.id == change.id) = some change := by
  have fold := mem_foldl_keepNew BreakingChange.id (x := change) (c.records id) []
  simp only [List.not_mem_nil, false_or, false_implies, implies_true, true_and] at fold
  rwa [changesFor, List.flatMap_cons]

theorem checkTargets_eq_ok_iff : c.checkTargets targets = .ok () ↔ ∀ t ∈ targets, t ∈ c.targets := by
  unfold checkTargets
  cases h : targets.find? fun t => !c.targets.contains t with
  | none => simpa using h
  | some t =>
    have ht : t ∉ c.targets := by simpa using List.find?_some h
    simp only [reduceCtorEq, false_iff]
    exact fun all => ht (all t (List.mem_of_find?_eq_some h))

/-- A member is foreign if no submitted assembly has the name of the assembly that defines it. -/
theorem definedIn_eq_false_iff {names : List String} :
    definedIn (names.map fun name => Text.fold (simpleName name)) member = false ↔
      ∀ i, member.assembly? = some i →
        ∀ name ∈ names, Text.sameFolded i.name (simpleName name) = false := by
  simp only [definedIn]
  cases member.assembly? with
  | none => simp
  | some i =>
    simp only [Option.any_some, List.contains_eq_mem, decide_eq_false_iff_not, List.mem_map,
      not_exists, not_and, Option.some.injEq, forall_eq', Text.sameFolded, beq_eq_false_iff_ne]
    exact forall₂_congr fun name _ => ne_comm

/-- Whether a change is to be shown and is in effect on a target on which the caller counts. -/
def InForce (change : BreakingChange) (targets : List Target) (policy : Policy)
    (retargeting : Bool) (caller : AssemblyInfo) : Prop :=
  (change.quirked = true → retargeting = true) ∧
    ∃ t ∈ targets, change.broken ≤ t.version ∧
      (∀ fixed, change.fixed? = some fixed → t.version < fixed) ∧ policy.ignores caller t = false

theorem inForce_iff {change : BreakingChange} {caller : AssemblyInfo} :
    (!change.quirked || retargeting) = true ∧
        (∃ t ∈ targets, change.appliesTo t.version = true ∧ policy.ignores caller t = false) ↔
      InForce change targets policy retargeting caller := by
  simp only [InForce, BreakingChange.shown_iff, BreakingChange.appliesTo_iff, and_assoc]

instance (change : BreakingChange) (targets : List Target) (policy : Policy) (retargeting : Bool)
    (caller : AssemblyInfo) : Decidable (InForce change targets policy retargeting caller) :=
  decidable_of_iff _ inForce_iff

/-- An audit answers for known targets, whatever the order in which it visits the dependencies. A
finding is there exactly if its member is called by its caller and foreign, its change is the first
record of its id, and this is not suppressed and in force for the caller. -/
theorem mem_breakingChanges_iff (c : Catalog) (targets : List Target) (policy : Policy)
    (submitted : List String) (info : DependencyInfo) (retargeting : Bool)
    (entries : List (MemberInfo × List AssemblyInfo)) (tidy : info.Tidy)
    (visited : Rearranged info.members entries) (known : ∀ t ∈ targets, t ∈ c.targets) :
    ∃ found,
      c.breakingChanges targets policy submitted { info with members := entries } retargeting =
        .ok found ∧
      ∀ change member caller, ⟨change, member, caller⟩ ∈ found ↔
        Calls info.members member caller ∧
        (∀ i, member.assembly? = some i →
          ∀ name ∈ submitted, Text.sameFolded i.name (simpleName name) = false) ∧
        (c.records member.id).find? (fun k => k.id == change.id) = some change ∧
        change.id ∉ policy.suppressed ∧ InForce change targets policy retargeting caller := by
  refine ⟨_, breakingChanges_eq_ok_iff.2 ⟨checkTargets_eq_ok_iff.2 known, rfl⟩, ?_⟩
  intro change member caller
  rw [mem_ofList_hits tidy.members visited, mem_hits, mem_changesFor, Shows,
    definedIn_eq_false_iff]
  simp only [Bool.and_eq_true, Bool.not_eq_true', Policy.suppresses_eq_false_iff, and_assoc,
    ← inForce_iff]
  constructor
  · rintro ⟨called, first, foreign, kept, force⟩
    exact ⟨called, foreign, first, kept, force⟩
  · rintro ⟨called, foreign, first, kept, force⟩
    exact ⟨called, first, foreign, kept, force⟩

def laterTarget : Target := ⟨"P", ⟨2, 0, 0, 0⟩⟩

def recordOf (id : String) (api : DocId) (broken : Version) : BreakingChange :=
  ⟨id, "", [api], broken, none, false, false, .standard, none⟩

/-- The member has a record of the same id as its type, in effect only on the later target. -/
def sharedId : CatalogTables :=
  ((((CatalogTables.empty.addTarget someTarget).addTarget laterTarget).addAncestors "M:A.B" ["T:A"]
    ).addBreaking (recordOf "7" "T:A" someTarget.version)).addBreaking
      (recordOf "7" "M:A.B" laterTarget.version)

def appAssembly : AssemblyInfo := .ofIdentity ⟨"App", .zero, none, none⟩ "" "" []

def twoCallers : DependencyInfo :=
  DependencyInfo.empty.addCallers (.ofId "M:A.B" none) [.unnamed, appAssembly]

/-- Ignoring `app` ignores the assemblies of that simple name, in any case and on all targets. -/
theorem ignores_app (a : AssemblyInfo) (t : Target) :
    (Policy.empty.ignore "app" []).ignores a t =
      ("app".toList == a.name.toList.map Char.toLower) := by
  have names : Text.sameFolded (simpleName "app") a.name =
      ("app".toList == a.name.toList.map Char.toLower) := by
    rw [Text.sameFolded_eq_toList]
    rfl
  simp [Policy.ignores, Policy.ignore, Policy.empty, IgnoreEntry.covers, IgnoreEntry.names,
    IgnoreEntry.isDisplayName, names]

/-- Of two callers one is ignored, and the record of the member stands before that of its type. -/
theorem mem_breakingChanges_ignoring : ∃ found,
    twoCallers.Tidy ∧ Rearranged twoCallers.members [(.ofId "M:A.B" none, [appAssembly, .unnamed])] ∧
    (∀ t ∈ [someTarget, laterTarget], t ∈ sharedId.catalog.targets) ∧
    sharedId.catalog.breakingChanges [someTarget, laterTarget] (Policy.empty.ignore "app" []) []
        { twoCallers with members := [(.ofId "M:A.B" none, [appAssembly, .unnamed])] } false =
      .ok found ∧
    ⟨recordOf "7" "M:A.B" laterTarget.version, .ofId "M:A.B" none, .unnamed⟩ ∈ found ∧
    ⟨recordOf "7" "T:A" someTarget.version, .ofId "M:A.B" none, .unnamed⟩ ∉ found ∧
    ⟨recordOf "7" "M:A.B" laterTarget.version, .ofId "M:A.B" none, appAssembly⟩ ∉ found := by
  have tidy : twoCallers.Tidy := DependencyInfo.tidy_empty.addCallers
  have visited : Rearranged twoCallers.members
      [(.ofId "M:A.B" none, [appAssembly, .unnamed])] :=
    ⟨_, .refl _, .cons ⟨rfl, .swap _ _ []⟩ .nil⟩
  have known : ∀ t ∈ [someTarget, laterTarget], t ∈ sharedId.catalog.targets := by decide
  obtain ⟨found, ok, mem⟩ := mem_breakingChanges_iff sharedId.catalog [someTarget, laterTarget]
    (Policy.empty.ignore "app" []) [] twoCallers false _ tidy visited known
  refine ⟨found, tidy, visited, known, ok, ?_, ?_, ?_⟩
  · exact (mem _ _ _).2
      ⟨by decide, by simp [MemberInfo.ofId], by decide, by decide, by decide, laterTarget,
        by decide, by decide, by simp [recordOf], by rw [ignores_app]; decide⟩
  · exact fun h => absurd ((mem _ _ _).1 h).2.2.1 (by decide)
  · intro h
    obtain ⟨-, t, -, -, -, counts⟩ := ((mem _ _ _).1 h).2.2.2.2
    rw [ignores_app] at counts
    exact absurd counts (by decide)

end Catalog

namespace CatalogTables

open Catalog

variable {tables : CatalogTables}

/-- The record that stands for a change of a member: the first of its id that lists the member, or
else the first that lists an ancestor, the nearest before the others. -/
def leading? (tables : CatalogTables) (member : DocId) (id : String) : Option BreakingChange :=
  (member :: tables.catalog.ancestors member).findSome? fun symbol =>
    tables.breaking.find? fun change => change.affects symbol && change.id == id

theorem leading?_eq_find? {member : DocId} {id : String} :
    tables.leading? member id = (tables.catalog.records member).find? fun k => k.id == id := by
  have step (symbol : DocId) :
      (tables.catalog.breaking symbol).find? (fun k => k.id == id) =
        tables.breaking.find? fun change => change.affects symbol && change.id == id := by
    simp only [catalog, List.find?_filter, Bool.decide_and, Bool.decide_eq_true]
  rw [leading?, records, List.find?_append, List.find?_flatMap, List.findSome?_cons, step]
  simp only [step]
  cases tables.breaking.find? fun change => change.affects member && change.id == id <;> rfl

theorem mem_records {member : DocId} {change : BreakingChange} :
    change ∈ tables.catalog.records member ↔ change ∈ tables.breaking ∧
      ∃ symbol ∈ member :: tables.catalog.ancestors member, symbol ∈ change.apis := by
  simp only [records, catalog, BreakingChange.affects, List.mem_append, List.mem_flatMap,
    List.mem_filter, List.contains_eq_mem, decide_eq_true_eq, List.exists_mem_cons_iff]
  grind

theorem exists_leading {member : DocId} {change : BreakingChange}
    (h : change ∈ tables.catalog.records member) :
    ∃ leading, tables.leading? member change.id = some leading ∧ leading.id = change.id ∧
      leading ∈ tables.breaking := by
  rw [leading?_eq_find?]
  cases first : (tables.catalog.records member).find? fun k => k.id == change.id with
  | none => simpa using List.find?_eq_none.1 first change h
  | some leading =>
    have same : leading.id = change.id := by simpa using List.find?_some first
    exact ⟨leading, rfl, same, (mem_records.1 (List.mem_of_find?_eq_some first)).1⟩

/-- Of the records of one id the leading one decides: an audit finds a change for a caller of a
foreign member exactly if the leading record is in force for it, whatever the others say. A record
that shares its id with no other leads, so it is found wherever it is in force. -/
theorem exists_finding_iff_leading (tables : CatalogTables) (targets : List Target)
    (policy : Policy) (submitted : List String) (info : DependencyInfo) (retargeting : Bool)
    (change : BreakingChange) (member : MemberInfo) (caller : AssemblyInfo) (tidy : info.Tidy)
    (known : ∀ t ∈ targets, t ∈ tables.targets) (recorded : change ∈ tables.breaking)
    (listed : ∃ symbol ∈ member.id :: tables.catalog.ancestors member.id, symbol ∈ change.apis)
    (called : Calls info.members member caller)
    (foreign : ∀ i, member.assembly? = some i →
      ∀ name ∈ submitted, Text.sameFolded i.name (simpleName name) = false)
    (kept : change.id ∉ policy.suppressed) :
    ∃ found leading,
      tables.catalog.breakingChanges targets policy submitted info retargeting = .ok found ∧
      tables.leading? member.id change.id = some leading ∧
      ((∃ d ∈ found, d.change.id = change.id ∧ d.member = member ∧ d.caller = caller) ↔
        InForce leading targets policy retargeting caller) ∧
      ((∀ other ∈ tables.breaking, other.id = change.id → other = change) → leading = change) := by
  obtain ⟨leading, leads, same, stored⟩ := exists_leading (mem_records.2 ⟨recorded, listed⟩)
  obtain ⟨found, ok, mem⟩ := mem_breakingChanges_iff tables.catalog targets policy submitted info
    retargeting info.members tidy (.refl _) known
  refine ⟨found, leading, ok, leads, ⟨?_, fun force => ?_⟩, fun alone => alone leading stored same⟩
  · rintro ⟨⟨k, m, a⟩, hd, hk, rfl, rfl⟩
    obtain ⟨-, -, first, -, force⟩ := (mem k m a).1 hd
    rw [hk, ← leading?_eq_find?, leads] at first
    exact Option.some.inj first ▸ force
  · refine ⟨⟨leading, member, caller⟩, (mem _ _ _).2 ⟨called, foreign, ?_, ?_, force⟩, same, rfl, rfl⟩
    · rw [same, ← leading?_eq_find?, leads]
    · rwa [same]

/-- The record of the type is in force on the first target, that of the member, which leads, on the
second; an audit of both targets finds the second. -/
theorem exists_finding_of_leading : ∃ found leading,
    twoCallers.Tidy ∧ recordOf "7" "T:A" someTarget.version ∈ sharedId.breaking ∧
    sharedId.catalog.breakingChanges [someTarget, laterTarget] .empty ["App"] twoCallers false =
      .ok found ∧
    sharedId.leading? "M:A.B" "7" = some leading ∧
    leading = recordOf "7" "M:A.B" laterTarget.version ∧
    ∃ d ∈ found, d.change.id = "7" ∧ d.member = .ofId "M:A.B" none ∧ d.caller = appAssembly := by
  have tidy : twoCallers.Tidy := DependencyInfo.tidy_empty.addCallers
  have recorded : recordOf "7" "T:A" someTarget.version ∈ sharedId.breaking := by decide
  obtain ⟨found, leading, ok, leads, finding, -⟩ := exists_finding_iff_leading sharedId
    [someTarget, laterTarget] .empty ["App"] twoCallers false
    (recordOf "7" "T:A" someTarget.version) (.ofId "M:A.B" none) appAssembly tidy (by decide)
    recorded (by decide) (by decide) (by simp [MemberInfo.ofId]) (by decide)
  obtain rfl : recordOf "7" "M:A.B" laterTarget.version = leading :=
    Option.some.inj (.trans (by decide) leads)
  exact ⟨found, _, tidy, recorded, ok, leads, rfl, finding.2 (by decide +kernel)⟩

/-- The record of the type is in force, but the one that leads is not, and nothing is found. -/
theorem breakingChanges_misses_record :
    let change := recordOf "7" "T:A" someTarget.version
    change ∈ sharedId.breaking ∧ "T:A" ∈ change.apis ∧
      "T:A" ∈ sharedId.catalog.ancestors "M:A.B" ∧
      InForce change [someTarget] .empty false appAssembly ∧ change.id ∉ Policy.empty.suppressed ∧
      Calls twoCallers.members (.ofId "M:A.B" none) appAssembly ∧
      (∀ t ∈ [someTarget], t ∈ sharedId.targets) ∧
      sharedId.catalog.breakingChanges [someTarget] .empty [] twoCallers false = .ok [] :=
  ⟨by decide, by decide, by decide, by decide +kernel, by decide, by decide, by decide, rfl⟩

end CatalogTables

end FrameworkAudit
