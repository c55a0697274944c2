import FrameworkAudit.Proofs.Dependency.Mention
import FrameworkAudit.Proofs.Dependency.Outcome

/-!
What the dependencies of an assembly are. Each row names identifiers and the assemblies that define
them, on its own; the dependencies are what the filter accepts of all that the rows name, each once.
A row that names nothing may as well be missing.
-/

set_option autoImplicit false

namespace FrameworkAudit

namespace MemberInfo

variable {m n : MemberInfo} {id : DocId} {i : Identity}

theorem same_symm (h : m.same n = true) : n.same m = true := by
  rw [← compare_eq_iff_same] at *
  exact Std.OrientedCmp.eq_symm h

theorem same_ofId_iff :
    m.same (.ofId id (some i)) = true ↔ m.id = id ∧ ∃ j, m.assembly? = some j ∧ j.same i = true := by
  unfold same ofId sameAssembly
  cases m.assembly? <;> simp

end MemberInfo

namespace Finder

variable {f : Finder} {a b : Assembly} {row : Nat} {id : DocId} {i : Identity} {r : Mention}

/-- Whether a row of an assembly names an identifier that another assembly, or its own, defines. -/
inductive Names (f : Finder) (a : Assembly) : DocId → Identity → Prop where
  | type {row : Nat} {t : NamedType} {i : Identity} (resolved : a.typeRefShape row = .ok t)
      (defined : t.assembly? = some i) : Names f a (.ofType (.named t)) i
  | member {row : Nat} {m : MemberShape} {i : Identity} (resolved : a.memberShape row = .ok (some m))
      (defined : f.definingAssembly? a m = some i) : Names f a (.ofMember m) i
  | owner {row : Nat} {m : MemberShape} {i : Identity} (resolved : a.memberShape row = .ok (some m))
      (defined : f.definingAssembly? a m = some i) (own : i.same a.identity = true) :
      Names f a (.ofTypeDefinition m.parent) i

theorem mem_rowNumbers_of_typeRefShape {t : NamedType} (h : a.typeRefShape row = .ok t) :
    row ∈ rowNumbers a.typeRefs.size := by
  cases here : a.typeRef? row with
  | none =>
    rw [Assembly.typeRefShape, Assembly.typeRefChain, here] at h
    cases h
  | some entry => exact mem_rowNumbers_of_rowOf here

theorem mem_typeRefMentions_iff :
    r ∈ typeRefMentions a row ↔ ∃ t, a.typeRefShape row = .ok t ∧ r = .type t := by
  unfold typeRefMentions
  cases a.typeRefShape row <;> simp

theorem mem_memberRefMentions_iff :
    r ∈ memberRefMentions (f.coreLibrary? a) a row ↔
      ∃ m i, a.memberShape row = .ok (some m) ∧ f.definingAssembly? a m = some i ∧
        r ∈ memberMentions a m i := by
  unfold memberRefMentions
  cases a.memberShape row with
  | error e => simp
  | ok m? =>
    cases m? with
    | none => simp
    | some m =>
      simp only [Except.ok.injEq, Option.some.injEq, exists_eq_left', exists_and_left]
      rw [← definingAssembly?]
      cases f.definingAssembly? a m <;> simp

theorem mem_memberMentions_iff {m : MemberShape} :
    r ∈ memberMentions a m i ↔ r = .member m i ∨ i.same a.identity = true ∧ r = .owner m i := by
  unfold memberMentions
  split <;> simp_all [or_comm]

theorem names_iff :
    f.Names a id i ↔ ∃ r ∈ f.mentions a, r.info.id = id ∧ r.info.assembly? = some i := by
  simp only [mentions, List.mem_append, List.mem_flatMap, mem_typeRefMentions_iff,
    mem_memberRefMentions_iff, mem_memberMentions_iff]
  constructor
  · intro h
    cases h with
    | type resolved defined =>
      have row := mem_rowNumbers_of_typeRefShape resolved
      exact ⟨_, .inl ⟨_, row, _, resolved, rfl⟩, rfl, defined⟩
    | member resolved defined =>
      have row := mem_rowNumbers_of_memberShape resolved
      exact ⟨_, .inr ⟨_, row, _, _, resolved, defined, .inl rfl⟩, rfl, rfl⟩
    | owner resolved defined own =>
      have row := mem_rowNumbers_of_memberShape resolved
      exact ⟨_, .inr ⟨_, row, _, _, resolved, defined, .inr ⟨own, rfl⟩⟩, rfl, rfl⟩
  · rintro ⟨_, ⟨_, -, t, resolved, rfl⟩ | ⟨_, -, m, j, resolved, defined, rfl | ⟨own, rfl⟩⟩, rfl, same⟩
    · exact .type resolved same
    · obtain rfl := Option.some.inj same
      exact .member resolved defined
    · obtain rfl := Option.some.inj same
      exact .owner resolved defined own

theorem mem_distinct_of_mem {members : List MemberInfo} {m : MemberInfo} (h : m ∈ members) :
    ∃ k ∈ distinct members, m.same k = true := by
  have start : KeepsFirst [] #[] := ⟨by simp, by simp⟩
  obtain ⟨k, hk, same⟩ := (keepsFirst_foldl members start).all m h
  exact ⟨k, Array.mem_toList_iff.2 hk, same⟩

theorem pairwise_keepNew {kept : Array MemberInfo} (m : MemberInfo)
    (h : kept.toList.Pairwise fun x y => x.same y = false) :
    (keepNew kept m).toList.Pairwise fun x y => x.same y = false := by
  unfold keepNew
  split
  · exact h
  · rename_i new
    rw [Array.toList_push, List.pairwise_append]
    refine ⟨h, List.pairwise_singleton _ _, fun x hx y hy => ?_⟩
    obtain rfl := List.mem_singleton.1 hy
    refine Bool.eq_false_iff.2 fun same => new (Array.any_eq_true'.2 ?_)
    exact ⟨x, Array.mem_toList_iff.1 hx, MemberInfo.same_symm same⟩

theorem pairwise_distinct (members : List MemberInfo) :
    (distinct members).Pairwise fun x y => x.same y = false :=
  members.foldlRecOn keepNew (motive := fun kept => kept.toList.Pairwise fun x y => x.same y = false)
    .nil fun _ kept m _ => pairwise_keepNew m kept

def dependenciesOf [Host] (f : Finder) (a : Assembly) : FileDependencies :=
  ⟨a.info, (distinct (((f.mentions a).map Mention.info).filter f.tracks)).map fun m => ⟨m, a.info⟩⟩

theorem find_eq_ok_iff [Host] {found : FileDependencies} : (f.find a false).value = .ok found ↔
    (∀ row, ¬ f.Lacks a row ∧ ¬ f.Overflows a row) ∧ found = f.dependenciesOf a := by
  rw [← exists_found_iff]
  unfold find
  cases rows : (f.outcomes a).mapM id with
  | error e => simp [rows]
  | ok outcomes => simp [rows, candidates_eq rows, dependenciesOf, eq_comm]

theorem tracks_eq_true_iff {m : MemberInfo} : f.tracks m = true ↔
    ∃ i, m.assembly? = some i ∧ f.filter.acceptsAssembly i = true ∧
      f.filter.acceptsMember m.id = true := by
  unfold tracks
  cases m.assembly? <;> simp

section

variable (h : a.Drops b)

include h

theorem coreLibrary?_of_drops : f.coreLibrary? b = f.coreLibrary? a := by
  obtain ⟨_, _, rfl⟩ := h.others
  rfl

theorem info_of_drops [Host] : b.info = a.info := by
  obtain ⟨_, _, rfl⟩ := h.others
  rfl

theorem typeRefMentions_of_drops : typeRefMentions b = typeRefMentions a := by
  funext row
  have alike : SameOrLost (a.typeRefShape row) (b.typeRefShape row) :=
    h.typeRefChain (Nat.le_refl _) row
  unfold typeRefMentions
  generalize a.typeRefShape row = x, b.typeRefShape row = y at alike
  cases alike <;> rfl

theorem memberRefMentions_of_drops (core? : Option Identity) :
    memberRefMentions core? b = memberRefMentions core? a := by
  funext row
  unfold memberRefMentions
  rcases h.memberRef? row with kept | ⟨gone, nothing⟩
  · have alike := h.memberShape kept
    generalize a.memberShape row = x, b.memberShape row = y at alike
    cases alike with
    | same m? => simp only [memberMentions, h.identity]
    | lost hd he => rfl
  · -- The row that is left out may still resolve, but to a member that no assembly defines.
    rw [Assembly.memberShape_of_missing gone]
    cases resolved : a.memberShape row with
    | error e => rfl
    | ok m? =>
      cases m? with
      | none => rfl
      | some m => simp [nothing m resolved]

theorem mentions_of_drops : f.mentions b = f.mentions a := by
  rw [mentions, mentions, h.typeRefs_size, h.memberRefs_size, typeRefMentions_of_drops h,
    memberRefMentions_of_drops h, coreLibrary?_of_drops h]

theorem memberShape_of_drops {m : MemberShape}
    (known : m.parent.isPrimitive = true ∨ (m.parent.assembly?).isSome = true) :
    b.memberShape row = .ok (some m) ↔ a.memberShape row = .ok (some m) := by
  rcases h.memberRef? row with kept | ⟨gone, nothing⟩
  · exact (h.memberShape kept).ok_iff.symm
  · simp only [Assembly.memberShape_of_missing gone, reduceCtorEq, false_iff]
    intro resolved
    simp [nothing m resolved] at known

theorem lacks_of_drops : f.Lacks b row ↔ f.Lacks a row := by
  rw [lacks_iff, lacks_iff, coreLibrary?_of_drops h]
  refine exists_congr fun m => ?_
  rw [and_left_comm, and_left_comm (a := a.memberShape row = _)]
  exact and_congr_right fun primitive => by rw [memberShape_of_drops h (.inl primitive)]

theorem overflows_of_drops : f.Overflows b row ↔ f.Overflows a row := by
  have defining (m : MemberShape) : f.definingAssembly? b m = f.definingAssembly? a m := by
    rw [definingAssembly?, definingAssembly?, coreLibrary?_of_drops h]
  unfold Overflows
  refine exists_congr fun m => ?_
  rw [defining, and_left_comm, and_left_comm (a := a.memberShape row = _)]
  refine and_congr_right fun defined => ?_
  rw [memberShape_of_drops h]
  unfold definingAssembly? at defined
  split at defined <;> simp [*]

theorem find_of_drops [Host] {found : FileDependencies} :
    (f.find b false).value = .ok found ↔ (f.find a false).value = .ok found := by
  simp only [find_eq_ok_iff, lacks_of_drops h, overflows_of_drops h, dependenciesOf,
    mentions_of_drops h, info_of_drops h]

end

theorem exists_mention_of_mem [Host] {d : Dependency} (h : d ∈ (f.dependenciesOf a).dependencies) :
    ∃ r ∈ f.mentions a, f.tracks r.info = true ∧ d = ⟨r.info, a.info⟩ := by
  obtain ⟨m, hm, rfl⟩ := List.mem_map.1 h
  obtain ⟨mem, tracked⟩ := List.mem_filter.1 (List.mem_of_find?_eq_some (find?_of_mem_distinct hm))
  obtain ⟨r, hr, rfl⟩ := List.mem_map.1 mem
  exact ⟨r, hr, tracked, rfl⟩

theorem exists_dependency_of_mention [Host] (hr : r ∈ f.mentions a) (tracked : f.tracks r.info = true) :
    ∃ d ∈ (f.dependenciesOf a).dependencies, r.info.same d.member = true := by
  have mem : r.info ∈ ((f.mentions a).map Mention.info).filter f.tracks :=
    List.mem_filter.2 ⟨List.mem_map_of_mem hr, tracked⟩
  obtain ⟨k, hk, same⟩ := mem_distinct_of_mem mem
  exact ⟨⟨k, a.info⟩, List.mem_map_of_mem hk, same⟩

theorem names_of_mem [Host] {d : Dependency} (h : d ∈ (f.dependenciesOf a).dependencies) :
    ∃ i, d.member.assembly? = some i ∧ f.Names a d.member.id i ∧
      f.filter.acceptsAssembly i = true ∧ f.filter.acceptsMember d.member.id = true := by
  obtain ⟨r, hr, tracked, rfl⟩ := exists_mention_of_mem h
  obtain ⟨i, defined, accepted⟩ := tracks_eq_true_iff.1 tracked
  exact ⟨i, defined, names_iff.2 ⟨r, hr, rfl, defined⟩, accepted⟩

theorem exists_dependency_iff [Host] :
    (∃ d ∈ (f.dependenciesOf a).dependencies, d.member.same (.ofId id (some i)) = true) ↔
      ∃ j, j.same i = true ∧ f.Names a id j ∧ f.filter.acceptsAssembly j = true ∧
        f.filter.acceptsMember id = true := by
  constructor
  · rintro ⟨d, hd, same⟩
    obtain ⟨rfl, j, defined, spelled⟩ := MemberInfo.same_ofId_iff.1 same
    obtain ⟨k, found, named, accepted⟩ := names_of_mem hd
    obtain rfl := Option.some.inj (defined.symm.trans found)
    exact ⟨j, spelled, named, accepted⟩
  · rintro ⟨j, spelled, named, accepted⟩
    obtain ⟨r, hr, rfl, defined⟩ := names_iff.1 named
    obtain ⟨d, hd, same⟩ :=
      exists_dependency_of_mention hr (tracks_eq_true_iff.2 ⟨j, defined, accepted⟩)
    exact ⟨d, hd, MemberInfo.same_trans (MemberInfo.same_symm same)
      (MemberInfo.same_ofId_iff.2 ⟨rfl, j, defined, spelled⟩)⟩

/-- The dependencies that are found are distinct and have the assembly as their caller. Each is an
identifier and an assembly that a row names and the filter accepts, and all of these are found, up to
the case in which the name of the assembly is written; a filter may go by the case. Rows that cannot
be resolved, and members that no assembly defines, might as well be missing. -/
theorem find_dependencies [Host] (f : Finder) (a : Assembly) (found : FileDependencies)
    (h : (f.find a false).value = .ok found) :
    (found.dependencies.Pairwise fun d e => d.member.same e.member = false) ∧
      (∀ d ∈ found.dependencies, d.caller = a.info) ∧
      (∀ d ∈ found.dependencies, ∃ i, d.member.assembly? = some i ∧ f.Names a d.member.id i ∧
        f.filter.acceptsAssembly i = true ∧ f.filter.acceptsMember d.member.id = true) ∧
      (∀ id i, (∃ d ∈ found.dependencies, d.member.same (.ofId id (some i)) = true) ↔
        ∃ j, j.same i = true ∧ f.Names a id j ∧ f.filter.acceptsAssembly j = true ∧
          f.filter.acceptsMember id = true) ∧
      ((∀ i j, i.same j = true → f.filter.acceptsAssembly i = f.filter.acceptsAssembly j) →
        ∀ id i, (∃ d ∈ found.dependencies, d.member.same (.ofId id (some i)) = true) ↔
          f.filter.acceptsAssembly i = true ∧ f.filter.acceptsMember id = true ∧
            ∃ j, j.same i = true ∧ f.Names a id j) ∧
      ∀ b, a.Drops b → (f.find b false).value = .ok found := by
  obtain ⟨-, rfl⟩ := find_eq_ok_iff.1 h
  refine ⟨?_, ?_, fun d hd => names_of_mem hd, fun id i => exists_dependency_iff, ?_,
    fun b drops => (find_of_drops drops).2 h⟩
  · exact List.pairwise_map.2 (pairwise_distinct _)
  · intro d hd
    obtain ⟨r, -, -, rfl⟩ := exists_mention_of_mem hd
    rfl
  · intro folds id i
    rw [exists_dependency_iff]
    constructor
    · rintro ⟨j, spelled, named, assembly, member⟩
      exact ⟨folds j i spelled ▸ assembly, member, j, spelled, named⟩
    · rintro ⟨assembly, member, j, spelled, named⟩
      exact ⟨j, spelled, named, folds j i spelled ▸ assembly, member⟩

/-- The caller of a method of integers, with two more rows: a type that is nested in itself, and a member
whose signature ends too early. -/
def damagedCaller : Assembly :=
  { integerCaller ⟨.typeSpec, 1⟩ with
    typeRefs := #[some ⟨"System", "Int32", ⟨.assemblyRef, 1⟩⟩, some ⟨"", "Loop", ⟨.typeRef, 2⟩⟩]
    memberRefs := #[some ⟨"ToString", ⟨.typeSpec, 1⟩, ⟨#[0x20, 0x00, 0x0E]⟩⟩,
      some ⟨"Broken", ⟨.typeRef, 1⟩, ⟨#[0x20, 0x05]⟩⟩] }

def clearedCaller : Assembly :=
  { damagedCaller with
    typeRefs := #[some ⟨"System", "Int32", ⟨.assemblyRef, 1⟩⟩, none]
    memberRefs := #[some ⟨"ToString", ⟨.typeSpec, 1⟩, ⟨#[0x20, 0x00, 0x0E]⟩⟩, none] }

theorem damagedCaller_drops : damagedCaller.Drops clearedCaller where
  others := ⟨_, _, rfl⟩
  typeRefs_size := rfl
  memberRefs_size := rfl
  typeRef? row := by
    match row with
    | 0 | 1 => exact .inl rfl
    | 2 => exact .inr ⟨rfl, .recursionLimit maxChain, rfl⟩
    | row + 3 => exact .inl rfl
  memberRef? row := by
    match row with
    | 0 | 1 => exact .inl rfl
    | 2 =>
      refine .inr ⟨rfl, fun m resolved => ?_⟩
      have lost : (damagedCaller.memberShape 2).toOption.isSome = false := by decide +kernel
      rw [resolved] at lost
      cases lost
    | row + 3 => exact .inl rfl

/-- The member is found, as its row names it, and it is found just so without the two damaged rows. -/
theorem find_dependencies_damaged :
    (standard.find damagedCaller false).value = .ok (integerCalls true) ∧
      (∃ j, j.same coreReference = true ∧
        standard.Names damagedCaller "M:System.Int32.ToString" j) ∧
      (standard.find clearedCaller false).value = .ok (integerCalls true) := by
  have found : (standard.find damagedCaller false).value = .ok (integerCalls true) := by
    rw [← toOption_eq_some_iff]
    decide +kernel
  obtain ⟨-, -, -, occurs, -, drops⟩ :=
    find_dependencies standard damagedCaller (integerCalls true) found
  obtain ⟨j, spelled, named, -⟩ := (occurs "M:System.Int32.ToString" coreReference).1
    ⟨_, List.mem_of_getElem? (i := 1) rfl, by decide +kernel⟩
  exact ⟨found, ⟨j, spelled, named⟩, drops clearedCaller damagedCaller_drops⟩

end Finder

end FrameworkAudit
