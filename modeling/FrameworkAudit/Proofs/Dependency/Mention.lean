import FrameworkAudit.Dependency.Finder
import FrameworkAudit.Host.Standard
import FrameworkAudit.Proofs.DocId
import FrameworkAudit.Proofs.Shape

/-!
Where the members that an assembly depends on come from. Rows mention members; of the mentions of
one member the first that counts gives the dependency all its data. The identifier and the assembly
of a member therefore leave open what the first mention decides: whether the declaring type is
written as a byte of a signature, and which dot of the identifier ends the declaring type.
-/

set_option autoImplicit false

namespace FrameworkAudit

namespace MemberInfo

theorem same_refl (m : MemberInfo) : m.same m = true :=
  compare_eq_iff_same.1 Std.ReflCmp.compare_self

theorem same_trans {a b c : MemberInfo} (hab : a.same b = true) (hbc : b.same c = true) :
    a.same c = true := by
  rw [← compare_eq_iff_same] at *
  exact Std.TransCmp.eq_trans hab hbc

end MemberInfo

/-- A place where an assembly names a member: a row of its type references, or a row of its member
references, which names the declaring type as well if that is the assembly's own. -/
inductive Mention where
  | type (t : NamedType)
  | owner (m : MemberShape) (definedIn : Identity)
  | member (m : MemberShape) (definedIn : Identity)

namespace Mention

def info : Mention → MemberInfo
  | type t => ⟨DocId.ofType (.named t), some (DocId.ofType (.named t)), t.assembly?, false⟩
  | owner m definedIn =>
    ⟨DocId.ofTypeDefinition m.parent, some (DocId.ofTypeDefinition m.parent), some definedIn,
      m.parent.isPrimitive⟩
  | member m definedIn =>
    ⟨DocId.ofMember m, some (DocId.ofTypeDefinition m.parent), some definedIn,
      m.parent.isPrimitive⟩

def isPrimitive : Mention → Bool
  | type _ => false
  | owner m _ => m.parent.isPrimitive
  | member m _ => m.parent.isPrimitive

def suffixDots : Mention → Nat
  | member m _ => m.suffixDots
  | _ => 0

def IsPlain : Mention → Prop
  | member m _ => m.IsPlain
  | _ => True

def IsSpecified (a : Assembly) : Mention → Prop
  | type _ => False
  | owner m _ | member m _ => ∃ row entry, a.memberShape row = .ok (some m) ∧
      a.memberRef? row = some entry ∧ entry.parent.table = .typeSpec

variable {r s : Mention}

theorem isPrimitive_info : r.info.isPrimitive = r.isPrimitive := by
  cases r <;> rfl

theorem member_or_type (r : Mention) : (∃ m definedIn, r = member m definedIn) ∨
    (∃ text, r.info.id = DocId.mark .type ++ text) ∧ r.info.type? = some r.info.id ∧
      r.suffixDots = 0 := by
  cases r with
  | type t => exact .inr ⟨⟨_, rfl⟩, rfl, rfl⟩
  | owner m definedIn => exact .inr ⟨⟨_, rfl⟩, rfl, rfl⟩
  | member m definedIn => exact .inl ⟨m, definedIn, rfl⟩

theorem both_members_or_types (h : r.info.id = s.info.id) :
    (∃ m i n j, r = member m i ∧ s = member n j ∧ DocId.ofMember m = DocId.ofMember n) ∨
      r.info.type? = s.info.type? ∧ r.suffixDots = s.suffixDots := by
  rcases member_or_type r with ⟨m, i, rfl⟩ | ⟨⟨t, ht⟩, hr, hrd⟩ <;>
    rcases member_or_type s with ⟨n, j, rfl⟩ | ⟨⟨u, hu⟩, hs, hsd⟩
  · exact .inl ⟨m, i, n, j, rfl, rfl, h⟩
  · exact absurd (h.trans hu) MemberShape.ofMember_ne_type
  · exact absurd (h.symm.trans ht) MemberShape.ofMember_ne_type
  · exact .inr ⟨by rw [hr, hs, h], by rw [hrd, hsd]⟩

theorem ofTypeDefinition_inj {m n : MemberShape} :
    some (DocId.ofTypeDefinition m.parent) = some (DocId.ofTypeDefinition n.parent) ↔
      m.parent.definitionText = n.parent.definitionText := by
  simp [DocId.ofTypeDefinition]

theorem type?_eq_iff (h : r.info.id = s.info.id) :
    r.info.type? = s.info.type? ↔ r.suffixDots = s.suffixDots := by
  rcases both_members_or_types h with ⟨m, i, n, j, rfl, rfl, hid⟩ | ⟨htype, hdots⟩
  · exact ofTypeDefinition_inj.trans (MemberShape.definitionText_eq_iff hid)
  · simp [htype, hdots]

theorem type?_eq_of_plain (hr : r.IsPlain) (hs : s.IsPlain) (h : r.info.id = s.info.id) :
    r.info.type? = s.info.type? := by
  rcases both_members_or_types h with ⟨m, i, n, j, rfl, rfl, hid⟩ | ⟨htype, -⟩
  · exact ofTypeDefinition_inj.2 (MemberShape.definitionText_eq_of_plain hr hs hid)
  · exact htype

end Mention

namespace Finder

def typeRefMentions (a : Assembly) (row : Nat) : List Mention :=
  match a.typeRefShape row with
  | .ok t => [.type t]
  | .error _ => []

def memberMentions (a : Assembly) (m : MemberShape) (definedIn : Identity) : List Mention :=
  if definedIn.same a.identity then [.owner m definedIn, .member m definedIn]
  else [.member m definedIn]

def memberRefMentions (core? : Option Identity) (a : Assembly) (row : Nat) : List Mention :=
  match a.memberShape row with
  | .ok (some m) =>
    match if m.parent.isPrimitive then core? else m.parent.assembly? with
    | some definedIn => memberMentions a m definedIn
    | none => []
  | _ => []

def mentions (f : Finder) (a : Assembly) : List Mention :=
  (rowNumbers a.typeRefs.size).flatMap (typeRefMentions a) ++
    (rowNumbers a.memberRefs.size).flatMap (memberRefMentions (f.coreLibrary? a) a)

def firstMention? (f : Finder) (a : Assembly) (m : MemberInfo) : Option Mention :=
  (f.mentions a).find? fun r => f.tracks r.info && m.same r.info

variable {f : Finder} {a : Assembly} {row : Nat} {core? : Option Identity}

theorem candidates_skipping {table : TableId} {e : Error} {o : RowOutcome}
    (h : skipping table row e = .ok o) : RowOutcome.candidates o = [] := by
  unfold skipping at h
  split at h
  · cases h
    rfl
  · cases h

theorem candidates_typeRef {o : RowOutcome} (h : typeRefOutcome a row = .ok o) :
    RowOutcome.candidates o = (typeRefMentions a row).map Mention.info := by
  unfold typeRefOutcome at h
  unfold typeRefMentions
  cases ht : a.typeRefShape row with
  | error e =>
    rw [ht] at h
    exact candidates_skipping h
  | ok t =>
    rw [ht] at h
    cases h
    rfl

theorem memberCandidates_eq {m : MemberShape} {definedIn : Identity} :
    memberCandidates a m definedIn = (memberMentions a m definedIn).map Mention.info := by
  unfold memberCandidates memberMentions
  split <;> rfl

theorem mem_memberMentions {m : MemberShape} {definedIn : Identity} {r : Mention}
    (h : r ∈ memberMentions a m definedIn) : r = .owner m definedIn ∨ r = .member m definedIn := by
  unfold memberMentions at h
  split at h
  · simpa using h
  · exact .inr (List.mem_singleton.1 h)

theorem candidates_member {m : MemberShape} {definedIn : Identity} {o : RowOutcome}
    (h : memberOutcome a m definedIn = .ok o) :
    RowOutcome.candidates o = (memberMentions a m definedIn).map Mention.info := by
  unfold memberOutcome at h
  split at h
  · cases h
    exact memberCandidates_eq
  · cases h

theorem candidates_memberRef [Host] {o : RowOutcome} (h : memberRefOutcome core? a row = .ok o) :
    RowOutcome.candidates o = (memberRefMentions core? a row).map Mention.info := by
  unfold memberRefOutcome at h
  unfold memberRefMentions
  cases hm : a.memberShape row with
  | error e =>
    rw [hm] at h
    exact candidates_skipping h
  | ok m? =>
    rw [hm] at h
    cases m? with
    | none =>
      cases h
      rfl
    | some m =>
      simp only at h ⊢
      split at h
      · rename_i hp
        rw [if_pos hp]
        cases core? with
        | none => cases h
        | some core => exact candidates_member h
      · rename_i hp
        rw [if_neg hp]
        cases hd : m.parent.assembly? with
        | none =>
          rw [hd] at h
          cases h
          rfl
        | some definedIn =>
          rw [hd] at h
          exact candidates_member h

theorem candidates_of_rows {step : Nat → Except Error RowOutcome} {named : Nat → List Mention}
    (hstep : ∀ row o, step row = .ok o → RowOutcome.candidates o = (named row).map Mention.info)
    {numbers : List Nat} {rows : List RowOutcome}
    (h : List.Forall₂ (fun row o => step row = .ok o) numbers rows) :
    rows.flatMap RowOutcome.candidates = (numbers.flatMap named).map Mention.info := by
  induction h with
  | nil => rfl
  | cons ho _ ih => rw [List.flatMap_cons, hstep _ _ ho, ih, List.flatMap_cons, List.map_append]

theorem candidates_eq [Host] {rows : List RowOutcome} (h : (f.outcomes a).mapM id = .ok rows) :
    rows.flatMap RowOutcome.candidates = (f.mentions a).map Mention.info := by
  simp only [outcomes, List.mapM_append, bind_eq_ok_iff, pure_eq_ok_iff, mapM_eq_ok_iff,
    List.forall₂_map_left_iff, id] at h
  obtain ⟨types, htypes, members, hmembers, rfl⟩ := h
  rw [List.flatMap_append, mentions, List.map_append,
    candidates_of_rows (fun _ _ => candidates_typeRef) htypes,
    candidates_of_rows (fun _ _ => candidates_memberRef) hmembers]

theorem isSpecified_of_mem {r : Mention} (h : r ∈ f.mentions a) (hp : r.isPrimitive = true) :
    r.IsSpecified a := by
  rcases List.mem_append.1 h with h | h
  · obtain ⟨row, -, h⟩ := List.mem_flatMap.1 h
    unfold typeRefMentions at h
    split at h
    · obtain rfl := List.mem_singleton.1 h
      cases hp
    · cases h
  · obtain ⟨row, -, h⟩ := List.mem_flatMap.1 h
    unfold memberRefMentions at h
    split at h
    · rename_i m hm
      split at h
      · rcases mem_memberMentions h with rfl | rfl
        · exact ⟨row, (Assembly.parent_of_isPrimitive hm hp).imp fun _ he => ⟨hm, he⟩⟩
        · exact ⟨row, (Assembly.parent_of_isPrimitive hm hp).imp fun _ he => ⟨hm, he⟩⟩
      · cases h
    · cases h

/-- Keeps a member unless one equal to it is kept already. -/
def keepNew (kept : Array MemberInfo) (m : MemberInfo) : Array MemberInfo :=
  if kept.any m.same then kept else kept.push m

/-- Of what was read each kept member is the first of its kind, and all kinds are kept. -/
structure KeepsFirst (read : List MemberInfo) (kept : Array MemberInfo) : Prop where
  first : ∀ m ∈ kept, read.find? m.same = some m
  all : ∀ m ∈ read, ∃ k ∈ kept, m.same k = true

theorem KeepsFirst.keepNew {read : List MemberInfo} {kept : Array MemberInfo} (m : MemberInfo)
    (h : KeepsFirst read kept) : KeepsFirst (read ++ [m]) (keepNew kept m) := by
  unfold Finder.keepNew
  split
  · rename_i hany
    obtain ⟨k, hk, hmk⟩ := Array.any_eq_true'.1 hany
    refine ⟨fun x hx => ?_, fun x hx => ?_⟩
    · rw [List.find?_append, h.first x hx, Option.some_or]
    · rcases List.mem_append.1 hx with hx | hx
      · exact h.all x hx
      · obtain rfl := List.mem_singleton.1 hx
        exact ⟨k, hk, hmk⟩
  · rename_i hnew
    have new : ∀ x ∈ read, m.same x = false := by
      refine fun x hx => Bool.eq_false_iff.2 fun hmx => hnew ?_
      obtain ⟨k, hk, hxk⟩ := h.all x hx
      exact Array.any_eq_true'.2 ⟨k, hk, MemberInfo.same_trans hmx hxk⟩
    refine ⟨fun x hx => ?_, fun x hx => ?_⟩
    · rcases Array.mem_push.1 hx with hx | rfl
      · rw [List.find?_append, h.first x hx, Option.some_or]
      · have none : read.find? x.same = none :=
          List.find?_eq_none.2 fun y hy => by simp [new y hy]
        rw [List.find?_append, none, Option.none_or]
        simp [MemberInfo.same_refl]
    · rcases List.mem_append.1 hx with hx | hx
      · obtain ⟨k, hk, hxk⟩ := h.all x hx
        exact ⟨k, Array.mem_push_of_mem m hk, hxk⟩
      · obtain rfl := List.mem_singleton.1 hx
        exact ⟨x, Array.mem_push_self, MemberInfo.same_refl x⟩

theorem keepsFirst_foldl (rest : List MemberInfo) {read : List MemberInfo}
    {kept : Array MemberInfo} (h : KeepsFirst read kept) :
    KeepsFirst (read ++ rest) (rest.foldl keepNew kept) := by
  induction rest generalizing read kept with
  | nil => simpa using h
  | cons m rest ih => simpa using ih (h.keepNew m)

theorem find?_of_mem_distinct {members : List MemberInfo} {m : MemberInfo}
    (h : m ∈ distinct members) : members.find? m.same = some m := by
  have start : KeepsFirst [] #[] := ⟨by simp, by simp⟩
  exact (keepsFirst_foldl members start).first m (Array.mem_toList_iff.1 h)

/-- A dependency has all its data from the first tracked mention of its member. -/
theorem exists_firstMention [Host] {found : FileDependencies} {d : Dependency}
    (h : (f.find a false).value = .ok found) (hd : d ∈ found.dependencies) :
    ∃ r, f.firstMention? a d.member = some r ∧ r.info = d.member := by
  simp only [find] at h
  cases hrows : (f.outcomes a).mapM id with
  | error e => simp [hrows] at h
  | ok rows =>
    simp only [hrows, Bool.false_eq_true, if_false, Except.ok.injEq] at h
    subst h
    obtain ⟨m, hm, rfl⟩ := List.mem_map.1 hd
    have first := find?_of_mem_distinct hm
    rw [candidates_eq hrows, List.find?_filter, List.find?_map] at first
    simpa [firstMention?, Function.comp_def] using first

/-- The identifier and the assembly of a dependency fix its other data only as far as the mentions
behind them agree. Dependencies of one identifier have one declaring type exactly if as many dots
follow the member's name in both mentions, as is so for plain names. They are flagged alike exactly
if both mentions or neither write the declaring type as a byte, which only type specifications do.
-/
theorem same_key_iff [Host] (f : Finder) (a b : Assembly) (x y : FileDependencies) (d e : Dependency)
    (hx : (f.find a false).value = .ok x) (hy : (f.find b false).value = .ok y)
    (hd : d ∈ x.dependencies) (he : e ∈ y.dependencies) (hid : d.member.id = e.member.id) :
    ∃ r s, f.firstMention? a d.member = some r ∧ f.firstMention? b e.member = some s ∧
      (d.member.type? = e.member.type? ↔ r.suffixDots = s.suffixDots) ∧
      (r.IsPlain → s.IsPlain → d.member.type? = e.member.type?) ∧
      (d.member.isPrimitive = e.member.isPrimitive ↔ r.isPrimitive = s.isPrimitive) ∧
      (r.isPrimitive = true → r.IsSpecified a) ∧ (s.isPrimitive = true → s.IsSpecified b) := by
  obtain ⟨r, hr, hrd⟩ := exists_firstMention hx hd
  obtain ⟨s, hs, hse⟩ := exists_firstMention hy he
  have hra := isSpecified_of_mem (List.mem_of_find?_eq_some hr)
  have hsb := isSpecified_of_mem (List.mem_of_find?_eq_some hs)
  refine ⟨r, s, hr, hs, ?_⟩
  rw [← hrd, ← hse] at hid ⊢
  refine ⟨Mention.type?_eq_iff hid, fun pr ps => Mention.type?_eq_of_plain pr ps hid, ?_, hra, hsb⟩
  rw [Mention.isPrimitive_info, Mention.isPrimitive_info]

def standard : Finder := ⟨FilterConfig.standard.filter, defaultCoreNames⟩

def coreReference : Identity :=
  ⟨"mscorlib", ⟨4, 0, 0, 0⟩, none,
    KeyToken.ofBytes? [0xb7, 0x7a, 0x5c, 0x56, 0x19, 0x34, 0xe0, 0x89]⟩

/-- An assembly that calls a method of integers; the parent is the row of their type or that of a
signature which writes them as a byte. -/
def integerCaller (parent : CodedIndex) : Assembly where
  identity := ⟨"App", .zero, none, none⟩
  framework := ""
  fileVersion := ""
  assemblyRefs := #[some coreReference]
  typeRefs := #[some ⟨"System", "Int32", ⟨.assemblyRef, 1⟩⟩]
  typeDefs := #[]
  typeSpecs := #[some ⟨#[0x08]⟩]
  memberRefs := #[some ⟨"ToString", parent, ⟨#[0x20, 0x00, 0x0E]⟩⟩]
  nesting := []

def integerCalls (isPrimitive : Bool) : FileDependencies :=
  let info := (integerCaller ⟨.typeRef, 1⟩).info
  ⟨info,
    [⟨⟨"T:System.Int32", some "T:System.Int32", some coreReference, false⟩, info⟩,
     ⟨⟨"M:System.Int32.ToString", some "T:System.Int32", some coreReference, isPrimitive⟩, info⟩]⟩

theorem find_integerCaller (isPrimitive : Bool) :
    (standard.find (integerCaller ⟨if isPrimitive then .typeSpec else .typeRef, 1⟩) false).value =
      .ok (integerCalls isPrimitive) := by
  have value : (standard.find (integerCaller ⟨if isPrimitive then .typeSpec else .typeRef, 1⟩)
      false).value.toOption = some (integerCalls isPrimitive) := by
    cases isPrimitive <;> decide +kernel
  unfold Except.toOption at value
  split at value
  · rw [← Option.some.inj value]
    assumption
  · cases value

/-- The references write the type in two ways, so they agree in the type and not in the flag. -/
theorem same_key_iff_integers : ∃ r s,
    standard.firstMention? (integerCaller ⟨.typeRef, 1⟩) ⟨"M:System.Int32.ToString",
      some "T:System.Int32", some coreReference, false⟩ = some r ∧
    standard.firstMention? (integerCaller ⟨.typeSpec, 1⟩) ⟨"M:System.Int32.ToString",
      some "T:System.Int32", some coreReference, true⟩ = some s ∧
    r.suffixDots = s.suffixDots ∧ r.isPrimitive ≠ s.isPrimitive := by
  obtain ⟨r, s, hr, hs, types, -, flags, -⟩ := same_key_iff standard (integerCaller ⟨.typeRef, 1⟩)
    (integerCaller ⟨.typeSpec, 1⟩) (integerCalls false) (integerCalls true) _ _
    (find_integerCaller false) (find_integerCaller true) (List.mem_of_getElem? (i := 1) rfl)
    (List.mem_of_getElem? (i := 1) rfl) rfl
  exact ⟨r, s, hr, hs, types.1 rfl, fun h => by simpa using flags.2 h⟩

theorem same_key_of_unlike_flags : ∃ x y d e,
    (standard.find (integerCaller ⟨.typeRef, 1⟩) false).value = .ok x ∧
    (standard.find (integerCaller ⟨.typeSpec, 1⟩) false).value = .ok y ∧
    d ∈ x.dependencies ∧ e ∈ y.dependencies ∧ d.member.same e.member = true ∧
    d.member.isPrimitive ≠ e.member.isPrimitive :=
  ⟨_, _, _, _, find_integerCaller false, find_integerCaller true,
    List.mem_of_getElem? (i := 1) rfl, List.mem_of_getElem? (i := 1) rfl,
    by decide +kernel, by decide +kernel⟩

end Finder

end FrameworkAudit
