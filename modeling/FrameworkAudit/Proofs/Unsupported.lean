import FrameworkAudit.Audit
import FrameworkAudit.Proofs.Breaking.Reached
import FrameworkAudit.Proofs.Dependency.Facts
import FrameworkAudit.Proofs.Dependency.Visit

/-!
The members that some target lacks. Members of one identifier are one group, known by the least of
them and by everyone who calls one of them; an audit reports each group once, in the order of the
identifiers, and the same groups whatever the order in which it visits the dependencies.
-/

set_option autoImplicit false

namespace FrameworkAudit

open Sorted

variable {c : Catalog} {targets : List Target} {policy : Policy}
  {seen rest : List (MemberInfo × List AssemblyInfo)} {id : DocId}

/-- The least of the members of an identifier that were seen, and all assemblies seen to call one
of them. -/
structure IsGroup (seen : List (MemberInfo × List AssemblyInfo)) (id : DocId)
    (group : MemberInfo × List AssemblyInfo) : Prop where
  id_eq : group.1.id = id
  tracked : Tracks seen group.1
  least : ∀ m, Tracks seen m → m.id = id → (compare group.1 m).isLE = true
  strict : Strict compare group.2
  called : ∀ a ∈ group.2, CallsId seen id a
  complete : ∀ a, CallsId seen id a → Has compare a group.2

structure Grouped (seen : List (MemberInfo × List AssemblyInfo))
    (groups : List (DocId × (MemberInfo × List AssemblyInfo))) : Prop where
  keys : groups.Pairwise fun a b => compare a.1 b.1 = .lt
  covers : ∀ m, Tracks seen m → ∃ g ∈ groups, g.1 = m.id
  groups : ∀ g ∈ groups, IsGroup seen g.1 g.2

namespace Catalog

def joinGroup (entry group : MemberInfo × List AssemblyInfo) : MemberInfo × List AssemblyInfo :=
  (if compare entry.1 group.1 = .lt then entry.1 else group.1, insertAll compare entry.2 group.2)

def addToGroups (map : List (DocId × (MemberInfo × List AssemblyInfo)))
    (entry : MemberInfo × List AssemblyInfo) : List (DocId × (MemberInfo × List AssemblyInfo)) :=
  alter compare entry.1.id (entry.1, []) (joinGroup entry) map

theorem groups_eq_foldl (info : DependencyInfo) : groups info = info.members.foldl addToGroups [] :=
  rfl

end Catalog

open Catalog

variable {entry group : MemberInfo × List AssemblyInfo} {member : MemberInfo}
  {map : List (DocId × (MemberInfo × List AssemblyInfo))} {caller : AssemblyInfo}

theorem tracks_append : Tracks (seen ++ [entry]) member ↔ Tracks seen member ∨ entry.1 = member := by
  simp [Tracks, or_and_right, exists_or]

theorem callsId_append : CallsId (seen ++ [entry]) id caller ↔
    CallsId seen id caller ∨ entry.1.id = id ∧ caller ∈ entry.2 := by
  simp [CallsId, or_and_right, exists_or]

theorem IsGroup.of_other (h : IsGroup seen id group) (hne : entry.1.id ≠ id) :
    IsGroup (seen ++ [entry]) id group where
  id_eq := h.id_eq
  tracked := tracks_append.2 (.inl h.tracked)
  least m hm hid := by
    rcases tracks_append.1 hm with hm | rfl
    · exact h.least m hm hid
    · exact absurd hid hne
  strict := h.strict
  called a ha := callsId_append.2 (.inl (h.called a ha))
  complete a ha := by
    rcases callsId_append.1 ha with ha | ⟨hid, -⟩
    · exact h.complete a ha
    · exact absurd hid hne

theorem IsGroup.join (h : IsGroup seen entry.1.id group) :
    IsGroup (seen ++ [entry]) entry.1.id (joinGroup entry group) where
  id_eq := by
    unfold joinGroup
    split
    · rfl
    · exact h.id_eq
  tracked := by
    unfold joinGroup
    split
    · exact tracks_append.2 (.inr rfl)
    · exact tracks_append.2 (.inl h.tracked)
  least m hm hid := by
    unfold joinGroup
    rcases tracks_append.1 hm with hm | rfl
    · have hle := h.least m hm hid
      split
      · rename_i hlt
        exact Std.TransCmp.isLE_trans (by simp [hlt]) hle
      · exact hle
    · split
      · simp [Std.ReflCmp.compare_self]
      · rename_i hlt
        rw [← Ordering.isGE_iff_ne_lt] at hlt
        exact Std.OrientedCmp.isLE_of_isGE hlt
  strict := strict_insertAll h.strict
  called a ha := by
    rcases mem_of_mem_insertAll ha with ha | ha
    · exact callsId_append.2 (.inl (h.called a ha))
    · exact callsId_append.2 (.inr ⟨rfl, ha⟩)
  complete a ha := by
    refine has_insertAll.2 ?_
    rcases callsId_append.1 ha with ha | ⟨-, ha⟩
    · exact .inl (h.complete a ha)
    · exact .inr ⟨a, ha, Std.ReflCmp.compare_self⟩

theorem isGroup_fresh (h : ∀ m, Tracks seen m → m.id ≠ entry.1.id) :
    IsGroup (seen ++ [entry]) entry.1.id (joinGroup entry (entry.1, [])) where
  id_eq := by simp [joinGroup]
  tracked := by simpa [joinGroup] using tracks_append.2 (.inr rfl)
  least m hm hid := by
    rcases tracks_append.1 hm with hm | rfl
    · exact absurd hid (h m hm)
    · simp [joinGroup, Std.ReflCmp.compare_self]
  strict := strict_insertAll .nil
  called a ha := by
    have ha := (mem_of_mem_insertAll ha).resolve_left List.not_mem_nil
    exact callsId_append.2 (.inr ⟨rfl, ha⟩)
  complete a ha := by
    refine has_insertAll.2 (.inr ?_)
    rcases callsId_append.1 ha with ⟨e, he, hid, -⟩ | ⟨-, ha⟩
    · exact absurd hid (h e.1 ⟨e, he, rfl⟩)
    · exact ⟨a, ha, Std.ReflCmp.compare_self⟩

theorem pairwise_addToGroups (h : map.Pairwise fun a b => compare a.1 b.1 = .lt) :
    (addToGroups map entry).Pairwise fun a b => compare a.1 b.1 = .lt := by
  have keys : Strict compare (map.map Prod.fst) := List.pairwise_map.2 h
  have added : Strict compare ((addToGroups map entry).map Prod.fst) := by
    rw [addToGroups, map_fst_alter]
    exact strict_insert keys
  exact List.pairwise_map.1 added

theorem Grouped.add (h : Grouped seen map) :
    Grouped (seen ++ [entry]) (addToGroups map entry) where
  keys := pairwise_addToGroups h.keys
  covers m hm := by
    by_cases hid : m.id = entry.1.id
    · exact ⟨_, (mem_alter h.keys).2 (.inr rfl), hid.symm⟩
    · have hm := (tracks_append.1 hm).resolve_right fun e => hid (e ▸ rfl)
      obtain ⟨g, hg, he⟩ := h.covers m hm
      exact ⟨g, (mem_alter h.keys).2 (.inl ⟨he ▸ hid, hg⟩), he⟩
  groups g hg := by
    rcases (mem_alter h.keys).1 hg with ⟨hne, hg⟩ | rfl
    · exact (h.groups g hg).of_other (Ne.symm hne)
    · cases hf : find? compare entry.1.id map with
      | none =>
        refine isGroup_fresh fun m hm hid => find?_eq_none_iff.1 hf ?_
        obtain ⟨g, hg, he⟩ := h.covers m hm
        exact ⟨g, hg, by simp [he, hid]⟩
      | some group => exact (h.groups _ (mem_of_find?_eq_some hf)).join

theorem Grouped.foldl (h : Grouped seen map) :
    Grouped (seen ++ rest) (rest.foldl addToGroups map) := by
  induction rest generalizing seen map with
  | nil => simpa using h
  | cons entry rest ih => simpa using ih h.add

theorem grouped_groups (info : DependencyInfo) : Grouped info.members (Catalog.groups info) := by
  have start : Grouped [] [] := ⟨.nil, by simp [Tracks], by simp⟩
  rw [groups_eq_foldl]
  exact start.foldl

theorem Grouped.mem_ids (h : Grouped seen map) :
    id ∈ map.map Prod.fst ↔ ∃ m, Tracks seen m ∧ m.id = id := by
  rw [List.mem_map]
  constructor
  · rintro ⟨g, hg, rfl⟩
    exact ⟨g.2.1, (h.groups g hg).tracked, (h.groups g hg).id_eq⟩
  · rintro ⟨m, hm, rfl⟩
    exact h.covers m hm

theorem IsGroup.of_rearranged {xs ys : List (MemberInfo × List AssemblyInfo)}
    (hr : Rearranged xs ys) (h : IsGroup ys id group) : IsGroup xs id group where
  id_eq := h.id_eq
  tracked := hr.tracks_iff.2 h.tracked
  least m hm hid := h.least m (hr.tracks_iff.1 hm) hid
  strict := h.strict
  called a ha := hr.callsId_iff.2 (h.called a ha)
  complete a ha := h.complete a (hr.callsId_iff.1 ha)

theorem IsGroup.has_iff (h : IsGroup seen id group) :
    Has compare caller group.2 ↔ ∃ a, CallsId seen id a ∧ compare caller a = .eq := by
  constructor
  · rintro ⟨a, ha, he⟩
    exact ⟨a, h.called a ha, he⟩
  · rintro ⟨a, ha, he⟩
    exact (Has.congr he).2 (h.complete a ha)

theorem IsGroup.unique {other : MemberInfo × List AssemblyInfo}
    (keys : seen.Pairwise fun a b => compare a.1 b.1 = .lt) (h : IsGroup seen id group)
    (ho : IsGroup seen id other) :
    group.1 = other.1 ∧ List.Forall₂ (fun a b => a.same b = true) group.2 other.2 := by
  constructor
  · obtain ⟨x, hx, hxg⟩ := h.tracked
    obtain ⟨y, hy, hyo⟩ := ho.tracked
    have hle := h.least other.1 ho.tracked ho.id_eq
    have hge := ho.least group.1 h.tracked h.id_eq
    have he : compare group.1 other.1 = .eq := Std.OrientedCmp.isLE_antisymm hle hge
    obtain rfl : x = y := eq_of_keys_eq keys hx hy (by rw [hxg, hyo, he])
    exact hxg.symm.trans hyo
  · have callers := strict_ext h.strict ho.strict fun a => by rw [h.has_iff, ho.has_iff]
    exact callers.imp fun a b he => AssemblyInfo.compare_eq_iff_same.1 he

def SameGroup (a b : DocId × (MemberInfo × List AssemblyInfo)) : Prop :=
  a.1 = b.1 ∧ a.2.1 = b.2.1 ∧ List.Forall₂ (fun x y => x.same y = true) a.2.2 b.2.2

/-- Groups do not depend on the order in which their members are visited. -/
theorem sameGroup_groups {info : DependencyInfo} (tidy : info.Tidy)
    {entries : List (MemberInfo × List AssemblyInfo)} (visited : Rearranged info.members entries) :
    List.Forall₂ SameGroup (Catalog.groups info)
      (Catalog.groups { info with members := entries }) := by
  have hg := grouped_groups info
  have ho := grouped_groups { info with members := entries }
  have keys : List.Forall₂ (fun a b : DocId × (MemberInfo × List AssemblyInfo) =>
      compare a.1 b.1 = .eq) (Catalog.groups info)
        (Catalog.groups { info with members := entries }) := by
    have ids := strict_ext (List.pairwise_map.2 hg.keys) (List.pairwise_map.2 ho.keys) fun id => by
      rw [has_iff_mem, has_iff_mem, hg.mem_ids, ho.mem_ids]
      simp only [visited.tracks_iff]
    simpa only [List.forall₂_map_left_iff, List.forall₂_map_right_iff] using ids
  rw [List.forall₂_iff_zip] at keys ⊢
  refine ⟨keys.1, fun {a b} hm => ?_⟩
  obtain ⟨ha, hb⟩ := List.of_mem_zip hm
  have hid : a.1 = b.1 := Std.LawfulEqCmp.eq_of_compare (keys.2 hm)
  have other := (ho.groups b hb).of_rearranged visited
  exact ⟨hid, (hg.groups a ha).unique tidy.members.keys (hid ▸ other)⟩

theorem AssemblyInfo.name_eq_of_same {a b : AssemblyInfo} (h : a.same b = true) :
    a.identity = b.identity ∧ a.name = b.name := by
  simp only [AssemblyInfo.same, Bool.and_eq_true, beq_iff_eq] at h
  exact ⟨h.1, by rw [AssemblyInfo.name, AssemblyInfo.name, h.1]⟩

namespace Policy

variable {a b : AssemblyInfo} {t : Target}

/-- Policies know assemblies by their identities, so equal assemblies are ignored alike. -/
theorem ignores_congr (h : a.same b = true) : policy.ignores a t = policy.ignores b t := by
  obtain ⟨identity, name⟩ := AssemblyInfo.name_eq_of_same h
  simp only [ignores, IgnoreEntry.covers, IgnoreEntry.names, identity, name]

theorem ignoresAll_congr {xs ys : List AssemblyInfo}
    (h : List.Forall₂ (fun a b => a.same b = true) xs ys) :
    policy.ignoresAll xs t = policy.ignoresAll ys t := by
  have all : (xs.all fun a => policy.ignores a t) = ys.all fun a => policy.ignores a t := by
    induction h with
    | nil => rfl
    | cons hab _ ih => rw [List.all_cons, List.all_cons, ignores_congr hab, ih]
  have empty : xs.isEmpty = ys.isEmpty := by cases h <;> rfl
  rw [ignoresAll, ignoresAll, empty, all]

theorem ignoresAll_eq_false_iff {callers : List AssemblyInfo} :
    policy.ignoresAll callers t = false ↔
      callers = [] ∨ ∃ a ∈ callers, policy.ignores a t = false := by
  simp [ignoresAll, or_iff_not_imp_left]

end Policy

theorem IsGroup.ignoresAll_iff (h : IsGroup seen id group) {t : Target} :
    policy.ignoresAll group.2 t = false ↔
      (∀ a, ¬ CallsId seen id a) ∨ ∃ a, CallsId seen id a ∧ policy.ignores a t = false := by
  have none : group.2 = [] ↔ ∀ a, ¬ CallsId seen id a := by
    constructor
    · intro he a ha
      simpa [he] using h.complete a ha
    · intro hn
      exact List.eq_nil_iff_forall_not_mem.2 fun a ha => hn a (h.called a ha)
  have some : (∃ a ∈ group.2, policy.ignores a t = false) ↔
      ∃ a, CallsId seen id a ∧ policy.ignores a t = false := by
    constructor
    · rintro ⟨a, ha, hi⟩
      exact ⟨a, h.called a ha, hi⟩
    · rintro ⟨a, ha, hi⟩
      obtain ⟨b, hb, he⟩ := h.complete a ha
      refine ⟨b, hb, ?_⟩
      rwa [← Policy.ignores_congr (AssemblyInfo.compare_eq_iff_same.1 he)]
  rw [Policy.ignoresAll_eq_false_iff, none, some]

namespace UnsupportedMember

def Agrees (u v : UnsupportedMember) : Prop :=
  u = { v with callers := u.callers } ∧
    List.Forall₂ (fun a b => a.same b = true) u.callers v.callers

end UnsupportedMember

namespace Catalog

/-- Whether some target lacks the members of an identifier for a caller that is not ignored there.
Members that no one calls are lacking for their own sake. -/
def Lacks (c : Catalog) (targets : List Target) (policy : Policy)
    (entries : List (MemberInfo × List AssemblyInfo)) (id : DocId) : Prop :=
  ∃ t ∈ targets, c.introduced? id t = none ∧
    ((∀ a, ¬ CallsId entries id a) ∨ ∃ a, CallsId entries id a ∧ policy.ignores a t = false)

def reportOf (c : Catalog) (targets : List Target) (group : MemberInfo × List AssemblyInfo) :
    UnsupportedMember where
  member := group.1
  status := targets.map fun t => (t, c.introduced? group.1.id t)
  recommended? := c.recommended? group.1.id
  sourceCompatible? := c.sourceCompatible? group.1.id
  callers := group.2

def flags (c : Catalog) (targets : List Target) (policy : Policy)
    (group : MemberInfo × List AssemblyInfo) : Bool :=
  targets.any fun t => (c.introduced? group.1.id t).isNone && !policy.ignoresAll group.2 t

theorem unsupported?_eq : c.unsupported? targets policy group.1 group.2 =
    if c.flags targets policy group then some (c.reportOf targets group) else none := by
  rw [unsupported?, List.any_map]
  rfl

theorem unsupported?_eq_some_iff {u : UnsupportedMember} :
    c.unsupported? targets policy group.1 group.2 = some u ↔
      c.flags targets policy group = true ∧ u = c.reportOf targets group := by
  rw [unsupported?_eq]
  cases c.flags targets policy group <;> simp [eq_comm]

theorem flags_iff (h : IsGroup seen id group) :
    c.flags targets policy group = true ↔ c.Lacks targets policy seen id := by
  simp only [flags, List.any_eq_true, Bool.and_eq_true, Option.isNone_iff_eq_none,
    Bool.not_eq_true', h.ignoresAll_iff, h.id_eq, Lacks]

def reports (c : Catalog) (targets : List Target) (policy : Policy) (info : DependencyInfo) :
    List UnsupportedMember :=
  ((groups info).filter fun g => c.isMember g.2.1.id).filterMap fun g =>
    c.unsupported? targets policy g.2.1 g.2.2

theorem unsupportedMembers_value {info : DependencyInfo} (known : ∀ t ∈ targets, t ∈ c.targets) :
    (c.unsupportedMembers targets policy info).value = .ok (c.reports targets policy info) := by
  simp only [unsupportedMembers, checkTargets_eq_ok_iff.2 known, reports]

theorem mem_reports {info : DependencyInfo} {u : UnsupportedMember} :
    u ∈ c.reports targets policy info ↔
      ∃ g ∈ groups info, c.isMember g.1 = true ∧ c.Lacks targets policy info.members g.1 ∧
        u = c.reportOf targets g.2 := by
  have hg := grouped_groups info
  simp only [reports, List.mem_filterMap, List.mem_filter]
  constructor
  · rintro ⟨g, ⟨hmem, hm⟩, hu⟩
    have group := hg.groups g hmem
    obtain ⟨flagged, rfl⟩ := unsupported?_eq_some_iff.1 hu
    exact ⟨g, hmem, group.id_eq ▸ hm, (flags_iff group).1 flagged, rfl⟩
  · rintro ⟨g, hmem, hm, lacks, hu⟩
    have group := hg.groups g hmem
    have flagged := (flags_iff group).2 lacks
    exact ⟨g, ⟨hmem, group.id_eq.symm ▸ hm⟩, unsupported?_eq_some_iff.2 ⟨flagged, hu⟩⟩

theorem pairwise_reports {info : DependencyInfo} :
    (c.reports targets policy info).Pairwise fun u v => compare u.member.id v.member.id = .lt := by
  have grouped := grouped_groups info
  have members : (groups info).Pairwise fun a b => compare a.2.1.id b.2.1.id = .lt := by
    refine grouped.keys.imp_of_mem fun {a b} ha hb hlt => ?_
    rwa [(grouped.groups a ha).id_eq, (grouped.groups b hb).id_eq]
  refine (members.filter _).filterMap _ fun a b hlt u hu v hv => ?_
  obtain ⟨-, rfl⟩ := unsupported?_eq_some_iff.1 hu
  obtain ⟨-, rfl⟩ := unsupported?_eq_some_iff.1 hv
  exact hlt

theorem agrees_reports {info : DependencyInfo} (tidy : info.Tidy)
    {entries : List (MemberInfo × List AssemblyInfo)} (visited : Rearranged info.members entries) :
    List.Forall₂ UnsupportedMember.Agrees (c.reports targets policy info)
      (c.reports targets policy { info with members := entries }) := by
  have groups := sameGroup_groups tidy visited
  refine List.rel_filterMap ?_ (List.rel_filter ?_ groups)
  · rintro ⟨id, m, xs⟩ ⟨-, -, ys⟩ ⟨rfl, rfl, callers⟩
    have flagged : c.flags targets policy (m, xs) = c.flags targets policy (m, ys) := by
      simp only [flags, Policy.ignoresAll_congr callers]
    show Option.Rel UnsupportedMember.Agrees (c.unsupported? targets policy (m, xs).1 (m, xs).2)
      (c.unsupported? targets policy (m, ys).1 (m, ys).2)
    rw [unsupported?_eq, unsupported?_eq, flagged]
    cases c.flags targets policy (m, ys) with
    | false => exact .none
    | true => exact .some ⟨rfl, callers⟩
  · rintro a b ⟨-, member, -⟩
    simp only [member]

/-- An audit answers for known targets with the members that some target lacks: strictly sorted, one
for each identifier that is called under some member, described by the catalog and lacking on some
target. A report names the least member of its identifier, the answers of all targets in order, and
everyone who calls a member of the identifier. The order in which the members are visited does not
matter. -/
theorem unsupportedMembers_by_id (c : Catalog) (targets : List Target) (policy : Policy)
    (info : DependencyInfo) (tidy : info.Tidy) (known : ∀ t ∈ targets, t ∈ c.targets) :
    ∃ found, (c.unsupportedMembers targets policy info).value = .ok found ∧
      (found.Pairwise fun u v => compare u.member.id v.member.id = .lt) ∧
      (∀ id, (∃ u ∈ found, u.member.id = id) ↔
        (∃ m, Tracks info.members m ∧ m.id = id) ∧ c.isMember id = true ∧
          c.Lacks targets policy info.members id) ∧
      (∀ u ∈ found,
        (Tracks info.members u.member ∧ ∀ m, Tracks info.members m → m.id = u.member.id →
          (compare u.member m).isLE = true) ∧
        u.status = targets.map (fun t => (t, c.introduced? u.member.id t)) ∧
        Strict compare u.callers ∧ (∀ a ∈ u.callers, CallsId info.members u.member.id a) ∧
        ∀ a, CallsId info.members u.member.id a → ∃ b ∈ u.callers, a.same b = true) ∧
      ∀ entries, Rearranged info.members entries → ∃ other,
        (c.unsupportedMembers targets policy { info with members := entries }).value = .ok other ∧
        List.Forall₂ UnsupportedMember.Agrees found other := by
  have grouped := grouped_groups info
  refine ⟨_, unsupportedMembers_value known, ?_, fun id => ?_, fun u hu => ?_, fun entries hr => ?_⟩
  · exact pairwise_reports
  · constructor
    · rintro ⟨u, hu, rfl⟩
      obtain ⟨g, hg, described, lacks, rfl⟩ := mem_reports.1 hu
      have group := grouped.groups g hg
      rw [reportOf, group.id_eq]
      exact ⟨⟨g.2.1, group.tracked, group.id_eq⟩, described, lacks⟩
    · rintro ⟨tracked, described, lacks⟩
      obtain ⟨g, hg, rfl⟩ := List.mem_map.1 (grouped.mem_ids.2 tracked)
      exact ⟨_, mem_reports.2 ⟨g, hg, described, lacks, rfl⟩, (grouped.groups g hg).id_eq⟩
  · obtain ⟨g, hg, -, -, rfl⟩ := mem_reports.1 hu
    have group := grouped.groups g hg
    refine ⟨⟨group.tracked, fun m hm hid => group.least m hm (hid.trans group.id_eq)⟩, rfl,
      group.strict, fun a ha => ?_, fun a ha => ?_⟩
    · exact group.id_eq.symm ▸ group.called a ha
    · obtain ⟨b, hb, he⟩ := group.complete a (group.id_eq ▸ ha)
      exact ⟨b, hb, AssemblyInfo.compare_eq_iff_same.1 he⟩
  · exact ⟨_, unsupportedMembers_value known, agrees_reports tidy hr⟩

/-- Member `B` comes with the later target; member `C` no target has. -/
def partlySupported : CatalogTables :=
  (((CatalogTables.empty.addTarget someTarget).addTarget laterTarget).addMember "M:A.B" "P"
    laterTarget.version).addUnsupported "M:A.C"

/-- Member `B` is called under two defining assemblies, member `C` by one caller. -/
def sharedMember : DependencyInfo :=
  ((DependencyInfo.empty.addCallers (.ofId "M:A.B" none) [.unnamed]).addCallers
    (.ofId "M:A.B" (some ⟨"Lib", .zero, none, none⟩)) [appAssembly]).addCallers
      (.ofId "M:A.C" none) [appAssembly]

/-- One caller is ignored: member `B` is reported for the other one, member `C` is not. -/
theorem unsupportedMembers_ignoring :
    sharedMember.Tidy ∧ (∀ t ∈ [someTarget, laterTarget], t ∈ partlySupported.catalog.targets) ∧
    ∃ found,
      (partlySupported.catalog.unsupportedMembers [someTarget, laterTarget]
        (Policy.empty.ignore "app" []) sharedMember).value = .ok found ∧
      (∃ u ∈ found, u.member.id = "M:A.B" ∧
        u.status = [(someTarget, none), (laterTarget, some laterTarget.version)] ∧
        (∃ a ∈ u.callers, appAssembly.same a = true) ∧
        ∃ a ∈ u.callers, AssemblyInfo.unnamed.same a = true) ∧
      ∀ u ∈ found, u.member.id ≠ "M:A.C" := by
  have tidy : sharedMember.Tidy := DependencyInfo.tidy_empty.addCallers.addCallers.addCallers
  have known : ∀ t ∈ [someTarget, laterTarget], t ∈ partlySupported.catalog.targets := by decide
  obtain ⟨found, ok, -, ids, facts, -⟩ := unsupportedMembers_by_id partlySupported.catalog
    [someTarget, laterTarget] (Policy.empty.ignore "app" []) sharedMember tidy known
  refine ⟨tidy, known, found, ok, ?_, ?_⟩
  · have lacks : partlySupported.catalog.Lacks [someTarget, laterTarget]
        (Policy.empty.ignore "app" []) sharedMember.members "M:A.B" :=
      ⟨someTarget, by decide, by decide +kernel, .inr ⟨.unnamed, by decide, by rw [ignores_app]; decide⟩⟩
    have tracked : Tracks sharedMember.members (.ofId "M:A.B" none) := by decide
    obtain ⟨u, hu, hid⟩ := (ids "M:A.B").2 ⟨⟨_, tracked, rfl⟩, by decide, lacks⟩
    obtain ⟨-, status, -, -, callers⟩ := facts u hu
    refine ⟨u, hu, hid, ?_, callers _ (hid ▸ by decide), callers _ (hid ▸ by decide)⟩
    rw [status, hid]
    decide +kernel
  · rintro u hu hid
    have only : ∀ entry ∈ sharedMember.members, entry.1.id = "M:A.C" → entry.2 = [appAssembly] := by
      decide
    obtain ⟨-, -, t, ht, -, uncalled | ⟨a, ⟨entry, he, hc, ha⟩, counts⟩⟩ :=
      (ids "M:A.C").1 ⟨u, hu, hid⟩
    · exact uncalled appAssembly (by decide)
    · obtain rfl : a = appAssembly := by simpa [only entry he hc] using ha
      rw [ignores_app] at counts
      exact absurd counts (by decide)

end Catalog

end FrameworkAudit
