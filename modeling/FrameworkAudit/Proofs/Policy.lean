import FrameworkAudit.Proofs.Unsupported

set_option autoImplicit false

namespace FrameworkAudit

open Sorted

inductive Exclusion where
  | assembly (identity : String) (targets : List Target)
  | change (id : String)
  deriving DecidableEq, Repr

namespace Policy

variable {p q r : Policy} {identity id other : String} {targets : List Target} {a : AssemblyInfo}
  {t : Target} {callers : List AssemblyInfo}

@[simp] theorem ignores_ignore : (p.ignore identity targets).ignores a t =
    (p.ignores a t || (IgnoreEntry.mk identity targets).covers a t) := by
  simp [ignores, ignore]

@[simp] theorem ignores_suppress : (p.suppress id).ignores a t = p.ignores a t := rfl

@[simp] theorem suppresses_ignore : (p.ignore identity targets).suppresses id = p.suppresses id :=
  rfl

@[simp] theorem suppresses_suppress :
    (p.suppress id).suppresses other = (p.suppresses other || other == id) := by
  simp [suppresses, suppress, Bool.decide_or, beq_eq_decide]

def exclude (p : Policy) : Exclusion → Policy
  | .assembly identity targets => p.ignore identity targets
  | .change id => p.suppress id

def excludeAll (p : Policy) (exclusions : List Exclusion) : Policy := exclusions.foldl exclude p

structure Within (p q : Policy) : Prop where
  ignores : ∀ a t, p.ignores a t = true → q.ignores a t = true
  suppresses : ∀ id, p.suppresses id = true → q.suppresses id = true

theorem Within.refl (p : Policy) : p.Within p := ⟨fun _ _ h => h, fun _ h => h⟩

theorem Within.exclude (h : p.Within q) (x : Exclusion) : p.Within (q.exclude x) := by
  cases x with
  | assembly identity targets =>
    exact ⟨fun a t hp => by simp [Policy.exclude, h.ignores a t hp],
      fun id hp => by simp [Policy.exclude, h.suppresses id hp]⟩
  | change id =>
    exact ⟨fun a t hp => by simp [Policy.exclude, h.ignores a t hp],
      fun other hp => by simp [Policy.exclude, h.suppresses other hp]⟩

theorem within_excludeAll (p : Policy) (exclusions : List Exclusion) :
    p.Within (p.excludeAll exclusions) :=
  foldl_keeps (p := p.Within) (fun _ x h => h.exclude x) exclusions p (.refl p)

theorem Within.ignores_eq_false (h : p.Within q) (hq : q.ignores a t = false) :
    p.ignores a t = false := by
  simpa [hq] using h.ignores a t

theorem Within.suppresses_eq_false (h : p.Within q) (hq : q.suppresses id = false) :
    p.suppresses id = false := by
  simpa [hq] using h.suppresses id

theorem Within.ignoresAll_eq_false (h : p.Within q) (hq : q.ignoresAll callers t = false) :
    p.ignoresAll callers t = false := by
  rw [ignoresAll_eq_false_iff] at hq ⊢
  obtain none | ⟨a, ha, counts⟩ := hq
  · exact .inl none
  · exact .inr ⟨a, ha, h.ignores_eq_false counts⟩

end Policy

namespace Catalog

variable {c : Catalog} {targets : List Target} {p q : Policy} {submitted : List String}
  {retargeting : Bool} {info : DependencyInfo} {entries : List (MemberInfo × List AssemblyInfo)}

def StillLacks (c : Catalog) (targets : List Target) (policy : Policy) (u : UnsupportedMember) :
    Prop :=
  ∃ t ∈ targets, c.introduced? u.member.id t = none ∧ policy.ignoresAll u.callers t = false

/-- Whether the policy shows the change, and a target has it for a caller that is not ignored. -/
def StillReaches (targets : List Target) (policy : Policy) (d : BreakingDependency) : Prop :=
  policy.suppresses d.change.id = false ∧
    ∃ t ∈ targets, d.change.appliesTo t.version = true ∧ policy.ignores d.caller t = false

theorem StillLacks.within {u : UnsupportedMember} (h : p.Within q)
    (lacks : c.StillLacks targets q u) : c.StillLacks targets p u := by
  obtain ⟨t, ht, none, counts⟩ := lacks
  exact ⟨t, ht, none, h.ignoresAll_eq_false counts⟩

theorem StillReaches.within {d : BreakingDependency} (h : p.Within q)
    (reaches : StillReaches targets q d) : StillReaches targets p d := by
  obtain ⟨kept, t, ht, applies, counts⟩ := reaches
  exact ⟨h.suppresses_eq_false kept, t, ht, applies, h.ignores_eq_false counts⟩

theorem mem_reports_iff_stillLacks {u : UnsupportedMember} : u ∈ c.reports targets p info ↔
    (∃ g ∈ groups info, c.isMember g.2.1.id = true ∧ u = c.reportOf targets g.2) ∧
      c.StillLacks targets p u := by
  have flagged (group : MemberInfo × List AssemblyInfo) : c.flags targets p group = true ↔
      c.StillLacks targets p (c.reportOf targets group) := by
    simp [flags, StillLacks, reportOf]
  simp only [reports, List.mem_filterMap, List.mem_filter, unsupported?_eq_some_iff, flagged]
  constructor
  · intro h
    obtain ⟨g, ⟨hg, described⟩, lacks, hu⟩ := h
    exact ⟨⟨g, hg, described, hu⟩, hu ▸ lacks⟩
  · intro h
    obtain ⟨⟨g, hg, described, hu⟩, lacks⟩ := h
    exact ⟨g, ⟨hg, described⟩, hu ▸ lacks, hu⟩

theorem mem_reports_within {u : UnsupportedMember} (h : p.Within q) :
    u ∈ c.reports targets q info ↔ u ∈ c.reports targets p info ∧ c.StillLacks targets q u := by
  rw [mem_reports_iff_stillLacks, mem_reports_iff_stillLacks]
  constructor
  · intro here
    obtain ⟨group, lacks⟩ := here
    exact ⟨⟨group, lacks.within h⟩, lacks⟩
  · intro here
    obtain ⟨⟨group, -⟩, lacks⟩ := here
    exact ⟨group, lacks⟩

theorem mem_hits_within {d : BreakingDependency} (h : p.Within q) :
    d ∈ c.hits targets q submitted retargeting entries ↔
      d ∈ c.hits targets p submitted retargeting entries ∧ StillReaches targets q d := by
  simp only [mem_hits, Shows, Bool.and_eq_true, Bool.not_eq_true']
  constructor
  · intro here
    obtain ⟨called, change, foreign, ⟨kept, shown⟩, reached⟩ := here
    obtain ⟨was, reachedBefore⟩ := StillReaches.within h ⟨kept, reached⟩
    exact ⟨⟨called, change, foreign, ⟨was, shown⟩, reachedBefore⟩, kept, reached⟩
  · intro here
    obtain ⟨⟨called, change, foreign, ⟨-, shown⟩, -⟩, kept, reached⟩ := here
    exact ⟨called, change, foreign, ⟨kept, shown⟩, reached⟩

/-- Whatever a policy comes to leave out, and in whatever order, the members and the changes that an
audit of known targets then finds are those it found before, as they were, of which it does not hide
all. -/
theorem findings_excludeAll (c : Catalog) (targets : List Target) (policy : Policy)
    (exclusions : List Exclusion) (submitted : List String) (info : DependencyInfo)
    (retargeting : Bool) (entries : List (MemberInfo × List AssemblyInfo)) (tidy : info.Tidy)
    (visited : Rearranged info.members entries) (known : ∀ t ∈ targets, t ∈ c.targets) :
    (∃ found kept,
      (c.unsupportedMembers targets policy { info with members := entries }).value = .ok found ∧
      (c.unsupportedMembers targets (policy.excludeAll exclusions)
        { info with members := entries }).value = .ok kept ∧
      ∀ u, u ∈ kept ↔ u ∈ found ∧ c.StillLacks targets (policy.excludeAll exclusions) u) ∧
    ∃ found kept,
      c.breakingChanges targets policy submitted { info with members := entries } retargeting =
        .ok found ∧
      c.breakingChanges targets (policy.excludeAll exclusions) submitted
        { info with members := entries } retargeting = .ok kept ∧
      ∀ d, d ∈ kept ↔ d ∈ found ∧ StillReaches targets (policy.excludeAll exclusions) d := by
  have within := policy.within_excludeAll exclusions
  have checked := checkTargets_eq_ok_iff.2 known
  refine ⟨⟨_, _, unsupportedMembers_value known, unsupportedMembers_value known, fun u => ?_⟩,
    _, _, breakingChanges_eq_ok_iff.2 ⟨checked, rfl⟩, breakingChanges_eq_ok_iff.2 ⟨checked, rfl⟩,
    fun d => ?_⟩
  · exact mem_reports_within within
  · rw [mem_ofList_hits tidy.members visited, mem_ofList_hits tidy.members visited]
    exact mem_hits_within within

def partlyBroken : Catalog :=
  (partlySupported.addBreaking (recordOf "7" "M:A.B" someTarget.version)).catalog

/-- Ignoring `app` and suppressing the change leaves member `B` as it was, for its other caller, and
hides member `C` and the change. -/
theorem findings_excludeAll_app :
    let exclusions := [Exclusion.assembly "app" [], .change "7"]
    sharedMember.Tidy ∧ (∀ t ∈ [someTarget, laterTarget], t ∈ partlyBroken.targets) ∧
    (∃ found kept,
      (partlyBroken.unsupportedMembers [someTarget, laterTarget] .empty sharedMember).value =
        .ok found ∧
      (partlyBroken.unsupportedMembers [someTarget, laterTarget]
        (Policy.empty.excludeAll exclusions) sharedMember).value = .ok kept ∧
      (∃ u ∈ found, u.member.id = "M:A.B" ∧ u ∈ kept) ∧
      ∃ u ∈ found, u.member.id = "M:A.C" ∧ u ∉ kept) ∧
    ∃ found kept,
      partlyBroken.breakingChanges [someTarget, laterTarget] .empty [] sharedMember false =
        .ok found ∧
      partlyBroken.breakingChanges [someTarget, laterTarget]
        (Policy.empty.excludeAll exclusions) [] sharedMember false = .ok kept ∧
      ∃ d ∈ found, d.change.id = "7" ∧ d ∉ kept := by
  intro exclusions
  have tidy : sharedMember.Tidy := DependencyInfo.tidy_empty.addCallers.addCallers.addCallers
  have known : ∀ t ∈ [someTarget, laterTarget], t ∈ partlyBroken.targets := by decide
  have extended (a : AssemblyInfo) (t : Target) : (Policy.empty.excludeAll exclusions).ignores a t =
      (Policy.empty.ignore "app" []).ignores a t := rfl
  obtain ⟨⟨found, kept, ok, okKept, members⟩, changes, keptChanges, okChanges, okKeptChanges,
    reached⟩ := findings_excludeAll partlyBroken [someTarget, laterTarget] .empty exclusions []
      sharedMember false sharedMember.members tidy (.refl _) known
  obtain rfl := Except.ok.inj ((unsupportedMembers_value known).symm.trans ok)
  refine ⟨tidy, known, ⟨_, kept, ok, okKept, ?_, ?_⟩, changes, keptChanges, okChanges,
    okKeptChanges, ?_⟩
  · obtain ⟨u, hu, hid, called⟩ : ∃ u ∈ partlyBroken.reports [someTarget, laterTarget] .empty
        sharedMember, u.member.id = "M:A.B" ∧ .unnamed ∈ u.callers := by decide +kernel
    have counts : (Policy.empty.excludeAll exclusions).ignores .unnamed someTarget = false := by
      rw [extended, ignores_app]
      decide
    have lacks : partlyBroken.introduced? "M:A.B" someTarget = none := by decide +kernel
    exact ⟨u, hu, hid, (members u).2 ⟨hu, someTarget, by simp, hid ▸ lacks,
      Policy.ignoresAll_eq_false_iff.2 (.inr ⟨_, called, counts⟩)⟩⟩
  · obtain ⟨u, hu, hid, called⟩ : ∃ u ∈ partlyBroken.reports [someTarget, laterTarget] .empty
        sharedMember, u.member.id = "M:A.C" ∧ u.callers = [appAssembly] := by decide +kernel
    refine ⟨u, hu, hid, fun hk => ?_⟩
    obtain ⟨-, t, -, -, shown⟩ := (members u).1 hk
    rw [called, Policy.ignoresAll_eq_false_iff] at shown
    obtain none | ⟨a, ha, counts⟩ := shown
    · simp at none
    · obtain rfl : a = appAssembly := by simpa using ha
      rw [extended, ignores_app] at counts
      exact absurd counts (by decide)
  · obtain ⟨d, hd, hid⟩ : ∃ d ∈ changes, d.change.id = "7" := by
      obtain ⟨-, rfl⟩ := breakingChanges_eq_ok_iff.1 okChanges
      decide +kernel
    refine ⟨d, hd, hid, fun hk => ?_⟩
    have shown := ((reached d).1 hk).2.1
    rw [hid] at shown
    exact absurd shown (by decide)

end Catalog

end FrameworkAudit
