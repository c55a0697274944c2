import FrameworkAudit.Audit
import FrameworkAudit.Proofs.Breaking.Order
import FrameworkAudit.Proofs.Dependency.Facts
import FrameworkAudit.Proofs.Dependency.Visit
import Mathlib.Data.List.Nodup

set_option autoImplicit false

namespace FrameworkAudit

open Sorted BreakingChange

namespace Catalog

variable (c : Catalog) (targets : List Target) (policy : Policy) (submitted : List String)
  (retargeting : Bool)

def hits (entries : List (MemberInfo × List AssemblyInfo)) : List BreakingDependency :=
  let names := submitted.map fun name => Text.fold (simpleName name)
  (entries.filter fun entry => !definedIn names entry.1).flatMap fun entry =>
    c.reached targets policy retargeting entry.1 entry.2

def Shows (d : BreakingDependency) : Prop :=
  definedIn (submitted.map fun name => Text.fold (simpleName name)) d.member = false ∧
    (!policy.suppresses d.change.id && (!d.change.quirked || retargeting)) = true ∧
    ∃ t ∈ targets, d.change.appliesTo t.version = true ∧ policy.ignores d.caller t = false

variable {c targets policy submitted retargeting}
variable {entries xs ys : List (MemberInfo × List AssemblyInfo)} {d e : BreakingDependency}

theorem mem_hits : d ∈ c.hits targets policy submitted retargeting entries ↔
    Calls entries d.member d.caller ∧ d.change ∈ c.changesFor d.member.id ∧
      Shows targets policy submitted retargeting d := by
  obtain ⟨change, member, caller⟩ := d
  simp only [hits, reached, List.mem_flatMap, List.mem_filter, List.mem_map, Bool.not_eq_true',
    BreakingDependency.mk.injEq, Calls, Shows]
  constructor
  · rintro ⟨⟨m, callers⟩, ⟨he, hn⟩, k, ⟨hk, hs⟩, t, ⟨ht, ha⟩, a, ⟨hc, hi⟩, rfl, rfl, rfl⟩
    exact ⟨⟨_, he, rfl, hc⟩, hk, hn, hs, t, ht, ha, hi⟩
  · rintro ⟨⟨⟨m, callers⟩, he, rfl, hc⟩, hk, hn, hs, t, ht, ha, hi⟩
    exact ⟨_, ⟨he, hn⟩, change, ⟨hk, hs⟩, t, ⟨ht, ha⟩, caller, ⟨hc, hi⟩, rfl, rfl, rfl⟩

theorem mem_hits_of_rearranged (h : Rearranged xs ys) :
    d ∈ c.hits targets policy submitted retargeting xs ↔
      d ∈ c.hits targets policy submitted retargeting ys := by
  rw [mem_hits, mem_hits, h.calls_iff]

theorem nodup_changesFor (id : DocId) : ((c.changesFor id).map BreakingChange.id).Nodup := by
  refine foldl_keeps (p := fun kept => (kept.map BreakingChange.id).Nodup) ?_ _ [] .nil
  intro kept change h
  split
  · exact h
  · rename_i hnew
    simp only [List.any_eq_true, beq_iff_eq, not_exists, not_and] at hnew
    rw [List.map_append, List.nodup_append]
    refine ⟨h, List.nodup_singleton _, fun a ha b hb => ?_⟩
    obtain ⟨k, hk, rfl⟩ := List.mem_map.1 ha
    obtain rfl := List.mem_singleton.1 hb
    exact hnew k hk

theorem eq_of_order_eq (h : StrictMap compare compare entries)
    (hd : d ∈ c.hits targets policy submitted retargeting entries)
    (he : e ∈ c.hits targets policy submitted retargeting entries)
    (heq : BreakingDependency.order d e = .eq) : d = e := by
  obtain ⟨hid, hm, hc⟩ := BreakingDependency.order_eq_eq_iff.1 heq
  rw [← MemberInfo.compare_eq_iff_same] at hm
  rw [← AssemblyInfo.compare_eq_iff_same] at hc
  obtain ⟨⟨entry, hentry, hdm, hdc⟩, hdk, -⟩ := mem_hits.1 hd
  obtain ⟨⟨other, hother, hem, hec⟩, hek, -⟩ := mem_hits.1 he
  obtain rfl : entry = other := eq_of_keys_eq h.keys hentry hother (by rw [hdm, hem, hm])
  have member : d.member = e.member := hdm.symm.trans hem
  have caller : d.caller = e.caller := eq_of_mem_of_eq (h.sets entry hentry) hdc hec hc
  have change : d.change = e.change :=
    List.inj_on_of_nodup_map (nodup_changesFor d.member.id) hdk (member ▸ hek) hid
  cases d
  cases e
  simp_all

/-- The findings, whatever the order of the entries, are the hits. -/
theorem mem_ofList_hits (h : StrictMap compare compare xs) (hr : Rearranged xs ys) :
    d ∈ ofList BreakingDependency.order (c.hits targets policy submitted retargeting ys) ↔
      d ∈ c.hits targets policy submitted retargeting xs := by
  rw [mem_hits_of_rearranged hr]
  constructor
  · exact mem_of_mem_ofList
  · intro hd
    obtain ⟨e, he, heq⟩ := exists_mem_ofList BreakingDependency.order hd
    have hd' := (mem_hits_of_rearranged hr).2 hd
    have he' := (mem_hits_of_rearranged hr).2 (mem_of_mem_ofList he)
    rwa [eq_of_order_eq h hd' he' heq]

theorem strict_ofList_hits (hr : Rearranged xs ys)
    (hids : ¬ Entangled
      ((c.hits targets policy submitted retargeting xs).map fun d => d.change.id)) :
    Strict BreakingDependency.order
      (ofList BreakingDependency.order (c.hits targets policy submitted retargeting ys)) := by
  refine strict_ofList_of_transOn (BreakingDependency.transOn_order_iff.2 fun he => hids ?_)
  refine (entangled_congr fun id => ?_).1 he
  simp only [List.mem_map, mem_hits_of_rearranged hr]

theorem breakingChanges_eq_ok_iff {info : DependencyInfo} {found : List BreakingDependency} :
    c.breakingChanges targets policy submitted info retargeting = .ok found ↔
      c.checkTargets targets = .ok () ∧
        ofList BreakingDependency.order
          (c.hits targets policy submitted retargeting info.members) = found := by
  cases h : c.checkTargets targets <;>
    simp [breakingChanges, h, hits, bind, Except.bind, pure, Except.pure]

/-- Breaking changes are ordered up to cycles of ids: the order is total, ties are findings of one
change, member and caller, and it is transitive exactly where no ids form a cycle. What an audit
finds is strictly sorted, without repetition and the same for every order of the dependencies
exactly if the ids that it finds form no cycle. -/
theorem breakingChanges_sorted_iff (c : Catalog) (targets : List Target) (policy : Policy)
    (submitted : List String) (info : DependencyInfo) (retargeting : Bool)
    (found : List BreakingDependency) (tidy : info.Tidy)
    (hfound : c.breakingChanges targets policy submitted info retargeting = .ok found) :
    (∀ a b, BreakingDependency.order a b = (BreakingDependency.order b a).swap) ∧
      (∀ a b, BreakingDependency.order a b = .eq ↔ a.change.id = b.change.id ∧
        a.member.same b.member = true ∧ a.caller.same b.caller = true) ∧
      (∀ ds, TransOn BreakingDependency.order ds ↔ ¬ Entangled (ds.map fun d => d.change.id)) ∧
      ((Strict BreakingDependency.order found ∧ found.Nodup ∧
        ∀ entries, Rearranged info.members entries →
          c.breakingChanges targets policy submitted { info with members := entries } retargeting =
            .ok found) ↔
        ¬ Entangled (found.map fun d => d.change.id)) := by
  refine ⟨fun _ _ => Std.OrientedCmp.eq_swap, fun _ _ => BreakingDependency.order_eq_eq_iff,
    fun _ => BreakingDependency.transOn_order_iff, ?_⟩
  obtain ⟨checked, rfl⟩ := breakingChanges_eq_ok_iff.1 hfound
  constructor
  · rintro ⟨strict, -, -⟩
    rw [← BreakingDependency.transOn_order_iff]
    exact transOn_of_strict strict
  · intro hids
    have ids : ¬ Entangled ((c.hits targets policy submitted retargeting info.members).map
        fun d => d.change.id) := by
      refine fun he => hids ((entangled_congr fun id => ?_).1 he)
      simp only [List.mem_map, mem_ofList_hits tidy.members (.refl _)]
    have strict := strict_ofList_hits (.refl info.members) ids
    refine ⟨strict, nodup_of_strict strict, fun entries hr => ?_⟩
    refine breakingChanges_eq_ok_iff.2 ⟨checked, eq_of_strict (strict_ofList_hits hr ids) strict ?_⟩
    intro d
    rw [mem_ofList_hits tidy.members hr, mem_ofList_hits tidy.members (.refl _)]

def someTarget : Target := ⟨"P", ⟨1, 0, 0, 0⟩⟩

def ofIds (ids : List String) : Catalog :=
  let change (id : String) : BreakingChange :=
    ⟨id, "", ["M:A.B"], someTarget.version, none, false, false, .standard, none⟩
  (ids.foldl (fun tables id => tables.addBreaking (change id))
    (CatalogTables.empty.addTarget someTarget)).catalog

def oneCall : DependencyInfo := DependencyInfo.empty.addCallers (.ofId "M:A.B" none) [.unnamed]

theorem breakingChanges_sorted_of_numbers : ∃ found,
    oneCall.Tidy ∧
    (ofIds ["30", "4", "12"]).breakingChanges [someTarget] .empty [] oneCall false = .ok found ∧
      found.map (fun d => d.change.id) = ["4", "12", "30"] ∧
      Strict BreakingDependency.order found ∧ found.Nodup ∧
        ∀ entries, Rearranged oneCall.members entries →
          (ofIds ["30", "4", "12"]).breakingChanges [someTarget] .empty []
            { oneCall with members := entries } false = .ok found := by
  have tidy : oneCall.Tidy := DependencyInfo.tidy_empty.addCallers
  refine ⟨_, tidy, rfl, by decide +kernel, ?_⟩
  have sorted := breakingChanges_sorted_iff (ofIds ["30", "4", "12"]) [someTarget] .empty []
    oneCall false _ tidy rfl
  exact sorted.2.2.2.2 (by decide +kernel)

/-- The ids form a cycle: 2 is before 10 as a number, 10 before 1x and 1x before 2 as text. -/
theorem breakingChanges_unsorted_of_cycle : ∃ found,
    (ofIds ["2", "10", "1x"]).breakingChanges [someTarget] .empty [] oneCall false = .ok found ∧
      found.map (fun d => d.change.id) = ["1x", "2", "10"] ∧
      ¬ TransOn BreakingDependency.order found ∧ ¬ Strict BreakingDependency.order found :=
  ⟨_, rfl, by decide +kernel, by decide +kernel, by decide +kernel⟩

end Catalog

end FrameworkAudit
