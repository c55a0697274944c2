import FrameworkAudit.Dependency.Info
import Mathlib.Data.List.Forall2

set_option autoImplicit false

namespace FrameworkAudit

/-- The entries in another order, and the callers of each in another order. -/
def Rearranged (xs ys : List (MemberInfo × List AssemblyInfo)) : Prop :=
  ∃ moved, moved.Perm xs ∧ List.Forall₂ (fun a b => a.1 = b.1 ∧ a.2.Perm b.2) moved ys

def Calls (entries : List (MemberInfo × List AssemblyInfo)) (member : MemberInfo)
    (caller : AssemblyInfo) : Prop :=
  ∃ entry ∈ entries, entry.1 = member ∧ caller ∈ entry.2

instance (entries : List (MemberInfo × List AssemblyInfo)) (member : MemberInfo)
    (caller : AssemblyInfo) : Decidable (Calls entries member caller) :=
  inferInstanceAs (Decidable (∃ entry ∈ entries, _))

def Tracks (entries : List (MemberInfo × List AssemblyInfo)) (member : MemberInfo) : Prop :=
  ∃ entry ∈ entries, entry.1 = member

instance (entries : List (MemberInfo × List AssemblyInfo)) (member : MemberInfo) :
    Decidable (Tracks entries member) :=
  inferInstanceAs (Decidable (∃ entry ∈ entries, _))

def CallsId (entries : List (MemberInfo × List AssemblyInfo)) (id : DocId)
    (caller : AssemblyInfo) : Prop :=
  ∃ entry ∈ entries, entry.1.id = id ∧ caller ∈ entry.2

instance (entries : List (MemberInfo × List AssemblyInfo)) (id : DocId) (caller : AssemblyInfo) :
    Decidable (CallsId entries id caller) :=
  inferInstanceAs (Decidable (∃ entry ∈ entries, _))

theorem callsId_iff_exists {entries : List (MemberInfo × List AssemblyInfo)} {id : DocId}
    {caller : AssemblyInfo} :
    CallsId entries id caller ↔ ∃ member, member.id = id ∧ Calls entries member caller := by
  constructor
  · rintro ⟨entry, he, hid, hc⟩
    exact ⟨entry.1, hid, entry, he, rfl, hc⟩
  · rintro ⟨member, hid, entry, he, rfl, hc⟩
    exact ⟨entry, he, hid, hc⟩

theorem Rearranged.refl (xs : List (MemberInfo × List AssemblyInfo)) : Rearranged xs xs :=
  ⟨xs, .refl xs, List.forall₂_same.2 fun _ _ => ⟨rfl, .refl _⟩⟩

theorem Rearranged.calls_iff {xs ys : List (MemberInfo × List AssemblyInfo)} (h : Rearranged xs ys)
    {member : MemberInfo} {caller : AssemblyInfo} :
    Calls xs member caller ↔ Calls ys member caller := by
  obtain ⟨moved, hp, hf⟩ := h
  have left : Calls xs member caller ↔ Calls moved member caller := by
    simp only [Calls, hp.mem_iff]
  rw [left]
  clear left hp
  induction hf with
  | nil => rfl
  | cons hab _ ih =>
    simp only [Calls, List.exists_mem_cons_iff] at ih ⊢
    exact or_congr (by rw [hab.1, hab.2.mem_iff]) ih

theorem Rearranged.tracks_iff {xs ys : List (MemberInfo × List AssemblyInfo)} (h : Rearranged xs ys)
    {member : MemberInfo} : Tracks xs member ↔ Tracks ys member := by
  obtain ⟨moved, hp, hf⟩ := h
  have left : Tracks xs member ↔ Tracks moved member := by
    simp only [Tracks, hp.mem_iff]
  rw [left]
  clear left hp
  induction hf with
  | nil => rfl
  | cons hab _ ih =>
    simp only [Tracks, List.exists_mem_cons_iff] at ih ⊢
    exact or_congr (by rw [hab.1]) ih

theorem Rearranged.callsId_iff {xs ys : List (MemberInfo × List AssemblyInfo)}
    (h : Rearranged xs ys) {id : DocId} {caller : AssemblyInfo} :
    CallsId xs id caller ↔ CallsId ys id caller := by
  simp only [callsId_iff_exists, h.calls_iff]

end FrameworkAudit
