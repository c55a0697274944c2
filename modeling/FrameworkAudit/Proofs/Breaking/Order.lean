import FrameworkAudit.BreakingChange
import FrameworkAudit.Proofs.Sorted

/-!
The order of breaking changes. Numbers compare by value and everything else as text, so two numbers
and a text that stands the wrong way between them form a cycle. There are no other cycles.
-/

set_option autoImplicit false

namespace FrameworkAudit

namespace BreakingChange

def number? (id : String) : Option Nat := Text.numeral? UInt64.size id

def compareNames : String → String → Ordering := compareLex compareIds compare

/-- Of two numbers the first is smaller, but a third id, which is no number, stands as text after
the second and before the first. -/
def straddles (m n x : String) : Bool :=
  ((number? m).any fun p => (number? n).any fun q => p < q) && (number? x).isNone &&
    compare n x == .lt && compare x m == .lt

variable {a b c m n x : String} {p q : Nat}

theorem compareIds_of_numbers (ha : number? a = some p) (hb : number? b = some q) :
    compareIds a b = compare p q := by
  simp only [number?] at ha hb
  simp only [compareIds, ha, hb]

theorem compareIds_of_text (h : number? a = none ∨ number? b = none) :
    compareIds a b = compare a b := by
  simp only [number?] at h
  rcases h with h | h
  · simp only [compareIds, h]
  · cases ha : Text.numeral? UInt64.size a <;> simp only [compareIds, ha, h]

theorem compareNames_of_text (h : number? a = none ∨ number? b = none) :
    compareNames a b = compare a b := by
  rw [compareNames, compareLex, compareIds_of_text h]
  cases compare a b <;> rfl

instance : Std.OrientedCmp compareIds where
  eq_swap {a b} := by
    cases ha : number? a with
    | none =>
      rw [compareIds_of_text (.inl ha), compareIds_of_text (.inr ha)]
      exact Std.OrientedCmp.eq_swap
    | some p =>
      cases hb : number? b with
      | none =>
        rw [compareIds_of_text (.inr hb), compareIds_of_text (.inl hb)]
        exact Std.OrientedCmp.eq_swap
      | some q =>
        rw [compareIds_of_numbers ha hb, compareIds_of_numbers hb ha]
        exact Std.OrientedCmp.eq_swap

instance : Std.OrientedCmp compareNames :=
  inferInstanceAs (Std.OrientedCmp (compareLex compareIds compare))

instance : Std.LawfulEqCmp compareNames where
  eq_of_compare h := Std.LawfulEqCmp.eq_of_compare (compareLex_eq_eq.1 h).2

theorem compareNames_of_numbers (ha : number? a = some p) (hb : number? b = some q) :
    compareNames a b = compareLex (compareOn Prod.fst) (compareOn Prod.snd) (p, a) (q, b) := by
  rw [compareNames, compareLex, compareIds_of_numbers ha hb]
  rfl

theorem straddles_iff : straddles m n x = true ↔
    (∃ p q, number? m = some p ∧ number? n = some q ∧ p < q) ∧ number? x = none ∧
      compare n x = .lt ∧ compare x m = .lt := by
  simp only [straddles, Bool.and_eq_true, Option.any_eq_true, decide_eq_true_eq,
    Option.isNone_iff_eq_none, beq_iff_eq, and_assoc]
  grind

theorem straddles_of_cycle (ha : number? a = some p) (hb : number? b = some q)
    (hc : number? c = none) (hab : compareNames a b = .lt) (hbc : compareNames b c = .lt)
    (hca : compareNames c a = .lt) : straddles a b c = true := by
  rw [compareNames_of_text (.inr hc)] at hbc
  rw [compareNames_of_text (.inl hc)] at hca
  have hba : compare b a = .lt := Std.TransCmp.lt_trans hbc hca
  rw [compareNames_of_numbers ha hb] at hab
  simp only [compareLex, compareOn, Std.OrientedCmp.gt_of_lt hba] at hab
  have hpq : p < q := by
    cases h : compare p q <;> simp [h] at hab
    exact Nat.compare_eq_lt.1 h
  exact straddles_iff.2 ⟨⟨p, q, ha, hb, hpq⟩, hc, hbc, hca⟩

theorem cycle_of_straddles (h : straddles a b c = true) :
    compareNames a b = .lt ∧ compareNames b c = .lt ∧ compareNames c a = .lt := by
  obtain ⟨⟨p, q, ha, hb, hpq⟩, hc, hbc, hca⟩ := straddles_iff.1 h
  refine ⟨?_, ?_, ?_⟩
  · simp [compareNames_of_numbers ha hb, compareLex, compareOn, Nat.compare_eq_lt.2 hpq]
  · rwa [compareNames_of_text (.inr hc)]
  · rwa [compareNames_of_text (.inl hc)]

theorem not_cycle_of_texts (hab : compareNames a b = .lt) (hbc : compareNames b c = .lt)
    (hca : compareNames c a = .lt) (ab : number? a = none ∨ number? b = none)
    (bc : number? b = none ∨ number? c = none) (ca : number? c = none ∨ number? a = none) :
    False := by
  rw [compareNames_of_text ab] at hab
  rw [compareNames_of_text bc] at hbc
  rw [compareNames_of_text ca] at hca
  exact Sorted.not_cycle hab hbc hca

/-- There are cycles, but only those of two numbers and a text that straddles them. -/
theorem cycle_iff_straddles :
    (compareNames a b = .lt ∧ compareNames b c = .lt ∧ compareNames c a = .lt) ↔
      straddles a b c = true ∨ straddles b c a = true ∨ straddles c a b = true := by
  constructor
  · rintro ⟨hab, hbc, hca⟩
    -- A cycle has two numbers: three are in order, and fewer leave only texts to compare.
    cases ha : number? a <;> cases hb : number? b <;> cases hc : number? c
    case none.some.some => exact .inr (.inl (straddles_of_cycle hb hc ha hbc hca hab))
    case some.none.some => exact .inr (.inr (straddles_of_cycle hc ha hb hca hab hbc))
    case some.some.none => exact .inl (straddles_of_cycle ha hb hc hab hbc hca)
    case some.some.some =>
      rw [compareNames_of_numbers ha hb] at hab
      rw [compareNames_of_numbers hb hc] at hbc
      rw [compareNames_of_numbers hc ha] at hca
      exact (Sorted.not_cycle hab hbc hca).elim
    all_goals
      exact (not_cycle_of_texts hab hbc hca (by simp [*]) (by simp [*]) (by simp [*])).elim
  · rintro (h | h | h)
    · exact cycle_of_straddles h
    · obtain ⟨hbc, hca, hab⟩ := cycle_of_straddles h
      exact ⟨hab, hbc, hca⟩
    · obtain ⟨hca, hab, hbc⟩ := cycle_of_straddles h
      exact ⟨hab, hbc, hca⟩

theorem compareNames_trans (h : ¬ (straddles a b c || straddles b c a || straddles c a b) = true)
    (hab : compareNames a b = .lt) (hbc : compareNames b c = .lt) : compareNames a c = .lt := by
  rw [Bool.or_eq_true, Bool.or_eq_true, or_assoc, ← cycle_iff_straddles] at h
  cases hac : compareNames a c with
  | lt => rfl
  | eq =>
    obtain rfl := Std.LawfulEqCmp.eq_of_compare hac
    simp [Std.OrientedCmp.gt_of_lt hbc] at hab
  | gt => exact absurd ⟨hab, hbc, Std.OrientedCmp.lt_of_gt hac⟩ h

def Entangled (ids : List String) : Prop :=
  ∃ m ∈ ids, ∃ n ∈ ids, ∃ x ∈ ids, straddles m n x = true

instance (ids : List String) : Decidable (Entangled ids) :=
  inferInstanceAs (Decidable (∃ m ∈ ids, _))

theorem entangled_congr {xs ys : List String} (h : ∀ id, id ∈ xs ↔ id ∈ ys) :
    Entangled xs ↔ Entangled ys := by
  simp only [Entangled, h]

theorem compareNames_trans_of_not_entangled {ids : List String} (h : ¬ Entangled ids)
    (ha : a ∈ ids) (hb : b ∈ ids) (hc : c ∈ ids) (hab : compareNames a b = .lt)
    (hbc : compareNames b c = .lt) : compareNames a c = .lt := by
  refine compareNames_trans (fun hs => h ?_) hab hbc
  rw [Bool.or_eq_true, Bool.or_eq_true, or_assoc] at hs
  rcases hs with hs | hs | hs
  · exact ⟨a, ha, b, hb, c, hc, hs⟩
  · exact ⟨b, hb, c, hc, a, ha, hs⟩
  · exact ⟨c, hc, a, ha, b, hb, hs⟩

end BreakingChange

namespace BreakingDependency

open BreakingChange

def orderShown : BreakingDependency → BreakingDependency → Ordering :=
  compareLex (compareOn fun d => d.member.id) <|
    compareLex (compareOn fun d => d.caller.identity) <|
      compareLex (compareOn member) (compareOn caller)

instance : Std.TransCmp orderShown :=
  inferInstanceAs (Std.TransCmp (compareLex (compareOn fun d : BreakingDependency => d.member.id) <|
    compareLex (compareOn fun d => d.caller.identity) <|
      compareLex (compareOn member) (compareOn caller)))

variable {a b c : BreakingDependency}

theorem order_eq : order a b = (compareNames a.change.id b.change.id).then (orderShown a b) := by
  simp [order, orderShown, compareNames, compareLex, compareOn, Ordering.then_assoc]

instance : Std.OrientedCmp order where
  eq_swap {a b} := by
    rw [order_eq, order_eq, Ordering.swap_then, ← Std.OrientedCmp.eq_swap,
      ← Std.OrientedCmp.eq_swap]

/-- Only what shows the same change, member and caller is equal. -/
theorem order_eq_eq_iff : order a b = .eq ↔
    a.change.id = b.change.id ∧ a.member.same b.member = true ∧ a.caller.same b.caller = true := by
  simp only [order_eq, Ordering.then_eq_eq, Std.LawfulEqCmp.compare_eq_iff_eq, orderShown,
    compareLex_eq_eq, compareOn, MemberInfo.compare_eq_iff_same, AssemblyInfo.compare_eq_iff_same]
  constructor
  · rintro ⟨hi, -, -, hm, hc⟩
    exact ⟨hi, hm, hc⟩
  · rintro ⟨hi, hm, hc⟩
    simp only [MemberInfo.same, AssemblyInfo.same, Bool.and_eq_true, beq_iff_eq] at hm hc ⊢
    exact ⟨hi, hm.1, hc.1, hm, hc⟩

theorem order_lt_of_names (h : compareNames a.change.id b.change.id = .lt) : order a b = .lt := by
  rw [order_eq, h]
  rfl

theorem isLE_order_iff : (order a b).isLE = true ↔
    compareNames a.change.id b.change.id = .lt ∨
      a.change.id = b.change.id ∧ (orderShown a b).isLE = true := by
  have names : compareNames a.change.id b.change.id = .eq ↔ a.change.id = b.change.id :=
    Std.LawfulEqCmp.compare_eq_iff_eq
  rw [order_eq, ← names]
  cases compareNames a.change.id b.change.id <;> simp

theorem transOn_order_iff {ds : List BreakingDependency} :
    Sorted.TransOn order ds ↔ ¬ Entangled (ds.map fun d => d.change.id) := by
  have mem {d : BreakingDependency} (h : d ∈ ds) : d.change.id ∈ ds.map fun d => d.change.id :=
    List.mem_map_of_mem h
  constructor
  · rintro h ⟨m, hm, n, hn, x, hx, hs⟩
    obtain ⟨a, ha, rfl⟩ := List.mem_map.1 hm
    obtain ⟨b, hb, rfl⟩ := List.mem_map.1 hn
    obtain ⟨c, hc, rfl⟩ := List.mem_map.1 hx
    obtain ⟨hab, hbc, hca⟩ := cycle_of_straddles hs
    have hle := h a ha b hb c hc (by simp [order_lt_of_names hab]) (by simp [order_lt_of_names hbc])
    simp [Std.OrientedCmp.gt_of_lt (order_lt_of_names hca)] at hle
  · intro h a ha b hb c hc hab hbc
    rw [isLE_order_iff] at hab hbc ⊢
    rcases hab with hab | ⟨hab, sab⟩ <;> rcases hbc with hbc | ⟨hbc, sbc⟩
    · exact .inl (compareNames_trans_of_not_entangled h (mem ha) (mem hb) (mem hc) hab hbc)
    · exact .inl (hbc ▸ hab)
    · exact .inl (hab ▸ hbc)
    · exact .inr ⟨hab.trans hbc, Std.TransCmp.isLE_trans sab sbc⟩

end BreakingDependency

end FrameworkAudit
