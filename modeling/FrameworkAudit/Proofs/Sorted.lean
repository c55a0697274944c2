import FrameworkAudit.Sorted
import Mathlib.Data.List.Forall2

/-!
Laws of sorted lists as sets and as maps to sets. A set is known by what it has up to equality, a
map by which of its keys is linked to what; two strict lists that agree on this agree place by
place.
-/

set_option autoImplicit false

namespace FrameworkAudit.Sorted

variable {α κ β σ ι : Type}

theorem foldl_gains {p : σ → Prop} {q : ι → Prop} {f : σ → ι → σ}
    (gain : ∀ s x, p (f s x) ↔ p s ∨ q x) (xs : List ι) (s : σ) :
    p (xs.foldl f s) ↔ p s ∨ ∃ x ∈ xs, q x := by
  induction xs generalizing s with
  | nil => simp
  | cons x xs ih => simp [ih, gain, or_assoc]

theorem foldl_keeps {p : σ → Prop} {f : σ → ι → σ}
    (keep : ∀ s x, p s → p (f s x)) (xs : List ι) (s : σ) (h : p s) : p (xs.foldl f s) := by
  induction xs generalizing s with
  | nil => exact h
  | cons x xs ih => exact ih _ (keep s x h)

theorem eq_of_keys_eq {cmp : κ → κ → Ordering} [Std.OrientedCmp cmp] {key : α → κ} {xs : List α}
    (h : xs.Pairwise fun a b => cmp (key a) (key b) = .lt) {a b : α} (ha : a ∈ xs) (hb : b ∈ xs)
    (he : cmp (key a) (key b) = .eq) : a = b := by
  induction xs with
  | nil => simp at ha
  | cons x xs ih =>
    obtain ⟨hx, hxs⟩ := List.pairwise_cons.1 h
    rcases List.mem_cons.1 ha with hax | ha <;> rcases List.mem_cons.1 hb with hbx | hb
    · rw [hax, hbx]
    · simp [hax, hx b hb] at he
    · simp [hbx, Std.OrientedCmp.gt_of_lt (hx a ha)] at he
    · exact ih hxs ha hb

theorem not_cycle {cmp : α → α → Ordering} [Std.TransCmp cmp] {a b c : α} (hab : cmp a b = .lt)
    (hbc : cmp b c = .lt) (hca : cmp c a = .lt) : False := by
  have hac := Std.TransCmp.lt_trans hab hbc
  simp [Std.OrientedCmp.gt_of_lt hca] at hac

section Sets

variable (cmp : α → α → Ordering)

def Has (x : α) (xs : List α) : Prop := ∃ y ∈ xs, cmp x y = .eq

def Strict (xs : List α) : Prop := xs.Pairwise fun a b => cmp a b = .lt

instance (xs : List α) : Decidable (Strict cmp xs) := inferInstanceAs (Decidable (xs.Pairwise _))

def first? (x : α) (xs : List α) : Option α := xs.find? fun y => cmp x y == .eq

variable {cmp} {x y z : α} {xs ys set : List α}

@[simp] theorem not_has_nil : ¬ Has cmp x [] := by simp [Has]

theorem mem_of_mem_insert (h : z ∈ insert cmp x xs) : z = x ∨ z ∈ xs := by
  induction xs with
  | nil => simpa [insert] using h
  | cons y ys ih =>
    simp only [insert] at h
    split at h <;> grind

theorem mem_insert_of_mem (h : z ∈ xs) : z ∈ insert cmp x xs := by
  induction xs with
  | nil => simp at h
  | cons y ys ih =>
    simp only [insert]
    split <;> grind

theorem mem_of_mem_insertAll (h : z ∈ insertAll cmp xs set) : z ∈ set ∨ z ∈ xs := by
  induction xs generalizing set with
  | nil => exact .inl h
  | cons x xs ih =>
    rcases ih h with hz | hz
    · rcases mem_of_mem_insert hz with rfl | hz
      · exact .inr List.mem_cons_self
      · exact .inl hz
    · exact .inr (List.mem_cons_of_mem x hz)

theorem mem_of_mem_ofList (h : z ∈ ofList cmp xs) : z ∈ xs :=
  (mem_of_mem_insertAll h).resolve_left (by simp)

theorem has_insert_self [Std.ReflCmp cmp] : Has cmp x (insert cmp x xs) := by
  induction xs with
  | nil => exact ⟨x, by simp [insert], Std.ReflCmp.compare_self⟩
  | cons y ys ih =>
    simp only [insert]
    split
    · exact ⟨x, by simp, Std.ReflCmp.compare_self⟩
    · exact ⟨y, by simp, by assumption⟩
    · obtain ⟨w, hw, he⟩ := ih
      exact ⟨w, by simp [hw], he⟩

theorem mem_insertAll_of_mem (h : z ∈ set) : z ∈ insertAll cmp xs set :=
  foldl_keeps (fun _ _ => mem_insert_of_mem) xs set h

variable (cmp) in
/-- A set has whatever it was made from, even if the comparison is no order. -/
theorem exists_mem_ofList [Std.ReflCmp cmp] (h : x ∈ xs) : ∃ y ∈ ofList cmp xs, cmp x y = .eq := by
  obtain ⟨before, after, rfl⟩ := List.append_of_mem h
  have added : Has cmp x (insert cmp x (insertAll cmp before [])) := has_insert_self
  obtain ⟨y, hy, he⟩ := added
  have kept : y ∈ insertAll cmp after (insert cmp x (insertAll cmp before [])) :=
    mem_insertAll_of_mem hy
  refine ⟨y, ?_, he⟩
  rwa [ofList, insertAll, List.foldl_append]

theorem has_head [Std.ReflCmp cmp] : Has cmp x (x :: xs) :=
  ⟨x, by simp, Std.ReflCmp.compare_self⟩

theorem has_cons : Has cmp z (y :: ys) ↔ cmp z y = .eq ∨ Has cmp z ys := by simp [Has]

theorem not_has_of_strict [Std.TransCmp cmp] (h : Strict cmp (y :: ys)) (he : cmp z y = .eq) :
    ¬ Has cmp z ys := by
  rintro ⟨w, hw, hz⟩
  have hlt := (List.pairwise_cons.1 h).1 w hw
  have : cmp z w = .lt := Std.TransCmp.lt_of_eq_of_lt he hlt
  simp [this] at hz

section Transitive

variable [Std.TransCmp cmp]

theorem Has.congr (h : cmp x y = .eq) : Has cmp x xs ↔ Has cmp y xs := by
  simp only [Has, Std.TransCmp.congr_left h]

theorem has_insert : Has cmp z (insert cmp x xs) ↔ cmp z x = .eq ∨ Has cmp z xs := by
  constructor
  · rintro ⟨w, hw, he⟩
    rcases mem_of_mem_insert hw with rfl | hw
    · exact .inl he
    · exact .inr ⟨w, hw, he⟩
  · rintro (h | ⟨w, hw, he⟩)
    · exact (Has.congr h).2 has_insert_self
    · exact ⟨w, mem_insert_of_mem hw, he⟩

theorem has_insertAll : Has cmp z (insertAll cmp xs set) ↔ Has cmp z set ∨ Has cmp z xs :=
  foldl_gains (fun _ x => has_insert (x := x).trans or_comm) xs set

theorem strict_insert (h : Strict cmp xs) : Strict cmp (insert cmp x xs) := by
  induction xs with
  | nil => simp [insert, Strict]
  | cons y ys ih =>
    obtain ⟨hy, hys⟩ := List.pairwise_cons.1 h
    simp only [insert]
    split
    · rename_i hxy
      refine List.pairwise_cons.2 ⟨fun z hz => ?_, h⟩
      rcases List.mem_cons.1 hz with rfl | hz
      · exact hxy
      · exact Std.TransCmp.lt_trans hxy (hy z hz)
    · exact h
    · rename_i hxy
      refine List.pairwise_cons.2 ⟨fun z hz => ?_, ih hys⟩
      rcases mem_of_mem_insert hz with rfl | hz
      · exact Std.OrientedCmp.lt_of_gt hxy
      · exact hy z hz

theorem strict_insertAll (h : Strict cmp set) : Strict cmp (insertAll cmp xs set) :=
  foldl_keeps (fun _ _ => strict_insert) xs set h

theorem strict_ofList : Strict cmp (ofList cmp xs) := strict_insertAll .nil

theorem not_gt_of_has (h : Strict cmp (x :: xs)) (hz : Has cmp z (x :: xs)) :
    cmp x z ≠ .gt := by
  obtain ⟨w, hw, he⟩ := hz
  have hwz := Std.OrientedCmp.eq_symm he
  rcases List.mem_cons.1 hw with rfl | hw
  · simp [hwz]
  · have hlt := (List.pairwise_cons.1 h).1 w hw
    simp [Std.TransCmp.lt_of_lt_of_eq hlt hwz]

theorem head_eq_of_has (hx : Strict cmp (x :: xs)) (hy : Strict cmp (y :: ys))
    (h : ∀ z, Has cmp z (x :: xs) ↔ Has cmp z (y :: ys)) : cmp x y = .eq := by
  have hxy := not_gt_of_has hx ((h y).2 has_head)
  have hyx := not_gt_of_has hy ((h x).1 has_head)
  rw [Ne, Std.OrientedCmp.gt_iff_lt] at hyx
  cases hc : cmp x y <;> simp_all

theorem strict_ext (hx : Strict cmp xs) (hy : Strict cmp ys)
    (h : ∀ z, Has cmp z xs ↔ Has cmp z ys) : List.Forall₂ (fun x y => cmp x y = .eq) xs ys := by
  induction xs generalizing ys with
  | nil =>
    cases ys with
    | nil => exact .nil
    | cons y ys => exact absurd ((h y).2 has_head) not_has_nil
  | cons x xs ih =>
    cases ys with
    | nil => exact absurd ((h x).1 has_head) not_has_nil
    | cons y ys =>
      have he := head_eq_of_has hx hy h
      refine .cons he (ih hx.tail hy.tail fun z => ?_)
      have hz := h z
      rw [has_cons, has_cons, ← Std.TransCmp.congr_right he] at hz
      by_cases hzx : cmp z x = .eq
      · have hzy : cmp z y = .eq := Std.TransCmp.eq_trans hzx he
        simp [not_has_of_strict hx hzx, not_has_of_strict hy hzy]
      · simpa [hzx] using hz

theorem mem_iff_first? (h : Strict cmp xs) : x ∈ xs ↔ first? cmp x xs = some x := by
  induction xs with
  | nil => simp [first?]
  | cons y ys ih =>
    have ih := ih h.tail
    simp only [first?] at ih ⊢
    by_cases hxy : cmp x y = .eq
    · have hmem : x ∉ ys := fun hx => not_has_of_strict h hxy ⟨x, hx, Std.ReflCmp.compare_self⟩
      simp [hxy, hmem, eq_comm]
    · have hne : x ≠ y := fun e => hxy (e ▸ Std.ReflCmp.compare_self)
      simp [hxy, hne, ih]

/-- A set keeps what it has, so a new element is the first of its kind only if none was there. -/
theorem first?_insert (h : Strict cmp set) :
    first? cmp z (insert cmp x set) = first? cmp z (set ++ [x]) := by
  induction set with
  | nil => rfl
  | cons y ys ih =>
    have ih := ih h.tail
    simp only [first?] at ih ⊢
    simp only [insert]
    split
    · rename_i hxy
      by_cases hzx : cmp z x = .eq
      · have hzy : ¬ cmp z y = .eq := by simp [Std.TransCmp.lt_of_eq_of_lt hzx hxy]
        have hys : ys.find? (fun w => cmp z w == .eq) = none := by
          refine List.find?_eq_none.2 fun w hw => ?_
          have hyw := (List.pairwise_cons.1 h).1 w hw
          simp [Std.TransCmp.lt_of_eq_of_lt hzx (Std.TransCmp.lt_trans hxy hyw)]
        simp [hzx, hzy, hys]
      · simp [List.find?_cons, hzx]
    · rename_i hxy
      by_cases hzy : cmp z y = .eq
      · simp [hzy]
      · have hzx : ¬ cmp z x = .eq := fun he => hzy (Std.TransCmp.eq_trans he hxy)
        simp [hzy, hzx]
    · by_cases hzy : cmp z y = .eq
      · simp [hzy]
      · simp [List.find?_cons, hzy, ih]

theorem first?_insertAll (h : Strict cmp set) :
    first? cmp z (insertAll cmp xs set) = first? cmp z (set ++ xs) := by
  induction xs generalizing set with
  | nil => simp [insertAll]
  | cons x xs ih =>
    have step := first?_insert (x := x) (z := z) h
    have rest := ih (strict_insert (x := x) h)
    simp only [insertAll, List.foldl_cons] at rest ⊢
    rw [rest]
    simp only [first?, List.find?_append] at step ⊢
    rw [step, Option.or_assoc, ← List.find?_append, List.singleton_append]

/-- The elements that a set keeps of a list are the first of each kind. -/
theorem mem_ofList_iff : x ∈ ofList cmp xs ↔ first? cmp x xs = some x := by
  rw [mem_iff_first? strict_ofList, ofList, first?_insertAll .nil, List.nil_append]

end Transitive

section Local

variable (cmp) in
def TransOn (xs : List α) : Prop :=
  ∀ a ∈ xs, ∀ b ∈ xs, ∀ c ∈ xs, (cmp a b).isLE → (cmp b c).isLE → (cmp a c).isLE

instance (xs : List α) : Decidable (TransOn cmp xs) :=
  inferInstanceAs (Decidable (∀ a ∈ xs, _))

theorem map_insert {f : β → α} {x : β} {xs : List β} :
    (insert (fun a b => cmp (f a) (f b)) x xs).map f = insert cmp (f x) (xs.map f) := by
  induction xs with
  | nil => rfl
  | cons y ys ih =>
    simp only [insert, List.map_cons]
    split <;> simp [ih]

theorem map_ofList {f : β → α} {xs : List β} :
    (ofList (fun a b => cmp (f a) (f b)) xs).map f = ofList cmp (xs.map f) := by
  have fold (set : List β) : (insertAll (fun a b => cmp (f a) (f b)) xs set).map f =
      insertAll cmp (xs.map f) (set.map f) := by
    induction xs generalizing set with
    | nil => rfl
    | cons x xs ih =>
      simp only [insertAll, List.map_cons, List.foldl_cons] at ih ⊢
      rw [ih, map_insert]
  exact fold []

variable [Std.OrientedCmp cmp]

theorem strict_ofList_of_transOn (h : TransOn cmp xs) : Strict cmp (ofList cmp xs) := by
  have : Std.TransCmp fun a b : {x // x ∈ xs} => cmp a.1 b.1 :=
    { eq_swap := Std.OrientedCmp.eq_swap
      isLE_trans := fun {a b c} => h a a.2 b b.2 c c.2 }
  have inner : Strict (fun a b => cmp a.1 b.1) (ofList (fun a b => cmp a.1 b.1) xs.attach) :=
    strict_ofList
  have outer : (ofList (fun a b => cmp a.1 b.1) xs.attach).map Subtype.val = ofList cmp xs := by
    rw [map_ofList, List.attach_map_subtype_val]
  rw [← outer]
  exact List.pairwise_map.2 inner

/-- Three elements of a strict list stand in some order, so they cannot form a cycle. -/
theorem lt_trans_of_strict (h : Strict cmp xs) {a b c : α} (ha : a ∈ xs) (hb : b ∈ xs)
    (hc : c ∈ xs) (hab : cmp a b = .lt) (hbc : cmp b c = .lt) : cmp a c = .lt := by
  induction xs with
  | nil => simp at ha
  | cons x xs ih =>
    obtain ⟨hx, hxs⟩ := List.pairwise_cons.1 h
    -- Nothing is below the head, so only the first of the three can be the head.
    have below {y : α} (hy : y ∈ x :: xs) : cmp y x ≠ .lt := by
      rcases List.mem_cons.1 hy with rfl | hy
      · simp [Std.ReflCmp.compare_self]
      · simp [Std.OrientedCmp.gt_of_lt (hx y hy)]
    have hb' : b ∈ xs := (List.mem_cons.1 hb).resolve_left fun e => below ha (e ▸ hab)
    have hc' : c ∈ xs := (List.mem_cons.1 hc).resolve_left fun e => below hb (e ▸ hbc)
    rcases List.mem_cons.1 ha with rfl | ha
    · exact hx c hc'
    · exact ih hxs ha hb' hc'

theorem eq_of_mem_of_eq (h : Strict cmp xs) (hx : x ∈ xs) (hy : y ∈ xs) (he : cmp x y = .eq) :
    x = y := by
  have keys : xs.Pairwise fun a b => cmp (id a) (id b) = .lt := h
  exact eq_of_keys_eq keys hx hy he

theorem transOn_of_strict (h : Strict cmp xs) : TransOn cmp xs := by
  intro a ha b hb c hc hab hbc
  cases eab : cmp a b with
  | gt => simp [eab] at hab
  | eq => rwa [eq_of_mem_of_eq h ha hb eab]
  | lt =>
    cases ebc : cmp b c with
    | gt => simp [ebc] at hbc
    | eq => rwa [← eq_of_mem_of_eq h hb hc ebc]
    | lt => simp [lt_trans_of_strict h ha hb hc eab ebc]

theorem nodup_of_strict (h : Strict cmp xs) : xs.Nodup :=
  h.imp fun {a b} hab he => by simp [he, Std.ReflCmp.compare_self] at hab

theorem eq_of_strict (hx : Strict cmp xs) (hy : Strict cmp ys) (h : ∀ z, z ∈ xs ↔ z ∈ ys) :
    xs = ys := by
  have hp := (List.perm_ext_iff_of_nodup (nodup_of_strict hx) (nodup_of_strict hy)).2 h
  refine hp.eq_of_pairwise (fun a b _ _ hab hba => ?_) hx hy
  simp [Std.OrientedCmp.gt_of_lt hab] at hba

end Local

theorem has_iff_mem [Std.LawfulEqCmp cmp] : Has cmp x xs ↔ x ∈ xs := by
  simp [Has, Std.LawfulEqCmp.compare_eq_iff_eq]

theorem mem_ofList [Std.LawfulEqCmp cmp] : x ∈ ofList cmp xs ↔ x ∈ xs := by
  refine ⟨mem_of_mem_ofList, fun h => ?_⟩
  obtain ⟨y, hy, he⟩ := exists_mem_ofList cmp h
  rwa [Std.LawfulEqCmp.compare_eq_iff_eq.1 he]

end Sets

section Sorting

variable {cmp : α → α → Ordering} {xs : List α}

theorem pairwise_sort [Std.TransCmp cmp] : (sort cmp xs).Pairwise fun a b => (cmp a b).isLE := by
  refine List.pairwise_mergeSort ?_ ?_ xs
  · intro a b c hab hbc
    exact Std.TransCmp.isLE_trans hab hbc
  · intro a b
    cases h : cmp a b with
    | lt => simp
    | eq => simp
    | gt => simp [Std.OrientedCmp.lt_of_gt h]

theorem perm_sort : (sort cmp xs).Perm xs := List.mergeSort_perm xs _

end Sorting

section Maps

variable (order : κ → κ → Ordering) (cmp : β → β → Ordering)

def HasKey (key : κ) (map : List (κ × β)) : Prop := ∃ entry ∈ map, order key entry.1 = .eq

/-- Whether a map to sets takes a key to a set that has `x`. -/
def Linked (key : κ) (x : β) (map : List (κ × List β)) : Prop :=
  ∃ entry ∈ map, order key entry.1 = .eq ∧ Has cmp x entry.2

structure StrictMap (map : List (κ × List β)) : Prop where
  keys : map.Pairwise fun a b => order a.1 b.1 = .lt
  sets : ∀ entry ∈ map, Strict cmp entry.2

variable {order cmp} {key other : κ} {x : β} {fresh : β} {change : β → β}

theorem hasKey_iff {map : List (κ × β)} :
    HasKey order key map ↔ Has order key (map.map Prod.fst) := by
  simp [HasKey, Has]

theorem map_fst_alter (map : List (κ × β)) :
    (alter order key fresh change map).map Prod.fst = insert order key (map.map Prod.fst) := by
  induction map with
  | nil => rfl
  | cons entry rest ih =>
    simp only [alter, insert, List.map_cons]
    split <;> simp [ih]

theorem forall_alter {p : β → Prop} (new : p (change fresh)) (old : ∀ b, p b → p (change b))
    {map : List (κ × β)} (h : ∀ entry ∈ map, p entry.2) :
    ∀ entry ∈ alter order key fresh change map, p entry.2 := by
  induction map with
  | nil => simpa [alter] using new
  | cons entry rest ih =>
    obtain ⟨he, hr⟩ := List.forall_mem_cons.1 h
    simp only [alter]
    split
    · exact List.forall_mem_cons.2 ⟨new, h⟩
    · exact List.forall_mem_cons.2 ⟨old _ he, hr⟩
    · exact List.forall_mem_cons.2 ⟨he, ih hr⟩

/-- If a change adds `gained` to what `p` says of values, it does so for the values of its key
alone. -/
theorem exists_alter [Std.TransCmp order] {p : β → Prop} {gained : Prop}
    (new : p (change fresh) ↔ gained) (old : ∀ b, p (change b) ↔ p b ∨ gained)
    (map : List (κ × β)) :
    (∃ entry ∈ alter order key fresh change map, order other entry.1 = .eq ∧ p entry.2) ↔
      (∃ entry ∈ map, order other entry.1 = .eq ∧ p entry.2) ∨
        (order other key = .eq ∧ gained) := by
  induction map with
  | nil => simp [alter, new]
  | cons entry rest ih =>
    simp only [alter]
    split
    · simp [new, or_comm]
    · rename_i he
      simp only [List.exists_mem_cons_iff, old, ← Std.TransCmp.congr_right he]
      grind
    · simp only [List.exists_mem_cons_iff, ih, or_assoc]

section Transitive

variable [Std.TransCmp order] [Std.TransCmp cmp] {map : List (κ × List β)} {added : List β}
  {xs ys : List (κ × List β)}

theorem linked_alter :
    Linked order cmp other x (alter order key [] (insertAll cmp added) map) ↔
      Linked order cmp other x map ∨ (order other key = .eq ∧ Has cmp x added) :=
  exists_alter (p := Has cmp x) (by simp [has_insertAll]) (fun _ => has_insertAll) map

theorem hasKey_alter {map : List (κ × β)} :
    HasKey order other (alter order key fresh change map) ↔
      HasKey order other map ∨ order other key = .eq := by
  rw [hasKey_iff, map_fst_alter, has_insert, ← hasKey_iff, or_comm]

omit [Std.TransCmp order] [Std.TransCmp cmp] in
theorem find?_eq_none_iff {map : List (κ × β)} :
    find? order key map = none ↔ ¬ HasKey order key map := by
  simp [find?, HasKey]

omit [Std.TransCmp order] [Std.TransCmp cmp] in
theorem mem_of_find?_eq_some [Std.LawfulEqCmp order] {map : List (κ × β)} {value : β}
    (h : find? order key map = some value) : (key, value) ∈ map := by
  obtain ⟨entry, hentry, rfl⟩ := Option.map_eq_some_iff.1 h
  have he : order key entry.1 = .eq := by simpa using List.find?_some hentry
  obtain rfl : key = entry.1 := Std.LawfulEqCmp.eq_of_compare he
  exact List.mem_of_find?_eq_some hentry

omit [Std.TransCmp cmp] in
/-- Where keys compare as equal only if they are, a change gives its key a new value and leaves the
other entries as they are. -/
theorem mem_alter [Std.LawfulEqCmp order] {map : List (κ × β)} {entry : κ × β}
    (h : map.Pairwise fun a b => order a.1 b.1 = .lt) :
    entry ∈ alter order key fresh change map ↔
      entry.1 ≠ key ∧ entry ∈ map ∨ entry = (key, change ((find? order key map).getD fresh)) := by
  induction map with
  | nil => simp [alter, find?]
  | cons head rest ih =>
    obtain ⟨hh, hr⟩ := List.pairwise_cons.1 h
    simp only [alter, find?, List.find?_cons] at ih ⊢
    cases hc : order key head.1 with
    | lt =>
      have above : ∀ e ∈ head :: rest, order key e.1 = .lt := by
        refine List.forall_mem_cons.2 ⟨hc, fun e he => Std.TransCmp.lt_trans hc (hh e he)⟩
      have others : entry ∈ head :: rest → entry.1 ≠ key := by
        rintro he rfl
        simpa [Std.ReflCmp.compare_self] using above entry he
      have none : rest.find? (fun e => order key e.1 == .eq) = none :=
        List.find?_eq_none.2 fun e he => by simp [above e (List.mem_cons_of_mem head he)]
      rw [List.mem_cons, and_iff_right_of_imp others, or_comm, none]
      rfl
    | eq =>
      obtain rfl : key = head.1 := Std.LawfulEqCmp.eq_of_compare hc
      have others : entry ∈ rest → entry.1 ≠ head.1 := by
        intro he e
        simpa [e, Std.ReflCmp.compare_self] using hh entry he
      have here : entry.1 ≠ head.1 ∧ entry ∈ head :: rest ↔ entry ∈ rest := by
        refine ⟨fun ⟨hne, he⟩ => ?_, fun he => ⟨others he, List.mem_cons_of_mem head he⟩⟩
        exact (List.mem_cons.1 he).resolve_left fun e => hne (e ▸ rfl)
      rw [List.mem_cons, here, or_comm]
      rfl
    | gt =>
      have apart : entry = head → entry.1 ≠ key := by
        rintro rfl rfl
        simp [Std.ReflCmp.compare_self] at hc
      rw [List.mem_cons, List.mem_cons, ih hr, and_or_left, and_iff_right_of_imp apart, or_assoc]
      rfl

theorem strictMap_alter (h : StrictMap order cmp map) :
    StrictMap order cmp (alter order key [] (insertAll cmp added) map) where
  keys := by
    have hk : Strict order (map.map Prod.fst) := List.pairwise_map.2 h.keys
    have hs : Strict order ((alter order key [] (insertAll cmp added) map).map Prod.fst) := by
      rw [map_fst_alter]
      exact strict_insert hk
    exact List.pairwise_map.1 hs
  sets := forall_alter (p := Strict cmp) (strict_insertAll .nil)
    (fun _ => strict_insertAll) h.sets

omit [Std.TransCmp cmp] in
theorem linked_iff_of_mem (h : StrictMap order cmp map) {entry : κ × List β} (hm : entry ∈ map)
    (he : order key entry.1 = .eq) : Linked order cmp key x map ↔ Has cmp x entry.2 := by
  constructor
  · rintro ⟨e, hem, hek, hx⟩
    have hkeys : order entry.1 e.1 = .eq :=
      Std.TransCmp.eq_trans (Std.OrientedCmp.eq_symm he) hek
    obtain rfl := eq_of_keys_eq h.keys hm hem hkeys
    exact hx
  · exact fun hx => ⟨entry, hm, he, hx⟩

theorem strictMap_ext (hx : StrictMap order cmp xs) (hy : StrictMap order cmp ys)
    (keys : ∀ key, HasKey order key xs ↔ HasKey order key ys)
    (links : ∀ key x, Linked order cmp key x xs ↔ Linked order cmp key x ys) :
    List.Forall₂ (fun a b => order a.1 b.1 = .eq ∧ List.Forall₂ (fun x y => cmp x y = .eq) a.2 b.2)
      xs ys := by
  have hk : List.Forall₂ (fun a b : κ × List β => order a.1 b.1 = .eq) xs ys := by
    have := strict_ext (List.pairwise_map.2 hx.keys) (List.pairwise_map.2 hy.keys)
      (fun key => by simpa only [hasKey_iff] using keys key)
    simpa only [List.forall₂_map_left_iff, List.forall₂_map_right_iff] using this
  have sets (a b : κ × List β) (ha : a ∈ xs) (hb : b ∈ ys) (he : order a.1 b.1 = .eq) :
      List.Forall₂ (fun x y => cmp x y = .eq) a.2 b.2 := by
    refine strict_ext (hx.sets a ha) (hy.sets b hb) fun x => ?_
    rw [← linked_iff_of_mem hx ha Std.ReflCmp.compare_self, links, linked_iff_of_mem hy hb he]
  rw [List.forall₂_iff_zip] at hk ⊢
  refine ⟨hk.1, fun hm => ?_⟩
  obtain ⟨ha, hb⟩ := List.of_mem_zip hm
  exact ⟨hk.2 hm, sets _ _ ha hb (hk.2 hm)⟩

end Transitive

end Maps

end FrameworkAudit.Sorted
