import Mathlib.Data.List.Forall2

set_option autoImplicit false

namespace FrameworkAudit

variable {ε α β : Type}

theorem bind_eq_ok_iff {x : Except ε α} {f : α → Except ε β} {b : β} :
    x >>= f = .ok b ↔ ∃ a, x = .ok a ∧ f a = .ok b := by
  cases x <;> simp [bind, Except.bind]

theorem pure_eq_ok_iff {a b : α} : (pure a : Except ε α) = .ok b ↔ a = b := by
  simp [pure, Except.pure]

theorem toOption_eq_some_iff {x : Except ε α} {a : α} : x.toOption = some a ↔ x = .ok a := by
  cases x <;> simp [Except.toOption]

theorem check_eq_ok_iff {p : Prop} [Decidable p] {e : ε} {f : α → Except ε β} {x : Except ε β}
    {b : β} : (if p then throw e >>= f else x) = .ok b ↔ ¬ p ∧ x = .ok b := by
  split <;> simp_all [bind, Except.bind, throw, throwThe, MonadExceptOf.throw]

theorem bind_eq_error_iff {x : Except ε α} {f : α → Except ε β} {e : ε} :
    x >>= f = .error e ↔ x = .error e ∨ ∃ a, x = .ok a ∧ f a = .error e := by
  cases x <;> simp [bind, Except.bind]

theorem bind_congr_of_ok {x : Except ε α} {f g : α → Except ε β} (h : ∀ a, x = .ok a → f a = g a) :
    x >>= f = x >>= g := by
  cases x with
  | error e => rfl
  | ok a => exact h a rfl

theorem mapM_eq_ok_iff {f : α → Except ε β} {xs : List α} {ys : List β} :
    xs.mapM f = .ok ys ↔ List.Forall₂ (fun x y => f x = .ok y) xs ys := by
  induction xs generalizing ys with
  | nil => cases ys <;> simp [pure, Except.pure]
  | cons x xs ih =>
    simp only [List.mapM_cons, bind_eq_ok_iff, pure_eq_ok_iff, List.forall₂_cons_left_iff, ih]
    constructor
    · rintro ⟨b, hb, bs, hbs, rfl⟩
      exact ⟨b, bs, hb, hbs, rfl⟩
    · rintro ⟨b, bs, hb, hbs, rfl⟩
      exact ⟨b, hb, bs, hbs, rfl⟩

theorem exists_of_mem_of_mapM {f : α → Except ε β} {xs : List α} {ys : List β} {x : α}
    (h : xs.mapM f = .ok ys) (hx : x ∈ xs) : ∃ y, f x = .ok y := by
  have places := mapM_eq_ok_iff.1 h
  clear h
  induction places with
  | nil => cases hx
  | cons here _ ih =>
    rcases List.mem_cons.1 hx with rfl | hx
    · exact ⟨_, here⟩
    · exact ih hx

theorem mem_of_mapM_eq_ok {f : α → Except ε β} {xs : List α} {ys : List β} {y : β}
    (h : xs.mapM f = .ok ys) : y ∈ ys ↔ ∃ x ∈ xs, f x = .ok y := by
  have places := mapM_eq_ok_iff.1 h
  clear h
  induction places with
  | nil => simp
  | cons here _ ih => simp [here, ih, eq_comm]

theorem toOption_ok {a : α} : (.ok a : Except ε α).toOption = some a := rfl

theorem toOption_error {e : ε} : (.error e : Except ε α).toOption = none := rfl

/-- Mapping fails exactly if some element does, and with the error of the first one. -/
theorem mapM_eq_error_iff {f : α → Except ε β} {xs : List α} {e : ε} :
    xs.mapM f = .error e ↔
      ∃ x, xs.find? (fun x => (f x).toOption.isNone) = some x ∧ f x = .error e := by
  induction xs with
  | nil => simp [pure, Except.pure]
  | cons x xs ih =>
    rw [List.mapM_cons, List.find?_cons]
    cases here : f x with
    | error d => simp [toOption_error, bind, Except.bind, here]
    | ok b => simp [toOption_ok, bind_eq_error_iff, pure, Except.pure, ih]

theorem exists_of_mapM_eq_error {f : α → Except ε β} {xs : List α} {e : ε}
    (h : xs.mapM f = .error e) : ∃ x ∈ xs, f x = .error e := by
  obtain ⟨x, first, failed⟩ := mapM_eq_error_iff.1 h
  exact ⟨x, List.mem_of_find?_eq_some first, failed⟩

theorem foldlM_keeps {p : α → Prop} {f : α → β → Except ε α} {xs : List β} {a b : α}
    (keep : ∀ x ∈ xs, ∀ a b, p a → f a x = .ok b → p b) (start : p a) (h : xs.foldlM f a = .ok b) :
    p b := by
  induction xs generalizing a with
  | nil =>
    rw [List.foldlM_nil, pure_eq_ok_iff] at h
    exact h ▸ start
  | cons x xs ih =>
    rw [List.foldlM_cons] at h
    obtain ⟨c, first, rest⟩ := bind_eq_ok_iff.1 h
    rw [List.forall_mem_cons] at keep
    exact ih keep.2 (keep.1 a c start first) rest

end FrameworkAudit
