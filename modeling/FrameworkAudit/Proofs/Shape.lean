import FrameworkAudit.Proofs.Result
import FrameworkAudit.Shape.Resolve

set_option autoImplicit false

namespace FrameworkAudit.Assembly

variable {a : Assembly} {row : Nat}

theorem isPrimitive_typeRefChain {room : Nat} {t : NamedType}
    (h : a.typeRefChain room row = .ok t) : t.isPrimitive = false := by
  induction room generalizing row t with
  | zero => cases h
  | succ room ih =>
    simp only [typeRefChain] at h
    split at h
    · cases h
    · split at h
      · split at h
        · cases h
          rfl
        · obtain ⟨outer, houter, h⟩ := bind_eq_ok_iff.1 h
          rw [← pure_eq_ok_iff.1 h]
          change outer.isPrimitive = false
          exact ih houter
      · split at h
        · cases h
          rfl
        · cases h
      · cases h
        rfl

theorem isPrimitive_typeDefChain {room : Nat} {t : NamedType}
    (h : a.typeDefChain room row = .ok t) : t.isPrimitive = false := by
  induction room generalizing row t with
  | zero => cases h
  | succ room ih =>
    simp only [typeDefChain] at h
    split at h
    · cases h
    · split at h
      · obtain ⟨outer, houter, h⟩ := bind_eq_ok_iff.1 h
        rw [← pure_eq_ok_iff.1 h]
        change outer.isPrimitive = false
        exact ih houter
      · cases h
        rfl

theorem table?_of_isPrimitive {hops : Nat} {token : Token} {shape : TypeShape}
    (h : a.tokenWithin hops token = .ok shape) (hp : shape.isPrimitive = true) :
    token.table? = some .typeSpec := by
  cases hops with
  | zero => cases h
  | succ hops =>
    simp only [tokenWithin] at h
    split at h
    · obtain ⟨t, ht, h⟩ := bind_eq_ok_iff.1 h
      obtain rfl := pure_eq_ok_iff.1 h
      simp [TypeShape.isPrimitive, TypeShape.core?, isPrimitive_typeRefChain ht] at hp
    · obtain ⟨t, ht, h⟩ := bind_eq_ok_iff.1 h
      obtain rfl := pure_eq_ok_iff.1 h
      simp [TypeShape.isPrimitive, TypeShape.core?, isPrimitive_typeDefChain ht] at hp
    · assumption
    · cases h

/-- A member of a primitive type has a type specification as its parent. -/
theorem parent_of_isPrimitive {m : MemberShape} (h : a.memberShape row = .ok (some m))
    (hp : m.parent.isPrimitive = true) :
    ∃ entry, a.memberRef? row = some entry ∧ entry.parent.table = .typeSpec := by
  simp only [memberShape] at h
  split at h
  · cases h
  · rename_i entry hentry
    split at h
    · obtain ⟨parent, hparent, h⟩ := bind_eq_ok_iff.1 h
      obtain ⟨sig, -, h⟩ := bind_eq_ok_iff.1 h
      obtain ⟨kind, -, h⟩ := bind_eq_ok_iff.1 h
      cases pure_eq_ok_iff.1 h
      have table := table?_of_isPrimitive hparent hp
      exact ⟨entry, hentry, by simpa [CodedIndex.token] using table⟩
    · cases h

end FrameworkAudit.Assembly
