import FrameworkAudit.Proofs.Text
import FrameworkAudit.Text.Ascii
import Mathlib

set_option autoImplicit false

namespace FrameworkAudit.Text

variable {c d : Char} {s t : String}

theorem fold_fold (s : String) : fold (fold s) = fold s := by
  rw [← String.toList_inj]
  simp [Function.comp_def]

theorem fold_append (s t : String) : fold (s ++ t) = fold s ++ fold t := by
  simp [← String.toList_inj]

theorem fold_of_small (h : ∀ c ∈ s.toList, c.toLower = c) : fold s = s := by
  rw [← String.toList_inj, toList_fold]
  exact (List.map_congr_left h).trans (List.map_id' _)

theorem toLower_of_not_isAlpha (h : c.isAlpha = false) : c.toLower = c := by
  refine Char.toLower_eq_of_not_isUpper fun capital => ?_
  simp [Char.isAlpha, capital] at h

theorem toLower_of_toNat (h : c.toNat < 65 ∨ 90 < c.toNat) : c.toLower = c := by
  refine Char.toLower_eq_of_not_isUpper fun capital => ?_
  have letter : 65 ≤ c.toNat ∧ c.toNat ≤ 90 := by
    simpa [Char.isUpper, UInt32.le_iff_toNat_le] using capital
  omega

theorem toLower_of_isDigit (h : c.isDigit = true) : c.toLower = c := by
  obtain ⟨-, high⟩ := Char.isDigit_iff_toNat.1 h
  change c.toNat ≤ 57 at high
  exact toLower_of_toNat (by omega)

theorem toLower_eq_iff (h : d.isAlpha = false) : c.toLower = d ↔ c = d := by
  constructor
  · rintro rfl
    rw [Char.isAlpha_toLower_eq_isAlpha] at h
    exact (toLower_of_not_isAlpha h).symm
  · rintro rfl
    exact toLower_of_not_isAlpha h

theorem mem_fold (h : d.isAlpha = false) : d ∈ (fold s).toList ↔ d ∈ s.toList := by
  simp [toLower_eq_iff h]

theorem isBlank_of_isAlpha (h : c.isAlpha = true) : isBlank c = false := by
  have letter : 65 ≤ c.toNat ∧ c.toNat ≤ 90 ∨ 97 ≤ c.toNat ∧ c.toNat ≤ 122 := by
    simpa [Char.isAlpha, Char.isUpper, Char.isLower, UInt32.le_iff_toNat_le] using h
  rw [Bool.eq_false_iff]
  simp only [isBlank, ne_eq, Bool.or_eq_true, Bool.and_eq_true, decide_eq_true_eq, beq_iff_eq]
  omega

theorem isBlank_toLower (c : Char) : isBlank c.toLower = isBlank c := by
  cases letter : c.isAlpha with
  | false => rw [toLower_of_not_isAlpha letter]
  | true =>
    rw [isBlank_of_isAlpha letter, isBlank_of_isAlpha (c := c.toLower) (by simpa using letter)]

theorem fold_intercalate (sep : String) (parts : List String) :
    fold (sep.intercalate parts) = (fold sep).intercalate (parts.map fold) := by
  induction parts with
  | nil => simp [fold]
  | cons s rest ih =>
    cases rest with
    | nil => simp
    | cons t rest =>
      rw [List.map_cons] at ih
      rw [List.map_cons, List.map_cons, String.intercalate_cons_cons, String.intercalate_cons_cons,
        fold_append, fold_append, ih]

theorem fields_fold (h : d.isAlpha = false) : fields d (fold s) = (fields d s).map fold := by
  obtain ⟨joined, some, apart⟩ := fields_eq_iff.1 (rfl : fields d s = fields d s)
  have separator : fold (String.singleton d) = String.singleton d :=
    fold_of_small (by simpa using toLower_of_not_isAlpha h)
  refine fields_eq_iff.2 ⟨?_, by simpa using some, ?_⟩
  · rw [← separator, ← fold_intercalate, ← joined]
  · intro part hp
    obtain ⟨field, hf, rfl⟩ := List.mem_map.1 hp
    rw [mem_fold h]
    exact apart field hf

theorem trim_fold (s : String) : trim (fold s) = fold (trim s) := by
  have blank : isBlank ∘ Char.toLower = isBlank := funext isBlank_toLower
  rw [← String.toList_inj]
  simp [trimChars, List.dropWhile_map, ← List.map_reverse, blank]

/-- What is left of a text differs from it by more than case, or nothing was taken off. -/
theorem eq_of_sublist_of_fold_eq (h : s.toList.Sublist t.toList) (same : fold s = fold t) :
    s = t := by
  have length := congrArg (List.length ∘ String.toList) same
  simp only [Function.comp_apply, toList_fold, List.length_map] at length
  exact String.toList_inj.1 (h.eq_of_length length)

theorem Bare.of_sameFolded (h : Bare t) (same : sameFolded s t = true) : Bare s := by
  rw [sameFolded_iff] at same
  refine ⟨?_, eq_of_sublist_of_fold_eq ?_ ?_⟩
  · rw [← mem_fold (by decide), same, mem_fold (by decide)]
    exact h.whole
  · rw [toList_trim]
    exact trimChars_sublist _
  · rw [← trim_fold, same, trim_fold, h.trimmed]

theorem Plain.of_sameFolded (h : Plain t) (same : sameFolded s t = true) : Plain s where
  toBare := h.toBare.of_sameFolded same
  filled := by
    rintro rfl
    exact h.filled (eq_of_sublist_of_fold_eq (by simp) (sameFolded_iff.1 same)).symm

end FrameworkAudit.Text
