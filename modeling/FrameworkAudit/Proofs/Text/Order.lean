import FrameworkAudit.Hashed
import FrameworkAudit.Proofs.Text.Case
import FrameworkAudit.Proofs.Text.Utf8

/-!
Texts and their bytes. A character that is less than another has the lesser bytes, whatever follows, so
texts are ordered as their bytes are, also where one of them begins with the other. Folding the case of a
text folds the case of its bytes: those of a character outside ASCII are none of ASCII.
-/

set_option autoImplicit false

namespace FrameworkAudit.Text

variable {c d : Char} {b : UInt8} {cs ds : List Char} {xs ys : List UInt8} {s t : String}

/-- The first byte that differs decides, and a sequence of fewer bytes begins with a lesser one. -/
theorem utf8EncodeChar_lt (h : c < d) :
    String.utf8EncodeChar c ++ xs < String.utf8EncodeChar d ++ ys := by
  have less : c.toNat < d.toNat := h
  have value (c : Char) : c.val.toNat = c.toNat := rfl
  have valid := Utf8.Head.toNat_valid d
  unfold String.utf8EncodeChar
  dsimp only
  rw [value, value]
  repeat' split
  all_goals
    simp only [List.cons_append, List.nil_append, List.cons_lt_cons_iff, UInt8.lt_iff_toNat_lt,
      ← UInt8.toNat_inj, UInt8.toNat_ofNat']
    -- no byte overflows, so the bytes are the digits of the character in base 64
    simp (disch := omega) only [Nat.mod_eq_of_lt]
    omega

theorem flatMap_utf8EncodeChar_lt (h : cs < ds) :
    cs.flatMap String.utf8EncodeChar < ds.flatMap String.utf8EncodeChar := by
  induction cs generalizing ds with
  | nil =>
    cases ds with
    | nil => exact absurd h (List.lt_irrefl [])
    | cons d ds =>
      obtain ⟨b, tail, written, -⟩ := Utf8.Head.ofBytes_utf8EncodeChar d []
      rw [List.flatMap_cons, written]
      exact List.nil_lt_cons _ _
  | cons c cs ih =>
    cases ds with
    | nil => exact absurd h (List.not_lt_nil _)
    | cons d ds =>
      rw [List.flatMap_cons, List.flatMap_cons]
      rcases List.cons_lt_cons_iff.1 h with less | ⟨rfl, less⟩
      · exact utf8EncodeChar_lt less
      · exact List.append_left_lt (ih less)

theorem toUTF8_lt (h : s < t) : s.toUTF8.toList < t.toUTF8.toList := by
  rw [Bytes.toList_toUTF8, Bytes.toList_toUTF8]
  exact flatMap_utf8EncodeChar_lt (String.lt_iff.1 h)

theorem compareLex_eq_lt_iff : compare xs ys = .lt ↔ xs < ys := by
  change List.compareLex compare xs ys = .lt ↔ xs < ys
  induction xs generalizing ys with
  | nil => cases ys <;> simp [List.compareLex_nil_nil, List.compareLex_nil_cons]
  | cons x xs ih =>
    cases ys with
    | nil => simp [List.compareLex_cons_nil]
    | cons y ys =>
      rw [List.compareLex_cons_cons, Ordering.then_eq_lt, List.cons_lt_cons_iff, ih,
        Std.LawfulLTCmp.eq_lt_iff_lt, Std.LawfulEqCmp.compare_eq_iff_eq]

/-- Texts are ordered as their bytes are. -/
theorem compare_toUTF8 (s t : String) : compare s.toUTF8.toList t.toUTF8.toList = compare s t := by
  have less {s t : String} (h : compare s t = .lt) :
      compare s.toUTF8.toList t.toUTF8.toList = .lt :=
    compareLex_eq_lt_iff.2 (toUTF8_lt (Std.LawfulLTCmp.eq_lt_iff_lt.1 h))
  cases order : compare s t with
  | lt => exact less order
  | eq =>
    obtain rfl := Std.LawfulEqCmp.eq_of_compare order
    exact Std.ReflCmp.compare_self
  | gt => exact Std.OrientedCmp.gt_of_lt (less (Std.OrientedCmp.lt_of_gt order))

theorem utf8EncodeChar_toLower_ascii : ∀ n < 0x80, String.utf8EncodeChar (Char.ofNat n).toLower =
    (String.utf8EncodeChar (Char.ofNat n)).map lowerByte := by decide

theorem large_of_mem_utf8EncodeChar (h : 0x80 ≤ c.toNat) (hb : b ∈ String.utf8EncodeChar c) :
    0x80 ≤ b.toNat := by
  have value : c.val.toNat = c.toNat := rfl
  unfold String.utf8EncodeChar at hb
  dsimp only at hb
  rw [value, if_neg (by omega)] at hb
  repeat' split at hb
  all_goals
    simp only [List.mem_cons, List.not_mem_nil, or_false] at hb
    rcases hb with rfl | rfl | rfl | rfl <;> rw [UInt8.toNat_ofNat'] <;> omega

theorem lowerByte_of_large (h : 0x80 ≤ b.toNat) : lowerByte b = b := by
  refine if_neg fun capital => ?_
  have le : b.toNat ≤ 0x5A := UInt8.le_iff_toNat_le.1 capital.2
  omega

theorem utf8EncodeChar_toLower (c : Char) :
    String.utf8EncodeChar c.toLower = (String.utf8EncodeChar c).map lowerByte := by
  rcases Nat.lt_or_ge c.toNat 0x80 with ascii | large
  · have itself := utf8EncodeChar_toLower_ascii c.toNat ascii
    rwa [Char.ofNat_toNat] at itself
  · rw [toLower_of_toNat (by omega)]
    have kept : ∀ b ∈ String.utf8EncodeChar c, lowerByte b = b :=
      fun b hb => lowerByte_of_large (large_of_mem_utf8EncodeChar large hb)
    exact ((List.map_congr_left kept).trans (List.map_id' _)).symm

theorem toList_toUTF8_fold (s : String) :
    (fold s).toUTF8.toList = s.toUTF8.toList.map lowerByte := by
  rw [Bytes.toList_toUTF8, Bytes.toList_toUTF8, toList_fold, List.flatMap_map, List.map_flatMap]
  exact congrArg (List.flatMap · s.toList) (funext utf8EncodeChar_toLower)

end FrameworkAudit.Text
