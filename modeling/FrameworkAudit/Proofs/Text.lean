import FrameworkAudit.Text.Blank
import FrameworkAudit.Text.Fields
import FrameworkAudit.Text.Numeral
import Mathlib.Data.List.DropRight
import Mathlib.Data.List.TakeWhile

set_option autoImplicit false

namespace FrameworkAudit.Text

theorem cutChars_eq_some_iff {sep : Char} {cs before after : List Char} :
    cutChars sep cs = some (before, after) ↔ cs = before ++ sep :: after ∧ sep ∉ before := by
  constructor
  · intro h
    induction cs generalizing before with
    | nil => cases h
    | cons c cs ih =>
      rw [cutChars] at h
      split at h
      · rename_i here
        cases h
        exact ⟨by rw [here, List.nil_append], List.not_mem_nil⟩
      · rename_i other
        obtain ⟨⟨left, right⟩, cut, same⟩ := Option.map_eq_some_iff.1 h
        cases same
        obtain ⟨rfl, none⟩ := ih cut
        exact ⟨rfl, List.not_mem_cons_of_ne_of_not_mem (Ne.symm other) none⟩
  · rintro ⟨rfl, none⟩
    exact cutChars_append none

theorem cut_eq_some_iff {sep : Char} {s before after : String} :
    cut sep s = some (before, after) ↔
      s.toList = before.toList ++ sep :: after.toList ∧ sep ∉ before.toList := by
  rw [← cutChars_eq_some_iff, cut, Option.map_eq_some_iff]
  constructor
  · rintro ⟨⟨left, right⟩, parts, same⟩
    cases same
    simpa using parts
  · intro parts
    exact ⟨_, parts, by simp⟩

theorem cut_eq_none_iff {sep : Char} {s : String} : cut sep s = none ↔ sep ∉ s.toList := by
  rw [cut, Option.map_eq_none_iff, cutChars_eq_none_iff]

theorem cutLast_eq_some_iff {sep : Char} {s before after : String} :
    cutLast sep s = some (before, after) ↔
      s.toList = before.toList ++ sep :: after.toList ∧ sep ∉ after.toList := by
  have reversed : s.toList = before.toList ++ sep :: after.toList ↔
      s.toList.reverse = after.toList.reverse ++ sep :: before.toList.reverse := by
    rw [← List.reverse_inj]
    simp
  have halves : cutLast sep s = some (before, after) ↔
      cutChars sep s.toList.reverse = some (after.toList.reverse, before.toList.reverse) := by
    rw [cutLast, Option.map_eq_some_iff]
    constructor
    · rintro ⟨⟨left, right⟩, cut, same⟩
      cases same
      simpa using cut
    · intro cut
      exact ⟨_, cut, by simp⟩
  rw [halves, cutChars_eq_some_iff, reversed, List.mem_reverse]

theorem fieldChars_eq_splitOn (sep : Char) (cs : List Char) :
    fieldChars sep cs = cs.splitOn sep := by
  induction cs with
  | nil => rfl
  | cons c cs ih =>
    rw [fieldChars, List.splitOn_cons_eq_if_modifyHead, ih]
    by_cases here : c = sep
    · simp [here]
    · cases parts : cs.splitOn sep with
      | nil => exact absurd parts (List.splitOn_ne_nil _ _)
      | cons field rest => simp [here]

theorem not_mem_of_mem_fieldChars {sep : Char} {cs field : List Char}
    (h : field ∈ fieldChars sep cs) : sep ∉ field := by
  induction cs generalizing field with
  | nil => simp_all [fieldChars]
  | cons c cs ih =>
    rw [fieldChars] at h
    split at h
    · rcases List.mem_cons.1 h with rfl | h
      · exact List.not_mem_nil
      · exact ih h
    · rename_i other
      split at h
      · rename_i none
        exact absurd none (fieldChars_ne_nil _ _)
      · rename_i first rest parts
        rw [parts] at ih
        rcases List.mem_cons.1 h with rfl | h
        · exact List.not_mem_cons_of_ne_of_not_mem (Ne.symm other) (ih List.mem_cons_self)
        · exact ih (List.mem_cons_of_mem _ h)

/-- The fields of a text are the texts without separators that it joins, of which there is one at
least. -/
theorem fields_eq_iff {sep : Char} {s : String} {parts : List String} :
    fields sep s = parts ↔ s = (String.singleton sep).intercalate parts ∧ parts ≠ [] ∧
      ∀ part ∈ parts, sep ∉ part.toList := by
  have text : s = (String.singleton sep).intercalate parts ↔
      s.toList = [sep].intercalate (parts.map String.toList) := by
    rw [← String.toList_inj, String.toList_intercalate]
    simp
  rw [text, fields, fieldChars_eq_splitOn]
  constructor
  · rintro rfl
    refine ⟨by simp [Function.comp_def, List.intercalate_splitOn], by simp [List.splitOn_ne_nil], ?_⟩
    intro part hp
    obtain ⟨field, hf, rfl⟩ := List.mem_map.1 hp
    rw [← fieldChars_eq_splitOn] at hf
    simpa using not_mem_of_mem_fieldChars hf
  · rintro ⟨joined, some, apart⟩
    rw [joined, List.splitOn_intercalate sep (by simpa using apart) (by simpa using some)]
    simp [Function.comp_def]

@[simp] theorem toList_trim (s : String) : (trim s).toList = trimChars s.toList := by simp [trim]

theorem trimChars_prefix_dropWhile (cs : List Char) : trimChars cs <+: cs.dropWhile isBlank :=
  List.rdropWhile_prefix isBlank (cs.dropWhile isBlank)

theorem trimChars_sublist (cs : List Char) : (trimChars cs).Sublist cs :=
  (trimChars_prefix_dropWhile cs).sublist.trans (List.dropWhile_sublist isBlank)

theorem isBlank_of_head?_trimChars {cs : List Char} {c : Char} (h : (trimChars cs).head? = some c) :
    isBlank c = false := by
  obtain ⟨rest, split⟩ := trimChars_prefix_dropWhile cs
  have first : (cs.dropWhile isBlank).head? = some c := by
    rw [← split, List.head?_append, h, Option.some_or]
  simpa [first] using List.head?_dropWhile_not isBlank cs

theorem isBlank_of_getLast?_trimChars {cs : List Char} {c : Char}
    (h : (trimChars cs).getLast? = some c) : isBlank c = false := by
  rw [trimChars, List.getLast?_reverse] at h
  simpa [h] using List.head?_dropWhile_not isBlank (cs.dropWhile isBlank).reverse

theorem mem_trimChars {cs : List Char} {c : Char} (h : c ∈ cs) (hb : isBlank c = false) :
    c ∈ trimChars cs := by
  have stays : ∀ {l : List Char}, c ∈ l → c ∈ l.dropWhile isBlank := by
    intro l hl
    rw [← List.takeWhile_append_dropWhile (p := isBlank) (l := l), List.mem_append] at hl
    exact hl.resolve_left fun blank => by simp [List.mem_takeWhile_imp blank] at hb
  rw [trimChars, List.mem_reverse]
  exact stays (List.mem_reverse.2 (stays h))

theorem trim_trim (s : String) : trim (trim s) = trim s := by
  rw [← String.toList_inj, toList_trim, toList_trim]
  exact trimChars_eq_self (fun _ => isBlank_of_head?_trimChars) (fun _ => isBlank_of_getLast?_trimChars)

theorem trim_blank_append {c : Char} (h : isBlank c = true) (s : String) :
    trim (String.singleton c ++ s) = trim s := by
  simp [← String.toList_inj, trimChars, h]

theorem trim_of_unblank {s : String} (h : ∀ c ∈ s.toList, isBlank c = false) : trim s = s := by
  rw [← String.toList_inj, toList_trim]
  exact trimChars_eq_self (fun c first => h c (List.mem_of_head? first))
    (fun c last => h c (List.mem_of_getLast? last))

theorem trim_append {s t : String} (unblank : ∀ c ∈ s.toList, isBlank c = false)
    (trimmed : trim t = t) : trim (s ++ t) = s ++ t := by
  rw [← String.toList_inj, toList_trim] at trimmed ⊢
  rw [String.toList_append]
  refine trimChars_eq_self ?_ ?_
  · intro c first
    rw [List.head?_append, Option.or_eq_some_iff] at first
    rcases first with first | ⟨-, first⟩
    · exact unblank c (List.mem_of_head? first)
    · exact isBlank_of_head?_trimChars (trimmed.symm ▸ first)
  · intro c last
    rw [List.getLast?_append, Option.or_eq_some_iff] at last
    rcases last with last | ⟨-, last⟩
    · exact isBlank_of_getLast?_trimChars (trimmed.symm ▸ last)
    · exact unblank c (List.mem_of_getLast? last)

theorem trim_part {s key t : String} (front : s = String.singleton ' ' ++ key)
    (unblank : (key.toList.all fun c => !isBlank c) = true) (trimmed : trim t = t) :
    trim (s ++ t) = key ++ t := by
  rw [front, String.append_assoc, trim_blank_append rfl, trim_append _ trimmed]
  simpa using unblank

theorem not_mem_trim {c : Char} {s : String} (h : c ∉ s.toList) : c ∉ (trim s).toList := by
  rw [toList_trim]
  exact fun inside => h ((trimChars_sublist _).subset inside)

structure Bare (s : String) : Prop where
  whole : ',' ∉ s.toList
  trimmed : trim s = s

structure Plain (s : String) : Prop extends Bare s where
  filled : s ≠ ""

theorem bare_trim {s : String} (whole : ',' ∉ s.toList) : Bare (trim s) :=
  ⟨not_mem_trim whole, trim_trim s⟩

theorem isDigit_of_digitsFrom? {cs : List Char} {acc n : Nat} (h : digitsFrom? acc cs = some n) :
    ∀ c ∈ cs, c.isDigit = true := by
  induction cs generalizing acc with
  | nil => simp
  | cons c cs ih =>
    rw [digitsFrom?] at h
    split at h
    · rename_i digit
      exact List.forall_mem_cons.2 ⟨digit, ih h⟩
    · cases h

theorem isDigit_of_unsignedChars? {cs : List Char} {n : Nat} (h : unsignedChars? cs = some n) :
    ∀ c ∈ cs, c.isDigit = true := by
  cases cs with
  | nil => simp
  | cons c cs => exact isDigit_of_digitsFrom? h

theorem isDigit_of_numeral? {limit n : Nat} {s : String} (h : numeral? limit s = some n) :
    ∀ c ∈ s.toList, c.isDigit = true ∨ c = '+' := by
  obtain ⟨digits, -⟩ := Option.filter_eq_some_iff.1 h
  intro c hc
  split at digits
  · rename_i cs text
    rw [text] at hc
    rcases List.mem_cons.1 hc with plus | hc
    · exact .inr plus
    · exact .inl (isDigit_of_unsignedChars? digits c hc)
  · exact .inl (isDigit_of_unsignedChars? digits c hc)

theorem isBlank_of_isDigit {c : Char} (h : c.isDigit = true) : isBlank c = false := by
  obtain ⟨low, high⟩ := Char.isDigit_iff_toNat.1 h
  change 48 ≤ c.toNat at low
  change c.toNat ≤ 57 at high
  rw [Bool.eq_false_iff]
  simp only [isBlank, ne_eq, Bool.or_eq_true, Bool.and_eq_true, decide_eq_true_eq, beq_iff_eq]
  omega

theorem digitsFrom?_eq {cs : List Char} (h : ∀ c ∈ cs, c.isDigit = true) (acc : Nat) :
    digitsFrom? acc cs = some (Nat.ofDigitChars 10 cs acc) := by
  induction cs generalizing acc with
  | nil => rfl
  | cons c cs ih =>
    obtain ⟨digit, rest⟩ := List.forall_mem_cons.1 h
    rw [digitsFrom?, if_pos digit, ih rest, Nat.ofDigitChars_cons, Nat.mul_comm 10]

theorem isDigit_of_mem_toDigits {n : Nat} : ∀ c ∈ Nat.toDigits 10 n, c.isDigit = true :=
  fun _ hc => Nat.isDigit_of_mem_toDigits (by decide) (by decide) hc

theorem unsignedChars?_toDigits (n : Nat) : unsignedChars? (Nat.toDigits 10 n) = some n := by
  have value := digitsFrom?_eq (isDigit_of_mem_toDigits (n := n)) 0
  rw [Nat.ofDigitChars_ten_toDigits] at value
  cases digits : Nat.toDigits 10 n with
  | nil => exact absurd digits Nat.toDigits_ne_nil
  | cons c cs => rwa [digits] at value

theorem numeral?_toString {limit n : Nat} (h : n < limit) :
    numeral? limit (toString n) = some n := by
  have text : (toString n).toList = Nat.toDigits 10 n := by simp
  unfold numeral?
  rw [text]
  split
  · rename_i cs plus
    have digit := isDigit_of_mem_toDigits (n := n) '+' (plus ▸ List.mem_cons_self)
    exact absurd digit (by decide)
  · simp [unsignedChars?_toDigits, h]

end FrameworkAudit.Text
