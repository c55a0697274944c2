/-!
Texts with brackets. A text is balanced if each of its brackets is closed by a bracket of the same
kind; of such texts a list can be made, with commas between them and a bracket behind, and be read
back. The reader counts open brackets and nothing else.
-/

set_option autoImplicit false

namespace FrameworkAudit.Text

def closer? : Char → Option Char
  | '(' => some ')'
  | '[' => some ']'
  | '\x7b' => some '\x7d'
  | _ => none

def isCloser (c : Char) : Bool := c == ')' || c == ']' || c == '\x7d'

def isPlain (c : Char) : Bool := (closer? c).isNone && !isCloser c && c != ','

/-- Text whose brackets match; with `commas` it may have commas also outside all brackets. -/
inductive Balanced : Bool → List Char → Prop
  | nil {commas : Bool} : Balanced commas []
  | plain {commas : Bool} {c : Char} {rest : List Char} (hc : isPlain c = true)
      (hr : Balanced commas rest) : Balanced commas (c :: rest)
  | comma {rest : List Char} (hr : Balanced true rest) : Balanced true (',' :: rest)
  | group {commas : Bool} {left right : Char} {inner rest : List Char}
      (pair : closer? left = some right) (hi : Balanced true inner) (hr : Balanced commas rest) :
      Balanced commas (left :: (inner ++ right :: rest))

def depthAfter (depth : Nat) (c : Char) : Nat :=
  if (closer? c).isSome then depth + 1 else if isCloser c then depth - 1 else depth

/-- The fields of a list inside `depth` more brackets than the one that the list began with, and the
text behind the bracket that closes the list. -/
def readList : Nat → List Char → Option (List (List Char) × List Char)
  | _, [] => none
  | depth, c :: cs =>
    if depth = 0 ∧ c = ',' then
      (readList 0 cs).map fun found => ([] :: found.1, found.2)
    else if depth = 0 ∧ isCloser c then some ([[]], cs)
    else (readList (depthAfter depth c) cs).map fun found => (found.1.modifyHead (c :: ·), found.2)

namespace Balanced

variable {commas : Bool} {xs ys : List Char}

theorem append (hx : Balanced commas xs) (hy : Balanced commas ys) :
    Balanced commas (xs ++ ys) := by
  induction hx with
  | nil => exact hy
  | plain hc _ ih => exact .plain hc (ih hy)
  | comma _ ih => exact .comma (ih hy)
  | group pair hi _ _ ih =>
    rw [List.cons_append, List.append_assoc, List.cons_append]
    exact .group pair hi (ih hy)

theorem of_plain (h : ∀ c ∈ xs, isPlain c = true) : Balanced commas xs := by
  induction xs with
  | nil => exact .nil
  | cons c xs ih =>
    exact .plain (h c List.mem_cons_self) (ih fun d hd => h d (List.mem_cons_of_mem c hd))

theorem with_commas (h : Balanced commas xs) : Balanced true xs := by
  induction h with
  | nil => exact .nil
  | plain hc _ ih => exact .plain hc ih
  | comma _ ih => exact .comma ih
  | group pair hi _ _ ih => exact .group pair hi ih

theorem intercalate {sep : List Char} {parts : List (List Char)} (hs : Balanced commas sep)
    (h : ∀ part ∈ parts, Balanced commas part) : Balanced commas (sep.intercalate parts) := by
  induction parts with
  | nil => exact .nil
  | cons part parts ih =>
    have first := h part List.mem_cons_self
    have others := ih fun p hp => h p (List.mem_cons_of_mem part hp)
    cases parts with
    | nil => simpa using first
    | cons next parts =>
      rw [List.intercalate_cons_cons]
      exact (first.append hs).append others

theorem enclose {left right : Char} {parts : List (List Char)} (pair : closer? left = some right)
    (h : ∀ part ∈ parts, Balanced false part) :
    Balanced commas (left :: ([','].intercalate parts ++ [right])) :=
  .group pair (.intercalate (.comma .nil) fun part hp => (h part hp).with_commas) .nil

theorem flatten {texts : List (List Char)} (h : ∀ text ∈ texts, Balanced commas text) :
    Balanced commas texts.flatten := by
  induction texts with
  | nil => exact .nil
  | cons text texts ih =>
    exact (h text List.mem_cons_self).append (ih fun t ht => h t (List.mem_cons_of_mem text ht))

end Balanced

def IsPlainText (s : String) : Prop := ∀ c ∈ s.toList, isPlain c = true

instance (s : String) : Decidable (IsPlainText s) :=
  decidable_of_iff (s.toList.all isPlain = true) List.all_eq_true

def IsBalanced (s : String) : Prop := Balanced false s.toList

namespace IsBalanced

variable {s t : String}

theorem of_plain (h : IsPlainText s) : IsBalanced s := Balanced.of_plain h

theorem append (hs : IsBalanced s) (ht : IsBalanced t) : IsBalanced (s ++ t) := by
  rw [IsBalanced, String.toList_append]
  exact Balanced.append hs ht

theorem join {texts : List String} (h : ∀ text ∈ texts, IsBalanced text) :
    IsBalanced (String.join texts) := by
  rw [IsBalanced, String.toList_join, List.flatMap_def]
  refine Balanced.flatten fun cs hcs => ?_
  obtain ⟨text, ht, rfl⟩ := List.mem_map.1 hcs
  exact h text ht

theorem intercalate {texts : List String} (hs : IsBalanced s)
    (h : ∀ text ∈ texts, IsBalanced text) : IsBalanced (s.intercalate texts) := by
  rw [IsBalanced, String.toList_intercalate]
  refine Balanced.intercalate hs fun cs hcs => ?_
  obtain ⟨text, ht, rfl⟩ := List.mem_map.1 hcs
  exact h text ht

end IsBalanced

theorem depthAfter_of_plain {c : Char} (h : isPlain c = true) (depth : Nat) :
    depthAfter depth c = depth := by
  simp only [isPlain, Bool.and_eq_true, Option.isNone_iff_eq_none, Bool.not_eq_true'] at h
  simp [depthAfter, h.1.1, h.1.2]

theorem closer_of_pair {left right : Char} (pair : closer? left = some right) :
    left ≠ ',' ∧ isCloser left = false ∧ right ≠ ',' ∧ isCloser right = true ∧
      closer? right = none := by
  unfold closer? at pair
  split at pair <;> simp_all <;> subst pair <;> decide

theorem readList_append {commas : Bool} {text : List Char} (h : Balanced commas text) {depth : Nat}
    (hd : commas = true → 0 < depth) {rest field tail : List Char} {fields : List (List Char)}
    (hr : readList depth rest = some (field :: fields, tail)) :
    readList depth (text ++ rest) = some ((text ++ field) :: fields, tail) := by
  induction h generalizing depth rest field fields tail with
  | nil => exact hr
  | @plain commas c more hc _ ih =>
    have here : c ≠ ',' ∧ isCloser c = false := by
      simp only [isPlain, Bool.and_eq_true, Bool.not_eq_true', bne_iff_ne] at hc
      exact ⟨hc.2, hc.1.2⟩
    simp [readList, here, depthAfter_of_plain hc, ih hd hr]
  | @comma more _ ih =>
    have inside := hd rfl
    have same : depthAfter depth ',' = depth := by simp [depthAfter, closer?, isCloser]
    simp [readList, same, ih hd hr, Nat.ne_of_gt inside]
  | @group commas left right inner more pair _ _ ihInner ih =>
    obtain ⟨hl, hlc, hrc, hrcl, hrn⟩ := closer_of_pair pair
    have down : depthAfter (depth + 1) right = depth := by simp [depthAfter, hrn, hrcl]
    have up : depthAfter depth left = depth + 1 := by simp [depthAfter, pair]
    -- One bracket deeper commas are no matter, so the inner text may have them.
    have behind : readList (depth + 1) (right :: (more ++ rest)) =
        some ((right :: (more ++ field)) :: fields, tail) := by
      simp [readList, down, ih hd hr]
    have within := ihInner (fun _ => Nat.succ_pos depth) behind
    simp [readList, hl, hlc, up, within]

theorem readList_intercalate {parts : List (List Char)} (h : ∀ part ∈ parts, Balanced false part)
    (ne : parts ≠ []) {right : Char} (hr : isCloser right = true) (tail : List Char) :
    readList 0 ([','].intercalate parts ++ right :: tail) = some (parts, tail) := by
  have notComma : right ≠ ',' := by
    rintro rfl
    cases hr
  induction parts with
  | nil => exact absurd rfl ne
  | cons part parts ih =>
    have first := h part List.mem_cons_self
    cases parts with
    | nil =>
      have stop : readList 0 (right :: tail) = some ([[]], tail) := by simp [readList, notComma, hr]
      simpa using readList_append first Bool.noConfusion stop
    | cons next parts =>
      have others := ih (fun p hp => h p (List.mem_cons_of_mem part hp)) (List.cons_ne_nil _ _)
      have stop : readList 0 (',' :: ([','].intercalate (next :: parts) ++ right :: tail)) =
          some ([] :: next :: parts, tail) := by simp [readList, others]
      have read := readList_append first Bool.noConfusion stop
      rw [List.intercalate_cons_cons]
      simpa using read

end FrameworkAudit.Text
