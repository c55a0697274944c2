import FrameworkAudit.DocId

/-!
What the identifier of a member says of its declaring type. The type stands before a dot, but names
of types may have any characters, so a dot of the parameters can be taken for that dot. How many
dots follow the member's name settles which dot it is.
-/

set_option autoImplicit false

namespace FrameworkAudit

theorem eq_of_append_dot {xs ys us vs : List Char} (h : xs ++ '.' :: us = ys ++ '.' :: vs)
    (hc : xs.count '.' = ys.count '.') : xs = ys := by
  rcases List.append_eq_append_iff.1 h with ⟨ts, rfl, ht⟩ | ⟨ts, rfl, ht⟩
  · cases ts with
    | nil => simp
    | cons t ts =>
      obtain rfl : '.' = t := (List.cons.inj ht).1
      simp at hc
  · cases ts with
    | nil => simp
    | cons t ts =>
      obtain rfl : '.' = t := (List.cons.inj ht).1
      simp at hc

namespace MemberShape

def suffix (m : MemberShape) : String :=
  match m.kind with
  | .method method => methodSuffix m.name method
  | .field _ => ""

def idKind (m : MemberShape) : DocIdKind :=
  match m.kind with
  | .method _ => .method
  | .field _ => .field

theorem dot_not_mem_nameText {name : String} : '.' ∉ (nameText name).toList := by
  rw [nameText, String.toList_map, List.mem_map]
  rintro ⟨c, -, hc⟩
  simp only [nameChar] at hc
  split at hc <;> simp_all

variable {m n : MemberShape}

theorem toList_ofMember : (DocId.ofMember m).toList = (DocId.mark m.idKind).toList ++
    (m.parent.definitionText.toList ++ '.' :: ((nameText m.name).toList ++ m.suffix.toList)) := by
  rcases h : m.kind with method | type <;>
    simp [DocId.ofMember, idKind, suffix, h, String.toList_append]

theorem path_eq_of_ofMember_eq (h : DocId.ofMember m = DocId.ofMember n) :
    m.parent.definitionText.toList ++ '.' :: ((nameText m.name).toList ++ m.suffix.toList) =
      n.parent.definitionText.toList ++ '.' :: ((nameText n.name).toList ++ n.suffix.toList) := by
  have hl := congrArg String.toList h
  rw [toList_ofMember, toList_ofMember] at hl
  refine (List.append_inj hl ?_).2
  rcases hm : m.kind with _ | _ <;> rcases hn : n.kind with _ | _ <;>
    simp [idKind, hm, hn, DocId.mark]

theorem ofMember_ne_type {text : String} : DocId.ofMember m ≠ DocId.mark .type ++ text := by
  intro h
  have hl := congrArg (·.toList.head?) h
  rw [toList_ofMember] at hl
  rcases hm : m.kind with _ | _ <;> simp [idKind, hm, DocId.mark] at hl

/-- The dots after the name of a member: those of its parameters, and of the result of a
conversion. -/
def suffixDots (m : MemberShape) : Nat := m.suffix.toList.count '.'

/-- Members of one identifier have one declaring type exactly if as many dots follow their names. -/
theorem definitionText_eq_iff (h : DocId.ofMember m = DocId.ofMember n) :
    m.parent.definitionText = n.parent.definitionText ↔ m.suffixDots = n.suffixDots := by
  have path := path_eq_of_ofMember_eq h
  have count := congrArg (List.count '.') path
  simp only [List.count_append, List.count_cons_self,
    List.count_eq_zero_of_not_mem dot_not_mem_nameText, Nat.zero_add] at count
  constructor
  · intro hd
    rw [hd] at count
    simp only [suffixDots]
    omega
  · intro hs
    simp only [suffixDots] at hs
    exact String.toList_injective (eq_of_append_dot path (by omega))

/-- Neither the declaring type nor the name has a bracket that could open a parameter list. -/
def IsPlain (m : MemberShape) : Prop :=
  '(' ∉ m.parent.definitionText.toList ∧ '(' ∉ m.name.toList

theorem paren_not_mem_nameText {name : String} (h : '(' ∉ name.toList) :
    '(' ∉ (nameText name).toList := by
  rw [nameText, String.toList_map, List.mem_map]
  rintro ⟨c, hc, he⟩
  simp only [nameChar] at he
  split at he <;> simp_all

def arityText (typeParams : Nat) : String :=
  if typeParams = 0 then "" else "``" ++ toString typeParams

theorem mem_arityText {typeParams : Nat} {c : Char} (h : c ∈ (arityText typeParams).toList) :
    c ≠ '.' ∧ c ≠ '(' := by
  unfold arityText at h
  split at h
  · simp at h
  · rw [String.toList_append, List.mem_append] at h
    rcases h with h | h
    · simp at h
      simp [h]
    · have digit : c.isDigit = true := by
        refine Nat.isDigit_of_mem_toDigits (b := 10) (n := typeParams) (by decide) (by decide) ?_
        simpa [Nat.toString_eq_repr] using h
      constructor <;> rintro rfl <;> simp at digit

theorem takeWhile_paramList {params : List String} {vararg : Bool} {rest : List Char} :
    ((TypeShape.paramList params vararg).toList ++ rest).takeWhile (· ≠ '(') = [] := by
  simp [TypeShape.paramList]

/-- Before the first bracket the suffix of a member is its arity, and dots come only after it. -/
theorem suffix_eq : ∃ typeParams rest, m.suffix.toList = (arityText typeParams).toList ++ rest ∧
    rest.takeWhile (· ≠ '(') = [] := by
  rcases h : m.kind with method | type
  · by_cases hp : method.params.isEmpty ∧ method.vararg = false
    · have hc : isConversion m.name method = false := by
        simp [isConversion, List.isEmpty_iff.1 hp.1]
      refine ⟨method.typeParams, [], ?_, rfl⟩
      simp [suffix, h, methodSuffix, hp, hc, arityText]
    · have text : m.suffix.toList = (arityText method.typeParams).toList ++
          ((TypeShape.paramList (method.params.map TypeShape.text) method.vararg).toList ++
            (if isConversion m.name method then "~" ++ method.result.text else "").toList) := by
        simp only [suffix, h, methodSuffix, if_neg hp, arityText, String.toList_append,
          List.append_assoc]
      exact ⟨_, _, text, takeWhile_paramList⟩
  · exact ⟨0, [], by simp [suffix, h, arityText], rfl⟩

theorem takeWhile_path (h : m.IsPlain) : ∃ head : List Char, '.' ∉ head ∧
    (m.parent.definitionText.toList ++
      '.' :: ((nameText m.name).toList ++ m.suffix.toList)).takeWhile (· ≠ '(') =
        m.parent.definitionText.toList ++ '.' :: head := by
  obtain ⟨typeParams, rest, hs, stop⟩ := suffix_eq (m := m)
  refine ⟨(nameText m.name).toList ++ (arityText typeParams).toList, ?_, ?_⟩
  · simp only [List.mem_append, not_or]
    exact ⟨dot_not_mem_nameText, fun hm => (mem_arityText hm).1 rfl⟩
  · have none : ∀ c ∈ m.parent.definitionText.toList ++
        '.' :: ((nameText m.name).toList ++ (arityText typeParams).toList), c ≠ '(' := by
      rintro c hc rfl
      simp only [List.mem_append, List.mem_cons] at hc
      rcases hc with hc | hc | hc | hc
      · exact h.1 hc
      · simp at hc
      · exact paren_not_mem_nameText h.2 hc
      · exact (mem_arityText hc).2 rfl
    rw [hs, ← List.append_assoc, ← List.cons_append, ← List.append_assoc,
      List.takeWhile_append_of_pos (by simpa using none), stop, List.append_nil]

theorem definitionText_eq_of_plain (hm : m.IsPlain) (hn : n.IsPlain)
    (h : DocId.ofMember m = DocId.ofMember n) :
    m.parent.definitionText = n.parent.definitionText := by
  obtain ⟨us, hus, hu⟩ := takeWhile_path hm
  obtain ⟨vs, hvs, hv⟩ := takeWhile_path hn
  rw [path_eq_of_ofMember_eq h, hv] at hu
  have count := congrArg (List.count '.') hu
  simp only [List.count_append, List.count_cons_self, List.count_eq_zero_of_not_mem hus,
    List.count_eq_zero_of_not_mem hvs] at count
  exact String.toList_injective (eq_of_append_dot hu (by omega)).symm

end MemberShape

end FrameworkAudit
