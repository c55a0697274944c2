import FrameworkAudit.Identity.Version
import FrameworkAudit.Proofs.Result
import FrameworkAudit.Proofs.Text

set_option autoImplicit false

namespace FrameworkAudit.Version

def marks : List String := ["", "v", "V"]

def Numeric (numerals : List String) (values : List UInt16) : Prop :=
  List.Forall₂ (fun s n => Text.numeral? UInt16.size s = some n.toNat) numerals values

/-- Blanks at its ends and a mark aside, the text is numerals between points. They give the first
parts of the version, and the other parts are zero. -/
def SpelledBy (v : Version) (text : String) : Prop :=
  ∃ mark ∈ marks, ∃ (numerals : List String) (values : List UInt16),
    Text.trim text = mark ++ ".".intercalate numerals ∧ numerals ≠ [] ∧
      Numeric numerals values ∧ v.parts = values ++ List.replicate (4 - values.length) 0

variable {v : Version} {text mark : String} {numerals : List String} {values : List UInt16}

theorem parsePart_eq_ok_iff {s : String} {n : UInt16} :
    parsePart s = .ok n ↔ Text.numeral? UInt16.size s = some n.toNat := by
  unfold parsePart
  cases value : Text.numeral? UInt16.size s with
  | none => simp
  | some m =>
    have small : m < UInt16.size := by simpa using (Option.mem_filter_iff.1 value).2
    simp only [Except.ok.injEq, Option.some.injEq]
    constructor
    · rintro rfl
      exact (UInt16.toNat_ofNat_of_lt' small).symm
    · rintro rfl
      exact UInt16.ofNat_toNat

theorem ofParts_eq_iff (h : values.length ≤ 4) :
    ofParts values = v ↔ v.parts = values ++ List.replicate (4 - values.length) 0 := by
  obtain ⟨a, b, c, d⟩ := v
  rcases values with _ | ⟨p, _ | ⟨q, _ | ⟨r, _ | ⟨s, _ | ⟨t, rest⟩⟩⟩⟩⟩
  · simp [ofParts, parts, List.replicate, eq_comm]
  · simp [ofParts, parts, List.replicate, eq_comm]
  · simp [ofParts, parts, List.replicate, eq_comm]
  · simp [ofParts, parts, eq_comm]
  · simp [ofParts, parts, eq_comm]
  · simp only [List.length_cons] at h
    omega

theorem mem_mark (hm : mark ∈ marks) {c : Char} (hc : c ∈ mark.toList) : c = 'v' ∨ c = 'V' := by
  simp only [marks, List.mem_cons, List.not_mem_nil, or_false] at hm
  obtain rfl | rfl | rfl := hm
  · cases hc
  · exact .inl (List.mem_singleton.1 hc)
  · exact .inr (List.mem_singleton.1 hc)

theorem exists_mark (cs : List Char) : ∃ mark ∈ marks, cs = mark.toList ++ dropMark cs := by
  unfold dropMark
  split
  · exact ⟨"v", by decide, rfl⟩
  · exact ⟨"V", by decide, rfl⟩
  · exact ⟨"", by decide, rfl⟩

theorem dropMark_append {cs : List Char} (hm : mark ∈ marks)
    (h : ∀ c, cs.head? = some c → c ≠ 'v' ∧ c ≠ 'V') : dropMark (mark.toList ++ cs) = cs := by
  simp only [marks, List.mem_cons, List.not_mem_nil, or_false] at hm
  obtain rfl | rfl | rfl := hm
  · cases cs with
    | nil => rfl
    | cons c cs =>
      obtain ⟨small, large⟩ := h c rfl
      unfold dropMark
      split <;> simp_all
  · rfl
  · rfl

theorem Numeric.point_not_mem (h : Numeric numerals values) : ∀ s ∈ numerals, '.' ∉ s.toList := by
  induction h with
  | nil => simp
  | cons value _ ih =>
    refine List.forall_mem_cons.2 ⟨fun point => ?_, ih⟩
    rcases Text.isDigit_of_numeral? value '.' point with digit | plus
    · exact absurd digit (by decide)
    · cases plus

theorem Numeric.mem_joined (h : Numeric numerals values) {c : Char}
    (hc : c ∈ (".".intercalate numerals).toList) : c.isDigit = true ∨ c ∈ ['+', '.'] := by
  induction h with
  | nil => cases hc
  | @cons s n rest _ value _ ih =>
    have here (hc : c ∈ s.toList) : c.isDigit = true ∨ c ∈ ['+', '.'] :=
      (Text.isDigit_of_numeral? value c hc).imp_right (by rintro rfl; decide)
    cases rest with
    | nil => exact here (by simpa using hc)
    | cons t rest =>
      simp only [String.intercalate_cons_cons, String.toList_append, List.mem_append] at hc
      rcases hc with (hc | point) | later
      · exact here hc
      · exact .inr (List.mem_cons_of_mem _ point)
      · exact ih later

theorem SpelledBy.mem (h : v.SpelledBy text) {c : Char} (hc : c ∈ text.toList) :
    Text.isBlank c = true ∨ c.isDigit = true ∨ c ∈ ['+', '.', 'v', 'V'] := by
  obtain ⟨mark, hm, numerals, values, same, -, numeric, -⟩ := h
  cases blank : Text.isBlank c with
  | true => exact .inl rfl
  | false =>
    refine .inr ?_
    have inside : c ∈ (Text.trim text).toList := by
      rw [Text.toList_trim]
      exact Text.mem_trimChars hc blank
    rw [same, String.toList_append, List.mem_append] at inside
    rcases inside with hc | hc
    · exact .inr (by simp [mem_mark hm hc])
    · exact (numeric.mem_joined hc).imp_right fun sign => List.mem_append_left ['v', 'V'] sign

theorem parse_eq_ok_iff : parse text = .ok v ↔ v.SpelledBy text := by
  have read : parse text = .ok v ↔ ∃ numerals values,
      Text.fields '.' (String.ofList (dropMark (Text.trim text).toList)) = numerals ∧
        numerals.length ≤ 4 ∧ Numeric numerals values ∧ ofParts values = v := by
    simp only [parse, Numeric, check_eq_ok_iff, bind_eq_ok_iff, pure_eq_ok_iff, mapM_eq_ok_iff,
      parsePart_eq_ok_iff, Nat.not_lt]
    simp
  rw [read]
  constructor
  · rintro ⟨numerals, values, split, few, numeric, rfl⟩
    obtain ⟨joined, some, -⟩ := Text.fields_eq_iff.1 split
    obtain ⟨mark, hm, same⟩ := exists_mark (Text.trim text).toList
    refine ⟨mark, hm, numerals, values, ?_, some, numeric, ?_⟩
    · rw [← String.toList_inj, same, String.toList_append, ← String.toList_ofList (l := dropMark _),
        joined]
      rfl
    · exact (ofParts_eq_iff (numeric.length_eq ▸ few)).1 rfl
  · rintro ⟨mark, hm, numerals, values, same, some, numeric, parts⟩
    have few : values.length ≤ 4 := by
      have length := congrArg List.length parts
      simp only [Version.parts, List.length_cons, List.length_nil, List.length_append,
        List.length_replicate] at length
      omega
    have unmarked : dropMark (Text.trim text).toList = (".".intercalate numerals).toList := by
      rw [same, String.toList_append]
      refine dropMark_append hm fun c first => ?_
      have sign := numeric.mem_joined (List.mem_of_head? first)
      constructor <;> rintro rfl <;> revert sign <;> decide
    refine ⟨numerals, values, ?_, numeric.length_eq ▸ few, numeric, (ofParts_eq_iff few).2 parts⟩
    rw [unmarked, String.ofList_toList]
    exact Text.fields_eq_iff.2 ⟨rfl, some, numeric.point_not_mem⟩

def written (values : List UInt16) : String :=
  ".".intercalate (values.map fun n => toString n.toNat)

theorem text_eq_written (v : Version) : v.text = written v.parts := by
  simp [text, written, parts, String.intercalate_cons_cons, String.append_assoc, toString]

theorem numeric_written (values : List UInt16) :
    Numeric (values.map fun n => toString n.toNat) values := by
  rw [Numeric, List.forall₂_map_left_iff, List.forall₂_same]
  exact fun n _ => Text.numeral?_toString n.toNat_lt

theorem trim_written (values : List UInt16) : Text.trim (written values) = written values := by
  refine Text.trim_of_unblank fun c hc => ?_
  rcases (numeric_written values).mem_joined hc with digit | sign
  · exact Text.isBlank_of_isDigit digit
  · simp only [List.mem_cons, List.not_mem_nil, or_false] at sign
    obtain rfl | rfl := sign <;> decide

theorem spelledBy_written (hm : mark ∈ marks) (some : values ≠ [])
    (h : v.parts = values ++ List.replicate (4 - values.length) 0) :
    v.SpelledBy (mark ++ written values) := by
  refine ⟨mark, hm, values.map fun n => toString n.toNat, values, ?_, by simpa using some,
    numeric_written values, h⟩
  refine Text.trim_append (fun c hc => ?_) (trim_written values)
  obtain rfl | rfl := mem_mark hm hc <;> decide

theorem spelledBy_text (hm : mark ∈ marks) : v.SpelledBy (mark ++ v.text) := by
  rw [text_eq_written]
  exact spelledBy_written hm (List.cons_ne_nil _ _) (by simp [parts])

theorem parse_text (v : Version) : parse v.text = .ok v := by
  rw [parse_eq_ok_iff, ← String.empty_append (s := v.text)]
  exact spelledBy_text (by decide)

theorem text_inj {w : Version} (h : v.text = w.text) : v = w :=
  Except.ok.inj ((parse_text v).symm.trans (h ▸ parse_text w))

theorem trim_text (v : Version) : Text.trim v.text = v.text := by
  rw [text_eq_written, trim_written]

theorem mem_text {c : Char} (h : c ∈ v.text.toList) : c.isDigit = true ∨ c ∈ ['+', '.'] := by
  rw [text_eq_written] at h
  exact (numeric_written v.parts).mem_joined h

/-- The parts that the short form leaves out are zero. -/
theorem exists_shortText_eq_written (v : Version) : ∃ values, v.shortText = written values ∧
    values ≠ [] ∧ v.parts = values ++ List.replicate (4 - values.length) 0 := by
  unfold shortText
  split
  · exact ⟨v.parts, text_eq_written v, List.cons_ne_nil _ _, by simp [parts]⟩
  · rename_i revision
    split
    · refine ⟨[v.major, v.minor, v.build], ?_, List.cons_ne_nil _ _, ?_⟩
      · simp [written, String.intercalate_cons_cons, String.append_assoc, toString]
      · simp only [ne_eq, not_not] at revision
        simp [parts, revision]
    · rename_i build
      refine ⟨[v.major, v.minor], ?_, List.cons_ne_nil _ _, ?_⟩
      · simp [written, String.intercalate_cons_cons, String.append_assoc, toString]
      · simp only [ne_eq, not_not] at build revision
        simp [parts, List.replicate, build, revision]

theorem trim_shortText (v : Version) : Text.trim v.shortText = v.shortText := by
  obtain ⟨values, short, -⟩ := v.exists_shortText_eq_written
  rw [short, trim_written]

theorem mem_shortText {c : Char} (h : c ∈ v.shortText.toList) :
    c.isDigit = true ∨ c ∈ ['+', '.'] := by
  obtain ⟨values, short, -⟩ := v.exists_shortText_eq_written
  rw [short] at h
  exact (numeric_written values).mem_joined h

theorem spelledBy_shortText (hm : mark ∈ marks) : v.SpelledBy (mark ++ v.shortText) := by
  obtain ⟨values, short, some, parts⟩ := v.exists_shortText_eq_written
  rw [short]
  exact spelledBy_written hm some parts

theorem parse_shortText (v : Version) : parse v.shortText = .ok v := by
  rw [parse_eq_ok_iff, ← String.empty_append (s := v.shortText)]
  exact spelledBy_shortText (by decide)

theorem shortText_inj {w : Version} (h : v.shortText = w.shortText) : v = w :=
  Except.ok.inj ((parse_shortText v).symm.trans (h ▸ parse_shortText w))

end FrameworkAudit.Version
