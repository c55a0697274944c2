import FrameworkAudit.Identity
import FrameworkAudit.Proofs.Identity.Version
import FrameworkAudit.Proofs.Text.Case

set_option autoImplicit false

namespace FrameworkAudit

open Text

theorem Version.comma_not_mem_text {v : Version} : ',' ∉ v.text.toList :=
  fun h => absurd (mem_text h) (by decide)

theorem Version.fold_text {v : Version} : fold v.text = v.text := by
  refine fold_of_small fun c hc => (mem_text hc).elim toLower_of_isDigit fun sign => ?_
  have small : (['+', '.'].all fun c => c.toLower == c) = true := by decide
  simpa using List.all_eq_true.1 small c sign

theorem KeyToken.ofBytes?_toList (t : KeyToken) : ofBytes? t.toList = some t := by
  obtain ⟨⟨bytes, size⟩⟩ := t
  simp [ofBytes?, toList, size]

section

variable [Host] [LawfulHost]

theorem KeyToken.parse_hex (t : KeyToken) : parse t.hex = .ok t := by
  rw [parse, hex, LawfulHost.hexBytes_hexText]
  simp only [ofBytes?_toList]

theorem KeyToken.length_hex (t : KeyToken) : t.hex.toList.length = 16 := by
  rw [hex, LawfulHost.length_hexText]
  simp [toList]

theorem KeyToken.not_untold_hex (t : KeyToken) :
    ¬ (t.hex.isEmpty = true ∨ sameFolded t.hex "null" = true) := by
  have length := t.length_hex
  rintro (empty | untold)
  · rw [String.isEmpty_iff] at empty
    rw [empty] at length
    cases length
  · have same := congrArg (List.length ∘ String.toList) (sameFolded_iff.1 untold)
    simp [length] at same

theorem KeyToken.hex_inj {s t : KeyToken} (h : s.hex = t.hex) : s = t :=
  Except.ok.inj ((parse_hex s).symm.trans (h ▸ parse_hex t))

end

namespace Identity

variable {i j : Identity} {text part : String} {c : Char}

def tokenChars : List Char := "0123456789abcdefnul".toList

section

variable [Host] [LawfulHost]

theorem mem_tokenText (h : c ∈ i.tokenText.toList) : c ∈ tokenChars := by
  unfold tokenText at h
  cases token : i.token? with
  | none =>
    rw [token] at h
    have plain : ("null".toList.all fun c => tokenChars.contains c) = true := by decide
    simpa using List.all_eq_true.1 plain c h
  | some t =>
    have digits : ("0123456789abcdef".toList.all fun c => tokenChars.contains c) = true := by decide
    rw [token] at h
    simpa using List.all_eq_true.1 digits c (LawfulHost.mem_hexText _ c h)

theorem isBlank_of_mem_tokenText (h : c ∈ i.tokenText.toList) : isBlank c = false := by
  have unblank : (tokenChars.all fun c => !isBlank c) = true := by decide
  simpa using List.all_eq_true.1 unblank c (mem_tokenText h)

theorem comma_not_mem_tokenText : ',' ∉ i.tokenText.toList :=
  fun h => absurd (mem_tokenText h) (by decide)

theorem fold_tokenText : fold i.tokenText = i.tokenText := by
  have small : (tokenChars.all fun c => c.toLower == c) = true := by decide
  refine fold_of_small fun c hc => ?_
  simpa using List.all_eq_true.1 small c (mem_tokenText hc)

theorem tokenText_inj (h : i.tokenText = j.tokenText) : i.token? = j.token? := by
  have apart (t : KeyToken) : t.hex ≠ "null" := fun same =>
    t.not_untold_hex (.inr (sameFolded_iff.2 (congrArg fold same)))
  unfold tokenText at h
  cases left : i.token? with
  | none => cases right : j.token? with
    | none => rfl
    | some t => exact absurd (by simpa [left, right] using h.symm) (apart t)
  | some s => cases right : j.token? with
    | none => exact absurd (by simpa [left, right] using h) (apart s)
    | some t =>
      have same : s.hex = t.hex := by simpa [left, right] using h
      rw [KeyToken.hex_inj same]

end

def cultureText (i : Identity) : String := i.culture?.getD "neutral"

theorem toList_display [Host] (i : Identity) : ∃ front,
    i.display.toList = i.name.toList ++ ',' :: front ++ '=' :: i.tokenText.toList := by
  refine ⟨" Version=".toList ++ i.version.text.toList ++ ", Culture=".toList ++
    i.cultureText.toList ++ ", PublicKeyToken".toList, ?_⟩
  simp [display, cultureText, toString]

theorem trim_display [Host] [LawfulHost] (h : i.name.toList.head?.any isBlank = false) :
    trim i.display = i.display := by
  obtain ⟨front, parts⟩ := i.toList_display
  rw [trim, trimChars_eq_self, String.ofList_toList]
  · intro c first
    rw [parts, List.append_assoc, List.head?_append] at first
    cases begins : i.name.toList.head? with
    | none =>
      rw [begins] at first
      cases first
      decide
    | some d =>
      rw [begins] at first
      cases first
      rwa [begins] at h
  · intro c last
    rw [parts, List.getLast?_append, List.getLast?_cons, Option.some_or] at last
    obtain rfl := Option.some.inj last
    cases ends : i.tokenText.toList.getLast? with
    | none => decide
    | some d => exact isBlank_of_mem_tokenText (List.mem_of_getLast? ends)

def displayFields [Host] (i : Identity) : List String :=
  [i.name, " Version=" ++ i.version.text, " Culture=" ++ i.cultureText,
    " PublicKeyToken=" ++ i.tokenText]

structure Whole (i : Identity) : Prop where
  name : ',' ∉ i.name.toList
  culture : ',' ∉ i.cultureText.toList

theorem display_eq_intercalate [Host] (i : Identity) : i.display = ",".intercalate i.displayFields := by
  simp [← String.toList_inj, display, displayFields, cultureText, String.intercalate_cons_cons,
    toString]

section

variable [Host] [LawfulHost]

theorem fields_display (h : i.Whole) : fields ',' i.display = i.displayFields := by
  refine fields_eq_iff.2 ⟨i.display_eq_intercalate, List.cons_ne_nil _ _, ?_⟩
  simp [displayFields, h.name, h.culture, Version.comma_not_mem_text, comma_not_mem_tokenText]

theorem fold_display_eq_iff (hi : i.Whole) (hj : j.Whole) : fold i.display = fold j.display ↔
    fold i.name = fold j.name ∧ i.version = j.version ∧ fold i.cultureText = fold j.cultureText ∧
      i.token? = j.token? := by
  have parts : fold i.display = fold j.display ↔
      i.displayFields.map fold = j.displayFields.map fold := by
    constructor
    · intro same
      rw [← fields_display hi, ← fields_display hj, ← fields_fold (by decide), same,
        fields_fold (by decide)]
    · intro same
      rw [display_eq_intercalate, display_eq_intercalate, fold_intercalate, fold_intercalate, same]
  have version : i.version.text = j.version.text ↔ i.version = j.version :=
    ⟨Version.text_inj, fun same => by rw [same]⟩
  have token : i.tokenText = j.tokenText ↔ i.token? = j.token? :=
    ⟨tokenText_inj, fun same => by rw [tokenText, tokenText, same]⟩
  rw [parts]
  simp [displayFields, fold_append, String.append_right_inj, fold_tokenText, Version.fold_text,
    version, token]

end

/-- The name and the culture can stand between commas, and the culture is not the neutral one. -/
structure Readable (i : Identity) : Prop where
  name : Plain i.name
  culture : ∀ c ∈ i.culture?, Bare c ∧ keepCulture c = some c

theorem mem_bind_keepCulture {culture? : Option String} {c : String} :
    c ∈ culture?.bind keepCulture ↔ c ∈ culture? ∧ keepCulture c = some c := by
  have same {d : String} (kept : keepCulture d = some c) : d = c := by
    unfold keepCulture at kept
    split at kept
    · cases kept
    · exact Option.some.inj kept
  constructor
  · intro kept
    obtain ⟨d, given, kept⟩ := Option.bind_eq_some_iff.1 kept
    obtain rfl := same kept
    exact ⟨given, kept⟩
  · intro ⟨given, kept⟩
    exact Option.bind_eq_some_iff.2 ⟨c, given, kept⟩

theorem readable_make {name : String} {version : Version} {culture? : Option String}
    {token? : Option KeyToken} (plain : Plain name)
    (bare : ∀ c ∈ (make name version culture? token?).culture?, Bare c) :
    (make name version culture? token?).Readable where
  name := plain
  culture c hc := ⟨bare c hc, (mem_bind_keepCulture.1 hc).2⟩

/-- A part of a display name says nothing of the name, and gives a culture without its blanks. -/
theorem bare_of_parsePart [Host] (apart : ',' ∉ part.toList) (bare : ∀ c ∈ i.culture?, Bare c)
    (h : i.parsePart part = .ok j) : j.name = i.name ∧ ∀ c ∈ j.culture?, Bare c := by
  unfold parsePart at h
  cases pair : cut '=' part with
  | none =>
    rw [pair] at h
    cases h
    exact ⟨rfl, bare⟩
  | some halves =>
    obtain ⟨key, value⟩ := halves
    have whole : ',' ∉ value.toList := by
      rw [(cut_eq_some_iff.1 pair).1] at apart
      simp_all
    simp only [pair] at h
    split at h
    · obtain ⟨v, -, same⟩ := bind_eq_ok_iff.1 h
      cases same
      exact ⟨rfl, bare⟩
    · cases h
      refine ⟨rfl, fun c hc => ?_⟩
      cases hc
      exact bare_trim whole
    · split at h
      · cases h
        exact ⟨rfl, bare⟩
      · obtain ⟨token, -, same⟩ := bind_eq_ok_iff.1 h
        cases same
        exact ⟨rfl, bare⟩
    · cases h
      exact ⟨rfl, bare⟩

theorem readable_of_parse [Host] (h : parse text = .ok i) : i.Readable := by
  have apart : ∀ part ∈ (fields ',' text).map trim, Bare part := by
    refine List.forall_mem_map.2 fun field hf => bare_trim ?_
    exact (fields_eq_iff.1 (rfl : fields ',' text = fields ',' text)).2.2 field hf
  unfold parse at h
  cases split : (fields ',' text).map trim with
  | nil => simp [split] at h
  | cons name parts =>
    rw [split, List.forall_mem_cons] at apart
    simp only [split] at h
    by_cases blank : name.isEmpty = true
    · simp [blank] at h
    · rw [if_neg blank] at h
      obtain ⟨gathered, folded, same⟩ := bind_eq_ok_iff.1 h
      cases same
      obtain ⟨rfl, cultures⟩ : gathered.name = name ∧ ∀ c ∈ gathered.culture?, Bare c := by
        refine foldlM_keeps (p := fun i => i.name = name ∧ ∀ c ∈ i.culture?, Bare c) ?_
          ⟨rfl, by simp⟩ folded
        intro part hp before after kept read
        obtain ⟨same, cultures⟩ := bare_of_parsePart (apart.2 part hp).whole kept.2 read
        exact ⟨same.trans kept.1, cultures⟩
      exact readable_make ⟨apart.1, by simpa using blank⟩ fun c hc =>
        cultures c (mem_bind_keepCulture.1 hc).1

theorem whole_of_readable (h : i.Readable) : i.Whole := by
  refine ⟨h.name.whole, ?_⟩
  unfold cultureText
  cases culture : i.culture? with
  | none => decide
  | some c => exact (h.culture c culture).1.whole

def cultureFolded (i : Identity) : Identity := { i with culture? := i.culture?.map fold }

theorem fold_cultureText_eq_iff (hi : i.Readable) (hj : j.Readable) :
    fold i.cultureText = fold j.cultureText ↔ i.culture?.map fold = j.culture?.map fold := by
  have apart {i : Identity} {c : String} (h : i.Readable) (hc : c ∈ i.culture?) :
      fold c ≠ fold "neutral" := by
    intro same
    have kept := (h.culture c hc).2
    simp [keepCulture, sameFolded_iff, same] at kept
  unfold cultureText
  cases left : i.culture? with
  | none => cases right : j.culture? with
    | none => simp
    | some d => simpa using (apart hj right).symm
  | some c => cases right : j.culture? with
    | none => simpa using apart hi left
    | some d => simp

/-- Identities that can be read from display names share one, up to case, exactly if they are the
same up to the case of their cultures. -/
theorem sameFolded_display [Host] [LawfulHost] (hi : i.Readable) (hj : j.Readable) :
    sameFolded i.display j.display = i.cultureFolded.same j.cultureFolded := by
  rw [Bool.eq_iff_iff, sameFolded_iff,
    fold_display_eq_iff (whole_of_readable hi) (whole_of_readable hj), fold_cultureText_eq_iff hi hj]
  simp [same, cultureFolded, sameFolded_iff, and_assoc]

end Identity

theorem bare_simpleName (display : String) : Bare (simpleName display) := by
  unfold simpleName
  cases halves : cut ',' display with
  | none => exact bare_trim (cut_eq_none_iff.1 halves)
  | some halves' => exact bare_trim (cut_eq_some_iff.1 halves).2

theorem simpleName_eq_self_iff {name : String} : simpleName name = name ↔ Bare name := by
  constructor
  · intro same
    exact same ▸ bare_simpleName name
  · intro bare
    rw [simpleName, cut_eq_none_iff.2 bare.whole]
    exact bare.trimmed

theorem Identity.simpleName_display [Host] (i : Identity) : simpleName i.display = simpleName i.name := by
  obtain ⟨front, parts⟩ := i.toList_display
  unfold simpleName
  cases halves : cut ',' i.name with
  | none =>
    have whole : cut ',' i.display = some (i.name, String.ofList (front ++ '=' :: i.tokenText.toList)) :=
      cut_eq_some_iff.2 ⟨by simp [parts], cut_eq_none_iff.1 halves⟩
    simp [whole]
  | some halves' =>
    obtain ⟨before, after⟩ := halves'
    obtain ⟨same, first⟩ := cut_eq_some_iff.1 halves
    have whole : cut ',' i.display = some (before,
        String.ofList (after.toList ++ ',' :: front ++ '=' :: i.tokenText.toList)) :=
      cut_eq_some_iff.2 ⟨by simp [parts, same], first⟩
    simp [whole]

end FrameworkAudit
