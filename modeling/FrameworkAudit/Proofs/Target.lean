import FrameworkAudit.Proofs.Identity.Version
import FrameworkAudit.Proofs.Text.Case
import FrameworkAudit.Target

set_option autoImplicit false

namespace FrameworkAudit.Target

open Text

variable {name text key rest platform : String} {v : Version} {version? : Option Version} {e : Error}
  {t u : Target}

def Versioned (text : String) (v : Version) : Prop :=
  ∃ key rest, trim text = key ++ rest ∧ (key = "" ∨ fold key = "version=") ∧ v.SpelledBy rest

/-- What a name says: a platform alone or, in front of the first comma, a platform and behind it a
version. -/
inductive Says (name : String) : String → Option Version → Prop where
  | platform (whole : ',' ∉ name.toList) (filled : trim name ≠ "") : Says name (trim name) none
  | version {before after : String} {v : Version} (parts : name = before ++ "," ++ after)
      (first : ',' ∉ before.toList) (filled : trim before ≠ "") (versioned : Versioned after v) :
      Says name (trim before) (some v)

theorem Says.plain (h : Says name platform version?) : Plain platform := by
  cases h with
  | platform whole filled => exact ⟨bare_trim whole, filled⟩
  | version _ first filled _ => exact ⟨bare_trim first, filled⟩

theorem fold_versionKey : fold versionKey = "version=" := by
  rw [← String.toList_inj, toList_fold]
  decide

theorem startsFolded_iff : startsFolded versionKey text = true ↔
    ∃ key rest, text = key ++ rest ∧ fold key = "version=" := by
  rw [startsFolded, fold_versionKey, List.isPrefixOf_iff_prefix, toList_fold]
  constructor
  · rintro ⟨lower, same⟩
    obtain ⟨front, back, parts, folded, -⟩ := List.map_eq_append_iff.1 same.symm
    refine ⟨String.ofList front, String.ofList back, ?_, ?_⟩
    · rw [← String.ofList_append, ← parts, String.ofList_toList]
    · rw [← String.toList_inj, toList_fold, String.toList_ofList, folded]
  · rintro ⟨key, rest, rfl, folded⟩
    refine ⟨rest.toList.map Char.toLower, ?_⟩
    rw [← folded, toList_fold, String.toList_append, List.map_append]

theorem dropVersionKey_append (h : fold key = "version=") : dropVersionKey (key ++ rest) = rest := by
  have length : key.toList.length = versionKey.toList.length := by
    rw [← List.length_map Char.toLower, ← toList_fold, h, ← fold_versionKey, toList_fold,
      List.length_map]
  rw [dropVersionKey, if_pos (startsFolded_iff.2 ⟨key, rest, rfl, h⟩), ← String.length_toList, ← length,
    String.toList_append, List.drop_left, String.ofList_toList]

theorem not_startsFolded_of_spelledBy (h : v.SpelledBy text) :
    startsFolded versionKey text = false := by
  rw [Bool.eq_false_iff]
  intro starts
  obtain ⟨key, rest, rfl, folded⟩ := startsFolded_iff.1 starts
  have letter : 'r' ∈ key.toList.map Char.toLower := by
    rw [← toList_fold, folded]
    decide
  obtain ⟨c, hc, lower⟩ := List.mem_map.1 letter
  have inside : c ∈ (key ++ rest).toList := by
    rw [String.toList_append]
    exact List.mem_append_left _ hc
  rcases h.mem inside with blank | digit | sign
  · rw [← isBlank_toLower, lower] at blank
    exact absurd blank (by decide)
  · rw [toLower_of_isDigit digit] at lower
    subst lower
    exact absurd digit (by decide)
  · have others : (['+', '.', 'v', 'V'].all fun c => c.toLower != 'r') = true := by decide
    simpa [lower] using List.all_eq_true.1 others c sign

theorem parse_dropVersionKey_iff :
    Version.parse (dropVersionKey (trim text)) = .ok v ↔ Versioned text v := by
  rw [Version.parse_eq_ok_iff]
  constructor
  · intro spelled
    cases starts : startsFolded versionKey (trim text) with
    | true =>
      obtain ⟨key, rest, same, folded⟩ := startsFolded_iff.1 starts
      rw [same, dropVersionKey_append folded] at spelled
      exact ⟨key, rest, same, .inr folded, spelled⟩
    | false =>
      rw [dropVersionKey, starts, if_neg Bool.false_ne_true] at spelled
      exact ⟨"", trim text, by simp, .inl rfl, spelled⟩
  · rintro ⟨key, rest, same, rfl | folded, spelled⟩
    · rw [same, String.empty_append, dropVersionKey, not_startsFolded_of_spelledBy spelled,
        if_neg Bool.false_ne_true]
      exact spelled
    · rwa [same, dropVersionKey_append folded]

theorem cut_comma {before after : String} (h : ',' ∉ before.toList) :
    cut ',' (before ++ "," ++ after) = some (before, after) :=
  cut_eq_some_iff.2 ⟨by simp, h⟩

/-- A name is split into what it says. -/
theorem split_eq_ok_iff : split name = .ok (platform, version?) ↔ Says name platform version? := by
  constructor
  · intro h
    unfold split at h
    cases parts : cut ',' name with
    | none =>
      simp only [parts] at h
      split at h
      · cases h
      · rename_i filled
        cases h
        exact .platform (cut_eq_none_iff.1 parts) (by simpa using filled)
    | some halves =>
      obtain ⟨before, after⟩ := halves
      simp only [parts] at h
      split at h
      · cases h
      · rename_i filled
        split at h
        · rename_i v spelled
          cases h
          obtain ⟨same, first⟩ := cut_eq_some_iff.1 parts
          exact .version (by simp [← String.toList_inj, same]) first (by simpa using filled)
            (parse_dropVersionKey_iff.1 spelled)
        · cases h
  · rintro (⟨whole, filled⟩ | ⟨rfl, first, filled, versioned⟩)
    · simp [split, cut_eq_none_iff.2 whole, filled]
    · simp [split, cut_comma first, filled, parse_dropVersionKey_iff.2 versioned]

theorem eq_of_split_eq_error (h : split name = .error e) : e = .unknownTarget name := by
  unfold split at h
  split at h
  rename_i platform version? parts
  clear parts
  by_cases blank : platform.isEmpty = true
  · simpa [blank, eq_comm] using h
  · rw [if_neg blank] at h
    split at h
    · cases h
    · split at h <;> cases h
      rfl

theorem parse_eq_ok_iff : parse name = .ok t ↔ Says name t.platform (some t.version) := by
  rw [← split_eq_ok_iff, parse, bind_eq_ok_iff]
  constructor
  · rintro ⟨⟨platform, version?⟩, split, rest⟩
    cases version? with
    | none => cases rest
    | some v =>
      cases rest
      exact split
  · intro split
    exact ⟨_, split, rfl⟩

theorem versioned_shortText (v : Version) : Versioned (" Version=v" ++ v.shortText) v := by
  refine ⟨versionKey, "v" ++ v.shortText, ?_, .inr fold_versionKey,
    Version.spelledBy_shortText (by decide)⟩
  rw [trim_part (by decide +kernel : _ = _ ++ "Version=v") (by decide) v.trim_shortText]
  simp [← String.toList_inj, versionKey]

theorem says_text (h : Plain t.platform) : Says t.text t.platform (some t.version) := by
  have parts : t.text = t.platform ++ "," ++ (" Version=v" ++ t.version.shortText) := by
    simp [text, ← String.toList_inj, toString]
  have said := Says.version parts h.whole (h.trimmed.symm ▸ h.filled) (versioned_shortText t.version)
  rwa [h.trimmed] at said

theorem parse_text (h : Plain t.platform) : parse t.text = .ok t := parse_eq_ok_iff.2 (says_text h)

/-- A target is read back from its text exactly if its platform can stand in a name. -/
theorem parse_text_iff : parse t.text = .ok t ↔ Plain t.platform :=
  ⟨fun read => (parse_eq_ok_iff.1 read).plain, parse_text⟩

theorem comma_not_mem_shortText : ',' ∉ v.shortText.toList :=
  fun h => absurd (Version.mem_shortText h) (by decide)

theorem cutLast_text (t : Target) :
    cutLast ',' t.text = some (t.platform, " Version=v" ++ t.version.shortText) :=
  cutLast_eq_some_iff.2 ⟨by simp [text, toString], by simp [comma_not_mem_shortText]⟩

theorem text_inj (h : t.text = u.text) : t = u := by
  have halves := (cutLast_text t).symm.trans (h ▸ cutLast_text u)
  simp only [Option.some.injEq, Prod.mk.injEq, String.append_right_inj] at halves
  obtain ⟨platform, short⟩ := halves
  have version := Version.shortText_inj short
  cases t; cases u
  simp_all

/-- Versions are read back from their texts, and targets from theirs if the platform can stand in a
name, as it can if the target was read from any name. No two targets share a text. -/
theorem text_read_back :
    (∀ (v : Version), ∀ mark ∈ Version.marks, Version.parse (mark ++ v.text) = .ok v ∧
      Version.parse (mark ++ v.shortText) = .ok v) ∧
    (∀ (name : String) (t : Target), parse name = .ok t → parse t.text = .ok t) ∧
    (∀ t : Target, parse t.text = .ok t ↔ Plain t.platform) ∧
    ∀ t u : Target, t.text = u.text → t = u := by
  refine ⟨fun v mark hm => ⟨?_, ?_⟩, fun name t read => ?_, fun t => parse_text_iff,
    fun t u => text_inj⟩
  · exact Version.parse_eq_ok_iff.2 (Version.spelledBy_text hm)
  · exact Version.parse_eq_ok_iff.2 (Version.spelledBy_shortText hm)
  · exact parse_text (parse_eq_ok_iff.1 read).plain

def framework : Target := ⟨".NET Framework", ⟨4, 5, 0, 0⟩⟩

theorem text_read_back_framework :
    parse "  .NET Framework ,version=V4.5.0" = .ok framework ∧
    framework.text = ".NET Framework, Version=v4.5" ∧ parse framework.text = .ok framework ∧
    "V" ∈ Version.marks ∧ Version.parse ("V" ++ framework.version.shortText) = .ok framework.version := by
  have spelled : (Version.mk 4 5 0 0).SpelledBy "V4.5.0" := by
    rw [← Version.parse_eq_ok_iff, ← toOption_eq_some_iff]
    decide +kernel
  have key : fold "version=" = "version=" := by
    rw [← String.toList_inj, toList_fold]
    decide
  have versioned : Versioned "version=V4.5.0" ⟨4, 5, 0, 0⟩ :=
    ⟨"version=", "V4.5.0", by decide +kernel, .inr key, spelled⟩
  have said : Says "  .NET Framework ,version=V4.5.0" (trim "  .NET Framework ") _ :=
    .version (by decide +kernel) (by decide) (by decide +kernel) versioned
  have platform : trim "  .NET Framework " = ".NET Framework" := by decide +kernel
  rw [platform] at said
  have read : parse "  .NET Framework ,version=V4.5.0" = .ok framework := parse_eq_ok_iff.2 said
  have mark : "V" ∈ Version.marks := by decide
  exact ⟨read, by decide +kernel, text_read_back.2.1 _ _ read, mark,
    (text_read_back.1 _ _ mark).2⟩

end FrameworkAudit.Target
