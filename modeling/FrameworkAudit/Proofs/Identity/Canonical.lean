import FrameworkAudit.Proofs.Host
import FrameworkAudit.Proofs.Identity.Display

/-!
Reading display names back. The parts of a display name are read one by one, each into what it was
written from, so an identity is read back from its display name exactly if its name and its culture
can stand in one. What is read from any text is such an identity.
-/

set_option autoImplicit false

namespace FrameworkAudit

open Text

namespace Identity

variable {i j : Identity} {s : String} {v : Version}

theorem trim_cultureText (h : i.Readable) : trim i.cultureText = i.cultureText := by
  unfold cultureText
  cases culture : i.culture? with
  | none => decide +kernel
  | some c => exact (h.culture c culture).1.trimmed

theorem keepCulture_cultureText (h : i.Readable) : keepCulture i.cultureText = i.culture? := by
  unfold cultureText
  cases culture : i.culture? with
  | none => simp [keepCulture, sameFolded_iff]
  | some c => exact (h.culture c culture).2

section

variable [Host] [LawfulHost]

theorem trim_tokenText (i : Identity) : trim i.tokenText = i.tokenText :=
  trim_of_unblank fun _ => isBlank_of_mem_tokenText

theorem map_trim_displayFields (h : i.Readable) : i.displayFields.map trim =
    [i.name, "Version=" ++ i.version.text, "Culture=" ++ i.cultureText,
      "PublicKeyToken=" ++ i.tokenText] := by
  have version : trim (" Version=" ++ i.version.text) = "Version=" ++ i.version.text :=
    trim_part (by decide +kernel) (by decide) i.version.trim_text
  have culture : trim (" Culture=" ++ i.cultureText) = "Culture=" ++ i.cultureText :=
    trim_part (by decide +kernel) (by decide) (trim_cultureText h)
  have token : trim (" PublicKeyToken=" ++ i.tokenText) = "PublicKeyToken=" ++ i.tokenText :=
    trim_part (by decide +kernel) (by decide) i.trim_tokenText
  simp only [displayFields, List.map_cons, List.map_nil, h.name.trimmed, version, culture, token]

omit [LawfulHost] in
theorem parsePart_version : i.parsePart ("Version=" ++ v.text) = .ok { i with version := v } := by
  have pair : cut '=' ("Version=" ++ v.text) = some ("Version", v.text) :=
    cut_eq_some_iff.2 ⟨by simp, by decide⟩
  have key : trim "Version" = "Version" := by decide +kernel
  simp [parsePart, pair, key, v.trim_text, v.parse_text]

omit [LawfulHost] in
theorem parsePart_culture (trimmed : trim s = s) :
    i.parsePart ("Culture=" ++ s) = .ok { i with culture? := some s } := by
  have pair : cut '=' ("Culture=" ++ s) = some ("Culture", s) :=
    cut_eq_some_iff.2 ⟨by simp, by decide⟩
  have key : trim "Culture" = "Culture" := by decide +kernel
  simp [parsePart, pair, key, trimmed]

theorem parsePart_token (untold : i.token? = none) :
    i.parsePart ("PublicKeyToken=" ++ j.tokenText) = .ok { i with token? := j.token? } := by
  have pair : cut '=' ("PublicKeyToken=" ++ j.tokenText) = some ("PublicKeyToken", j.tokenText) :=
    cut_eq_some_iff.2 ⟨by simp, by decide⟩
  have key : trim "PublicKeyToken" = "PublicKeyToken" := by decide +kernel
  simp only [parsePart, pair, key, trim_tokenText]
  unfold tokenText
  cases token : j.token? with
  | none =>
    have null : sameFolded "null" "null" = true := sameFolded_iff.2 rfl
    have same : { i with token? := none } = i := by rw [← untold]
    simp [null, same]
  | some t =>
    rw [Option.map_some, Option.getD_some, if_neg t.not_untold_hex, t.parse_hex]
    rfl

theorem parse_display (h : i.Readable) : parse i.display = .ok i := by
  have filled : ¬ i.name.isEmpty = true := by simpa using h.name.filled
  have gathered : ["Version=" ++ i.version.text, "Culture=" ++ i.cultureText,
      "PublicKeyToken=" ++ i.tokenText].foldlM parsePart ⟨i.name, .zero, none, none⟩ =
        .ok ⟨i.name, i.version, some i.cultureText, i.token?⟩ := by
    simp only [List.foldlM_cons, List.foldlM_nil, bind_eq_ok_iff, pure_eq_ok_iff]
    exact ⟨_, parsePart_version, _, parsePart_culture (trim_cultureText h), _, parsePart_token rfl,
      rfl⟩
  unfold parse
  rw [fields_display (whole_of_readable h), map_trim_displayFields h]
  simp only [if_neg filled]
  rw [gathered]
  simp [make, keepCulture_cultureText h]

/-- The display name gives back the identity, itself and the simple name. -/
structure Canonical (i : Identity) : Prop where
  parsed : parse i.display = .ok i
  fixed : (parse i.display).map display = .ok i.display
  named : simpleName i.display = i.name

theorem canonical_of_readable (h : i.Readable) : i.Canonical where
  parsed := parse_display h
  fixed := by
    rw [parse_display h]
    rfl
  named := i.simpleName_display.trans (simpleName_eq_self_iff.2 h.name.toBare)

/-- Whatever text an identity is read from, its display name is canonical. So is that of every identity
made of a name and a culture that have no comma and no blanks at their ends, if the name is not
empty. -/
theorem display_canonical :
    (∀ (text : String) (i : Identity), parse text = .ok i → i.Canonical) ∧
    ∀ (name : String) (version : Version) (culture? : Option String) (token? : Option KeyToken),
      Plain name → (∀ c ∈ (make name version culture? token?).culture?, Bare c) →
        (make name version culture? token?).Canonical :=
  ⟨fun _ _ read => canonical_of_readable (readable_of_parse read),
    fun _ _ _ _ plain bare => canonical_of_readable (readable_make plain bare)⟩

end

def resourcesText : String :=
  " App ,Culture=fr, Retargetable=Yes, Version=v1.2,,PublicKeyToken=B77A5C561934E089, Culture = x=y "

def resources : Identity :=
  ⟨"App", ⟨1, 2, 0, 0⟩, some "x=y", some ⟨#v[0xb7, 0x7a, 0x5c, 0x56, 0x19, 0x34, 0xe0, 0x89]⟩⟩

def neutralApp : Identity := make "App" ⟨1, 2, 0, 0⟩ (some "Neutral") none

/-- Blanks, capitals, unknown keys and keys given twice are gone from the display name. -/
theorem display_canonical_resources :
    parse resourcesText = .ok resources ∧ resources.Canonical ∧
    resources.display = "App, Version=1.2.0.0, Culture=x=y, PublicKeyToken=b77a5c561934e089" ∧
    Plain "App" ∧ (∀ c ∈ neutralApp.culture?, Bare c) ∧ neutralApp.Canonical := by
  have read : parse resourcesText = .ok resources := by
    rw [← toOption_eq_some_iff]
    decide +kernel
  have text : resources.display =
      "App, Version=1.2.0.0, Culture=x=y, PublicKeyToken=b77a5c561934e089" := by decide +kernel
  have plain : Plain "App" := ⟨⟨by decide, by decide +kernel⟩, by decide⟩
  have folded : sameFolded "Neutral" "neutral" = true := by
    rw [sameFolded_iff, ← String.toList_inj, toList_fold, toList_fold]
    decide
  have neutral : keepCulture "Neutral" = none := if_pos (.inr folded)
  have bare : ∀ c ∈ neutralApp.culture?, Bare c := by
    rw [neutralApp, make, Option.bind_some, neutral]
    simp
  exact ⟨read, display_canonical.1 _ _ read, text, plain, bare,
    display_canonical.2 _ _ _ _ plain bare⟩

end Identity

end FrameworkAudit
