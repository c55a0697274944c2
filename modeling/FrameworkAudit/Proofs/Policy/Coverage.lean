import FrameworkAudit.Policy
import FrameworkAudit.Proofs.Catalog.Resolve
import FrameworkAudit.Proofs.Host
import FrameworkAudit.Proofs.Identity.Display

set_option autoImplicit false

namespace FrameworkAudit.IgnoreEntry

variable {e : IgnoreEntry} {a : AssemblyInfo} {i j : Identity} {identity name : String} {c : Catalog}
  {t u : Target}

def Applies (e : IgnoreEntry) (t : Target) : Prop := e.targets = [] ∨ t ∈ e.targets

theorem covers_iff : e.covers a t = true ↔ e.names a = true ∧ e.Applies t := by
  simp [covers, Applies]

theorem covers_iff_sameFolded (display : e.isDisplayName = true) (applies : e.Applies t) :
    e.covers a t = true ↔ Text.sameFolded e.identity a.identity = true := by
  rw [covers_iff, and_iff_left applies, names, if_pos display]

/-- An entry that is a display name covers the assemblies whose display names are spelled the same but
for case. Where both are spelled as identities are displayed, it covers the assemblies of its
identity, cultures up to case. -/
theorem covers_displayed [Host] [LawfulHost] (e : IgnoreEntry) (a : AssemblyInfo) (t : Target) (i j : Identity)
    (display : e.isDisplayName = true) (entry : Identity.parse e.identity = .ok i)
    (assembly : Identity.parse a.identity = .ok j) (applies : e.Applies t) :
    (e.covers a t = true ↔ Text.sameFolded e.identity a.identity = true) ∧
      (Text.sameFolded e.identity i.display = true → Text.sameFolded a.identity j.display = true →
        (e.covers a t = true ↔ i.cultureFolded.same j.cultureFolded = true)) := by
  refine ⟨covers_iff_sameFolded display applies, fun spelled spelled' => ?_⟩
  have identities := Identity.sameFolded_display (Identity.readable_of_parse entry)
    (Identity.readable_of_parse assembly)
  rw [Text.sameFolded_iff] at spelled spelled'
  rw [covers_iff_sameFolded display applies, ← identities, Text.sameFolded_iff, Text.sameFolded_iff,
    spelled, spelled']

def someTarget : Target := ⟨"P", ⟨1, 0, 0, 0⟩⟩

def french : Identity := ⟨"App", ⟨1, 0, 0, 0⟩, some "fr", none⟩

def capitals : Identity := ⟨"APP", ⟨1, 0, 0, 0⟩, some "FR", none⟩

def frenchApp : AssemblyInfo := .ofIdentity french "" "" []

/-- The culture may be in capitals, though it is then another one. -/
theorem covers_displayed_in_capitals :
    (IgnoreEntry.mk capitals.display []).isDisplayName = true ∧
      Identity.parse capitals.display = .ok capitals ∧
      Identity.parse frenchApp.identity = .ok french ∧ capitals.same french = false ∧
      (IgnoreEntry.mk capitals.display []).covers frenchApp someTarget = true := by
  have display : (IgnoreEntry.mk capitals.display []).isDisplayName = true := by decide +kernel
  have left : Identity.parse capitals.display = .ok capitals := by
    rw [← toOption_eq_some_iff]
    decide +kernel
  have right : Identity.parse frenchApp.identity = .ok french := by
    rw [← toOption_eq_some_iff]
    decide +kernel
  have other : capitals.same french = false := by simp [Identity.same, capitals, french]
  have same : capitals.cultureFolded.same french.cultureFolded = true := by
    have name : Text.fold "APP" = Text.fold "App" := by simp [← String.toList_inj]
    have culture : Text.fold "FR" = Text.fold "fr" := by simp [← String.toList_inj]
    simp [Identity.same, Identity.cultureFolded, capitals, french, Text.sameFolded_iff, name, culture]
  have spelled (i : Identity) : Text.sameFolded i.display i.display = true := Text.sameFolded_iff.2 rfl
  have covered := (covers_displayed ⟨capitals.display, []⟩ frenchApp someTarget capitals french
    display left right (.inl rfl)).2 (spelled capitals) (spelled french)
  exact ⟨display, left, right, other, covered.2 same⟩

/-- What an identity is by default may be left out where it is read, but not where it is ignored. -/
theorem not_covers_iff_same : ¬ ∀ (e : IgnoreEntry) (a : AssemblyInfo) (t : Target) (i j : Identity),
    e.isDisplayName = true → Identity.parse e.identity = .ok i → Identity.parse a.identity = .ok j →
      e.Applies t → (e.covers a t = true ↔ i.same j = true) := by
  intro covers
  let app : Identity := ⟨"App", ⟨1, 0, 0, 0⟩, none, none⟩
  let entry : IgnoreEntry := ⟨"App, Version=1.0.0.0", []⟩
  have short : Identity.parse entry.identity = .ok app := by
    rw [← toOption_eq_some_iff]
    decide +kernel
  have full : Identity.parse app.display = .ok app := by
    rw [← toOption_eq_some_iff]
    decide +kernel
  have covered := (covers entry (.ofIdentity app "" "" []) someTarget app app (by decide +kernel) short
    full (.inl rfl)).2 (by decide +kernel)
  rw [covers_iff_sameFolded (by decide +kernel) (.inl rfl), Text.sameFolded_eq_toList] at covered
  revert covered
  decide +kernel

/-- What a name is read as and what a catalog takes it for differ in the case of the platform at most.
An entry on the target that was read covers an assembly on the one of the catalog only if there is
no difference; the text of the target is always read as the target. -/
theorem covers_resolved (c : Catalog) (name identity : String) (u t : Target) (a : AssemblyInfo)
    (read : Target.parse name = .ok u) (resolved : c.resolve name = .ok t)
    (covered : (IgnoreEntry.mk identity []).covers a t = true) :
    t.version = u.version ∧ t.isPlatform u.platform = true ∧
      ((IgnoreEntry.mk identity [u]).covers a t = true ↔ t.platform = u.platform) ∧
      Target.parse t.text = .ok t ∧ (IgnoreEntry.mk identity [t]).covers a t = true := by
  obtain ⟨platform, version?, said, sought, same, -⟩ := Catalog.exists_said_of_resolve resolved
  cases (Target.split_eq_ok_iff.2 said).symm.trans
    (Target.split_eq_ok_iff.2 (Target.parse_eq_ok_iff.1 read))
  have version : t.version = u.version := (Option.some.inj sought).symm
  have named : (IgnoreEntry.mk identity []).names a = true := (covers_iff.1 covered).1
  have on (w : Target) : (IgnoreEntry.mk identity [w]).covers a t = true ↔ t = w := by
    have named' : (IgnoreEntry.mk identity [w]).names a = true := named
    simp [covers_iff, named', Applies]
  refine ⟨version, same, ?_, Target.parse_text (Catalog.plain_of_resolve resolved), (on t).2 rfl⟩
  rw [on]
  cases t; cases u
  simp_all

open CatalogTables

def small45 : Target := ⟨".net framework", ⟨4, 5, 0, 0⟩⟩

theorem text_small45 : small45.text = ".net framework, Version=v4.5" := by decide +kernel

theorem parse_small45 : Target.parse ".net framework, Version=v4.5" = .ok small45 := by
  rw [← text_small45]
  exact Target.parse_text ⟨⟨by decide, by decide +kernel⟩, by decide⟩

theorem resolve_small45 :
    frameworks.catalog.resolve ".net framework, Version=v4.5" = .ok framework45 := by
  refine Catalog.resolve_eq_ok_iff.2 ⟨_, _, Target.parse_eq_ok_iff.1 parse_small45, _, rfl, ?_⟩
  simp only [Target.isPlatform, Text.sameFolded_eq_toList]
  decide +kernel

theorem covers_app : (IgnoreEntry.mk "App" []).covers frenchApp framework45 = true := by
  decide +kernel

theorem covers_resolved_small45 :
    Target.parse ".net framework, Version=v4.5" = .ok small45 ∧
    frameworks.catalog.resolve ".net framework, Version=v4.5" = .ok framework45 ∧
    (IgnoreEntry.mk "App" []).covers frenchApp framework45 = true ∧
    (IgnoreEntry.mk "App" [small45]).covers frenchApp framework45 = false ∧
    (IgnoreEntry.mk "App" [framework45]).covers frenchApp framework45 = true := by
  obtain ⟨-, -, only, -, covered⟩ := covers_resolved frameworks.catalog
    ".net framework, Version=v4.5" "App" small45 framework45 frenchApp parse_small45 resolve_small45
    covers_app
  refine ⟨parse_small45, resolve_small45, covers_app, ?_, covered⟩
  rw [Bool.eq_false_iff, ne_eq, only]
  decide

theorem not_covers_resolved : ¬ ∀ (c : CatalogTables) (name identity : String) (u t : Target)
    (a : AssemblyInfo), Target.parse name = .ok u → c.catalog.resolve name = .ok t →
      (IgnoreEntry.mk identity []).covers a t = true →
      (IgnoreEntry.mk identity [u]).covers a t = true := by
  intro covers
  have covered := covers frameworks _ "App" small45 framework45 frenchApp
    parse_small45 resolve_small45 covers_app
  rw [covers_iff] at covered
  have same : small45 ≠ framework45 := by decide
  simp_all [Applies]

end FrameworkAudit.IgnoreEntry
