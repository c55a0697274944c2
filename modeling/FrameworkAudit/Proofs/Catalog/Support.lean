import FrameworkAudit.Proofs.Catalog.Resolve

/-!
Which targets have a member. A platform gets a member in the first version that a catalog records for
it, and all later targets of the platform have it. A widened platform keeps its members as well, since
what it has from the fallback platform does not depend on the target.
-/

set_option autoImplicit false

namespace FrameworkAudit

variable {id : DocId} {platform other primary fallback : String} {t u : Target} {v w : Version}

namespace Version

instance : Min Version := ⟨fun a b => if b < a then b else a⟩

instance : Std.LawfulOrderLeftLeaningMin Version where
  min_eq_left _ _ h := if_neg (Std.not_lt.2 h)
  min_eq_right _ _ h := if_pos (Std.not_le.1 h)

end Version

namespace Catalog

variable {c : Catalog}

theorem supports_iff : c.supports id t = true ↔ ∃ v, c.introduced? id t = some v :=
  Option.isSome_iff_exists

def HasLatest (c : Catalog) (platform : String) (id : DocId) : Prop :=
  ∃ v, c.latest? platform = some v ∧ c.supports id ⟨platform, v⟩ = true

/-- A widened catalog says what it said before, or else the version of the target. -/
theorem introduced?_widen_eq_some_iff : (c.widen primary fallback).introduced? id t = some v ↔
    c.introduced? id t = some v ∨ c.introduced? id t = none ∧ t.isPlatform primary = true ∧
      c.HasLatest fallback id ∧ v = t.version := by
  unfold widen HasLatest
  dsimp only
  cases own : c.introduced? id t with
  | some w => simp
  | none =>
    cases t.isPlatform primary with
    | false => simp
    | true => simp [supports_iff, Option.bind_eq_some_iff, ← and_assoc, eq_comm (a := v)]

theorem supports_widen_iff : (c.widen primary fallback).supports id t = true ↔
    c.supports id t = true ∨ t.isPlatform primary = true ∧ c.HasLatest fallback id := by
  simp only [supports_iff, introduced?_widen_eq_some_iff]
  cases c.introduced? id t <;> simp

end Catalog

namespace CatalogTables

variable {c : CatalogTables}

theorem least_eq_some_iff {versions : List Version} :
    least versions = some v ↔ v ∈ versions ∧ ∀ w ∈ versions, v ≤ w := by
  rw [← List.min?_eq_some_iff]
  cases versions <;> rfl

/-- It is recorded that the platform, however it is spelled, has the member from the version on. -/
def Records (c : CatalogTables) (id : DocId) (platform : String) (v : Version) : Prop :=
  ∃ entries, Sorted.find? compare id c.members = some entries ∧
    ∃ entry ∈ entries, Text.sameFolded platform entry.1 = true ∧ entry.2 = v

structure Since (c : CatalogTables) (id : DocId) (platform : String) (v : Version) : Prop where
  recorded : c.Records id platform v
  first : ∀ w, c.Records id platform w → v ≤ w

theorem Since.of_sameFolded (h : c.Since id platform v)
    (same : Text.sameFolded platform other = true) : c.Since id other v := by
  have spelled (w : Version) : c.Records id platform w ↔ c.Records id other w := by
    simp only [Records, Text.sameFolded_iff, Text.sameFolded_iff.1 same]
  exact ⟨(spelled v).1 h.recorded, fun w recorded => h.first w ((spelled w).2 recorded)⟩

theorem mem_versions {entries : List (String × Version)}
    (found : Sorted.find? compare id c.members = some entries) :
    v ∈ (entries.filter fun entry =>
      t.isPlatform entry.1 && decide (entry.2 ≤ t.version)).map Prod.snd ↔
        c.Records id t.platform v ∧ v ≤ t.version := by
  simp only [Records, found, Option.some.injEq, exists_eq_left', List.mem_map, List.mem_filter,
    Bool.and_eq_true, decide_eq_true_eq, Target.isPlatform]
  constructor
  · rintro ⟨entry, ⟨listed, same, early⟩, rfl⟩
    exact ⟨⟨entry, listed, same, rfl⟩, early⟩
  · rintro ⟨⟨entry, listed, same, rfl⟩, early⟩
    exact ⟨entry, ⟨listed, same, early⟩, rfl⟩

theorem introduced?_eq_some_iff :
    c.introduced? id t = some v ↔ c.Since id t.platform v ∧ v ≤ t.version := by
  have attained : c.introduced? id t = some v ↔ (c.Records id t.platform v ∧ v ≤ t.version) ∧
      ∀ w, c.Records id t.platform w ∧ w ≤ t.version → v ≤ w := by
    unfold introduced?
    cases found : Sorted.find? compare id c.members with
    | none => simp [Records, found]
    | some entries =>
      simp only [Option.bind_eq_bind, Option.bind_some, least_eq_some_iff, mem_versions found]
  rw [attained]
  constructor
  · intro ⟨⟨recorded, early⟩, first⟩
    refine ⟨⟨recorded, fun w hw => ?_⟩, early⟩
    -- A version after the target's own is not looked at, but then it is after the first one, too.
    rcases Std.le_total (a := w) (b := t.version) with before | after
    · exact first w ⟨hw, before⟩
    · exact Std.le_trans early after
  · intro ⟨since, early⟩
    exact ⟨⟨since.recorded, early⟩, fun w hw => since.first w hw.1⟩

theorem introduced?_of_later (same : t.isPlatform u.platform = true) (later : t.version ≤ u.version)
    (h : c.introduced? id t = some v) : c.introduced? id u = some v := by
  obtain ⟨since, early⟩ := introduced?_eq_some_iff.1 h
  exact introduced?_eq_some_iff.2 ⟨since.of_sameFolded same, Std.le_trans early later⟩

theorem supports_widen_of_later (same : t.isPlatform u.platform = true)
    (later : t.version ≤ u.version)
    (h : (c.catalog.widen primary fallback).supports id t = true) :
    (c.catalog.widen primary fallback).supports id u = true := by
  rw [Catalog.supports_widen_iff] at h ⊢
  rcases h with own | ⟨widened, latest⟩
  · obtain ⟨v, introduced⟩ := Catalog.supports_iff.1 own
    exact .inl (Catalog.supports_iff.2 ⟨v, introduced?_of_later same later introduced⟩)
  · refine .inr ⟨?_, latest⟩
    rw [Target.isPlatform_iff] at widened same ⊢
    exact same.symm.trans widened

theorem le_of_introduced?_widen (h : (c.catalog.widen primary fallback).introduced? id t = some v) :
    v ≤ t.version := by
  rcases Catalog.introduced?_widen_eq_some_iff.1 h with own | ⟨-, -, -, rfl⟩
  · exact (introduced?_eq_some_iff.1 own).2
  · exact Std.le_refl _

/-- A target has a member from the first version on that is recorded for its platform, so a later
target of the platform has the member since the same version. Where a platform is widened, its targets
have in addition what the latest version of the fallback platform has; none of this is newer than the
target, and a later target still has it. -/
theorem support_lasts (c : CatalogTables) (id : DocId) (t u : Target)
    (same : t.isPlatform u.platform = true) (later : t.version ≤ u.version) :
    (∀ v, c.introduced? id t = some v ↔ c.Since id t.platform v ∧ v ≤ t.version) ∧
    (∀ v, c.introduced? id t = some v → v ≤ t.version ∧ c.introduced? id u = some v) ∧
    ∀ primary fallback,
      ((c.catalog.widen primary fallback).supports id t = true ↔
        c.catalog.supports id t = true ∨
          t.isPlatform primary = true ∧ c.catalog.HasLatest fallback id) ∧
      (∀ v, (c.catalog.widen primary fallback).introduced? id t = some v → v ≤ t.version) ∧
      ((c.catalog.widen primary fallback).supports id t = true →
        (c.catalog.widen primary fallback).supports id u = true) := by
  refine ⟨fun v => introduced?_eq_some_iff, fun v introduced => ⟨?_, ?_⟩, ?_⟩
  · exact (introduced?_eq_some_iff.1 introduced).2
  · exact introduced?_of_later same later introduced
  · intro primary fallback
    exact ⟨Catalog.supports_widen_iff, fun _ => le_of_introduced?_widen,
      supports_widen_of_later same later⟩

def web20 : Target := ⟨"ASP.NET Core", ⟨2, 0, 0, 0⟩⟩

def web30 : Target := ⟨"asp.net core", ⟨3, 0, 0, 0⟩⟩

def core31 : Target := ⟨".NET Core", ⟨3, 1, 0, 0⟩⟩

def webCatalog : CatalogTables :=
  (((empty.addTarget web20).addTarget core31).addMember "M:Host.Run" web20.platform
    web20.version).addMember "M:File.Exists" core31.platform core31.version

def widened : Catalog := webCatalog.catalog.widen Catalog.aspNetCore Catalog.netCore

/-- The platform has both members if it is widened, though it got only one of them itself. -/
theorem support_lasts_widened :
    web20.isPlatform web30.platform = true ∧ web20.version ≤ web30.version ∧
    webCatalog.introduced? "M:Host.Run" web30 = some web20.version ∧
    webCatalog.catalog.supports "M:File.Exists" web20 = false ∧
    widened.supports "M:File.Exists" web20 = true ∧
    widened.supports "M:File.Exists" web30 = true := by
  have same : web20.isPlatform web30.platform = true := by
    simp only [Target.isPlatform, Text.sameFolded_eq_toList]
    decide +kernel
  have later : web20.version ≤ web30.version := by decide +kernel
  have own : webCatalog.introduced? "M:Host.Run" web20 = some web20.version := by
    simp only [introduced?, Target.isPlatform, Text.sameFolded_eq_toList]
    decide +kernel
  have lacks : webCatalog.catalog.supports "M:File.Exists" web20 = false := by
    simp only [Catalog.supports, catalog, introduced?, Target.isPlatform, Text.sameFolded_eq_toList]
    decide +kernel
  have primary : web20.isPlatform Catalog.aspNetCore = true := by
    simp only [Target.isPlatform, Text.sameFolded_eq_toList]
    decide +kernel
  have latest : webCatalog.catalog.latest? Catalog.netCore = some core31.version := by
    simp only [catalog, latest?, Target.isPlatform, Text.sameFolded_eq_toList]
    decide +kernel
  have fallback : webCatalog.catalog.supports "M:File.Exists" core31 = true := by
    simp only [Catalog.supports, catalog, introduced?, Target.isPlatform, Text.sameFolded_eq_toList]
    decide +kernel
  have since := (support_lasts webCatalog "M:Host.Run" web20 web30 same later).2.1
  obtain ⟨gains, -, lasts⟩ := (support_lasts webCatalog "M:File.Exists" web20 web30 same later).2.2
    Catalog.aspNetCore Catalog.netCore
  have supported := gains.2 (.inr ⟨primary, core31.version, latest, fallback⟩)
  exact ⟨same, later, (since _ own).2, lacks, supported, lasts supported⟩

end CatalogTables

end FrameworkAudit
