import FrameworkAudit.Catalog
import FrameworkAudit.Proofs.Target

/-!
Which target of a catalog a name means. The platform of a name counts up to case and its version as
it is; a platform alone means the greatest version that the catalog has of it.
-/

set_option autoImplicit false

namespace FrameworkAudit

variable {name platform : String} {version? : Option Version} {e : Error} {t : Target}

namespace Version

instance : Std.LawfulOrderOrd Version where
  isLE_compare _ _ := Iff.rfl
  isGE_compare _ _ := by
    rw [Std.OrientedCmp.isGE_eq_isLE]
    rfl

instance : Std.IsLinearOrder Version := .of_ord

instance : Std.LawfulOrderLT Version := .of_ord _ fun _ _ => Iff.rfl

instance : Max Version := ⟨fun a b => if a < b then b else a⟩

instance : Std.LawfulOrderLeftLeaningMax Version where
  max_eq_left _ _ h := if_neg (Std.not_lt.2 h)
  max_eq_right _ _ h := if_pos (Std.not_le.1 h)

end Version

theorem Target.isPlatform_iff : t.isPlatform platform = true ↔
    Text.fold t.platform = Text.fold platform := Text.sameFolded_iff

namespace Catalog

variable {c : Catalog}

theorem resolve_eq_ok_iff : c.resolve name = .ok t ↔
    ∃ platform version?, Target.Says name platform version? ∧
      ∃ v, version?.or (c.latest? platform) = some v ∧
        (c.targets.find? fun t => t.isPlatform platform && t.version == v) = some t := by
  simp only [resolve, bind_eq_ok_iff, Prod.exists, Target.split_eq_ok_iff]
  refine exists_congr fun platform => exists_congr fun version? => and_congr_right fun _ => ?_
  cases version?.or (c.latest? platform) with
  | none => simp
  | some v =>
    simp only [Option.some.injEq, exists_eq_left']
    cases c.targets.find? fun t => t.isPlatform platform && t.version == v with
    | none => simp
    | some u => simp [pure_eq_ok_iff]

theorem eq_of_resolve_eq_error (h : c.resolve name = .error e) : e = .unknownTarget name := by
  obtain here | ⟨⟨platform, version?⟩, -, later⟩ := bind_eq_error_iff.1 h
  · exact Target.eq_of_split_eq_error here
  · dsimp only at later
    split at later
    · cases later
      rfl
    · split at later <;> cases later
      rfl

theorem exists_said_of_resolve (h : c.resolve name = .ok t) :
    ∃ platform version?, Target.Says name platform version? ∧
      version?.or (c.latest? platform) = some t.version ∧ t.isPlatform platform = true ∧
        (c.targets.find? fun u => u.isPlatform platform && u.version == t.version) = some t := by
  obtain ⟨platform, version?, said, v, sought, found⟩ := resolve_eq_ok_iff.1 h
  obtain ⟨same, rfl⟩ : t.isPlatform platform = true ∧ t.version = v := by
    simpa using List.find?_some found
  exact ⟨platform, version?, said, sought, same, found⟩

/-- A name means a target as the catalog writes it, whatever case the name is in. -/
theorem mem_targets_of_resolve (h : c.resolve name = .ok t) : t ∈ c.targets := by
  obtain ⟨platform, version?, -, -, -, found⟩ := exists_said_of_resolve h
  exact List.mem_of_find?_eq_some found

theorem plain_of_resolve (h : c.resolve name = .ok t) : Text.Plain t.platform := by
  obtain ⟨platform, version?, said, -, same, -⟩ := exists_said_of_resolve h
  exact said.plain.of_sameFolded same

theorem resolve_text (h : c.resolve name = .ok t) : c.resolve t.text = .ok t := by
  obtain ⟨platform, version?, -, -, same, found⟩ := exists_said_of_resolve h
  have said := Target.says_text (plain_of_resolve h)
  refine resolve_eq_ok_iff.2 ⟨t.platform, some t.version, said, t.version, rfl, ?_⟩
  have folded := Target.isPlatform_iff.1 same
  simpa only [Target.isPlatform, Text.sameFolded, folded] using found

end Catalog

namespace CatalogTables

variable {c : CatalogTables} {v : Version}

theorem greatest_eq_some_iff {versions : List Version} :
    greatest versions = some v ↔ v ∈ versions ∧ ∀ w ∈ versions, w ≤ v := by
  rw [← List.max?_eq_some_iff]
  cases versions <;> rfl

theorem greatest_eq_none_iff {versions : List Version} : greatest versions = none ↔ versions = [] := by
  cases versions <;> simp [greatest]

theorem latest?_eq_some_iff : c.latest? platform = some v ↔
    (∃ t ∈ c.targets, t.isPlatform platform = true ∧ t.version = v) ∧
      ∀ t ∈ c.targets, t.isPlatform platform = true → t.version ≤ v := by
  rw [latest?, greatest_eq_some_iff, List.forall_mem_map]
  simp [and_assoc]

theorem latest?_eq_none_iff : c.latest? platform = none ↔
    ∀ t ∈ c.targets, t.isPlatform platform = false := by
  simp [latest?, greatest_eq_none_iff]

def Offers (c : CatalogTables) (platform : String) (version? : Option Version) : Prop :=
  ∃ t ∈ c.targets, t.isPlatform platform = true ∧ ∀ v ∈ version?, t.version = v

/-- A target of the catalog that is of the platform, and of the version or else of the greatest one
there is. -/
structure Answers (c : CatalogTables) (platform : String) (version? : Option Version) (t : Target) :
    Prop where
  known : t ∈ c.targets
  same : t.isPlatform platform = true
  exact : ∀ v ∈ version?, t.version = v
  newest : version? = none → ∀ u ∈ c.targets, u.isPlatform platform = true → u.version ≤ t.version

theorem answers_iff : c.Answers platform version? t ↔ t ∈ c.targets ∧ t.isPlatform platform = true ∧
    version?.or (c.latest? platform) = some t.version := by
  constructor
  · intro h
    refine ⟨h.known, h.same, ?_⟩
    cases version? with
    | some v => rw [Option.some_or, h.exact v rfl]
    | none => exact latest?_eq_some_iff.2 ⟨⟨t, h.known, h.same, rfl⟩, h.newest rfl⟩
  · intro ⟨known, same, version⟩
    cases version? with
    | some v => exact ⟨known, same, fun w hw => Option.some.inj (version.symm.trans hw), nofun⟩
    | none => exact ⟨known, same, nofun, fun _ => (latest?_eq_some_iff.1 version).2⟩

theorem exists_answers_iff : (∃ t, c.Answers platform version? t) ↔ c.Offers platform version? := by
  constructor
  · intro ⟨t, answers⟩
    exact ⟨t, answers.known, answers.same, answers.exact⟩
  · intro ⟨t, known, same, exact⟩
    cases version? with
    | some v => exact ⟨t, known, same, exact, nofun⟩
    | none =>
      cases latest : c.latest? platform with
      | none => simp [latest?_eq_none_iff.1 latest t known] at same
      | some v =>
        obtain ⟨⟨u, known, same, rfl⟩, newest⟩ := latest?_eq_some_iff.1 latest
        exact ⟨u, known, same, nofun, fun _ => newest⟩

theorem exists_answers_of_resolve (h : c.catalog.resolve name = .ok t) :
    ∃ platform version?, Target.Says name platform version? ∧ c.Answers platform version? t := by
  obtain ⟨platform, version?, said, sought, same, -⟩ := Catalog.exists_said_of_resolve h
  exact ⟨platform, version?, said,
    answers_iff.2 ⟨Catalog.mem_targets_of_resolve h, same, sought⟩⟩

theorem exists_resolve_of_answers (said : Target.Says name platform version?)
    (h : c.Answers platform version? t) : ∃ u, c.catalog.resolve name = .ok u := by
  obtain ⟨known, same, sought⟩ := answers_iff.1 h
  have found : (c.targets.find? fun u => u.isPlatform platform && u.version == t.version).isSome := by
    rw [List.find?_isSome]
    exact ⟨t, known, by simp [same]⟩
  obtain ⟨u, found⟩ := Option.isSome_iff_exists.1 found
  exact ⟨u, Catalog.resolve_eq_ok_iff.2 ⟨platform, version?, said, t.version, sought, found⟩⟩

/-- A name means a target exactly if it says a platform, and perhaps a version, of which the catalog has
one, and any other name is unknown. What it means is such a target, with the version that the name
says or else the greatest of the platform, and the text of the target means the same. -/
theorem resolve_name (c : CatalogTables) (name : String) :
    ((∃ t, c.catalog.resolve name = .ok t) ↔
      ∃ platform version?, Target.Says name platform version? ∧ c.Offers platform version?) ∧
    ((∀ t, c.catalog.resolve name ≠ .ok t) →
      c.catalog.resolve name = .error (.unknownTarget name)) ∧
    ∀ t, c.catalog.resolve name = .ok t →
      (∃ platform version?, Target.Says name platform version? ∧ c.Answers platform version? t) ∧
        c.catalog.resolve t.text = .ok t := by
  refine ⟨⟨?_, ?_⟩, ?_, ?_⟩
  · intro ⟨t, resolved⟩
    obtain ⟨platform, version?, said, answers⟩ := exists_answers_of_resolve resolved
    exact ⟨platform, version?, said, exists_answers_iff.1 ⟨t, answers⟩⟩
  · intro ⟨platform, version?, said, offers⟩
    obtain ⟨t, answers⟩ := exists_answers_iff.2 offers
    exact exists_resolve_of_answers said answers
  · intro fails
    cases resolved : c.catalog.resolve name with
    | ok t => exact absurd resolved (fails t)
    | error e => rw [Catalog.eq_of_resolve_eq_error resolved]
  · intro t resolved
    exact ⟨exists_answers_of_resolve resolved, Catalog.resolve_text resolved⟩

def framework45 : Target := ⟨".NET Framework", ⟨4, 5, 0, 0⟩⟩

def framework46 : Target := ⟨".net framework", ⟨4, 6, 0, 0⟩⟩

def frameworks : CatalogTables := (empty.addTarget framework45).addTarget framework46

/-- In any case the platform means its greatest version, however that is spelled. -/
theorem resolve_name_in_capitals :
    frameworks.catalog.resolve " .NET FRAMEWORK" = .ok framework46 ∧
    frameworks.catalog.resolve framework46.text = .ok framework46 ∧
    frameworks.catalog.resolve ".NET" = .error (.unknownTarget ".NET") := by
  have capitals : Target.split " .NET FRAMEWORK" = .ok (".NET FRAMEWORK", none) := by
    rw [← toOption_eq_some_iff]
    decide +kernel
  have newest : frameworks.catalog.latest? ".NET FRAMEWORK" = some ⟨4, 6, 0, 0⟩ := by
    simp only [catalog, latest?, Target.isPlatform, Text.sameFolded_eq_toList]
    decide +kernel
  have found : (frameworks.catalog.targets.find? fun t =>
      t.isPlatform ".NET FRAMEWORK" && t.version == ⟨4, 6, 0, 0⟩) = some framework46 := by
    simp only [catalog, Target.isPlatform, Text.sameFolded_eq_toList]
    decide +kernel
  have resolved : frameworks.catalog.resolve " .NET FRAMEWORK" = .ok framework46 :=
    Catalog.resolve_eq_ok_iff.2 ⟨_, none, Target.split_eq_ok_iff.1 capitals, _,
      Option.none_or.trans newest, found⟩
  refine ⟨resolved, ((resolve_name frameworks " .NET FRAMEWORK").2.2 _ resolved).2, ?_⟩
  refine (resolve_name frameworks ".NET").2.1 fun t known => ?_
  obtain ⟨platform, version?, said, answers⟩ := exists_answers_of_resolve known
  have whole : Target.split ".NET" = .ok (".NET", none) := by
    rw [← toOption_eq_some_iff]
    decide +kernel
  cases (Target.split_eq_ok_iff.2 said).symm.trans whole
  have absent : ∀ t ∈ frameworks.targets, t.isPlatform ".NET" = false := by
    simp only [Target.isPlatform, Text.sameFolded_eq_toList]
    decide +kernel
  exact Bool.false_ne_true ((absent t answers.known).symm.trans answers.same)

end CatalogTables

end FrameworkAudit
