import FrameworkAudit.Host.Standard
import FrameworkAudit.Proofs.Dependency.Facts

/-!
Unresolved references and the order of files. Equal assemblies may have different references, and a
collection keeps the references of the one that came first. The unresolved references stay the same
in every order exactly if equal assemblies agree, up to assemblies of the same identity, on what
they lack.
-/

set_option autoImplicit false

namespace FrameworkAudit

open Sorted

/-- Whether an assembly has a reference of this display name that none of the names satisfies. -/
def AssemblyInfo.Lacks [Host] (a : AssemblyInfo) (names : List String) (display : String) : Prop :=
  ∃ r ∈ a.references, r.display = display ∧ Text.fold r.name ∉ names

instance [Host] (a : AssemblyInfo) (names : List String) (display : String) :
    Decidable (a.Lacks names display) :=
  inferInstanceAs (Decidable (∃ r ∈ a.references, _))

theorem AssemblyInfo.lacks_congr [Host] {a : AssemblyInfo} {xs ys : List String} {display : String}
    (h : ∀ name, name ∈ xs ↔ name ∈ ys) : a.Lacks xs display ↔ a.Lacks ys display := by
  simp only [Lacks, h]

theorem AssemblyInfo.identity_eq_of_compare {a b : AssemblyInfo} (h : compare a b = .eq) :
    a.identity = b.identity := by
  rw [compare_eq_iff_same] at h
  simp only [same, Bool.and_eq_true, beq_iff_eq] at h
  exact h.1

namespace DependencyInfo

def namesOf (assemblies : List AssemblyInfo) : List String :=
  assemblies.map fun a => Text.fold a.name

def missing [Host] (info : DependencyInfo) : List (String × String) :=
  info.assemblies.flatMap fun a =>
    (a.references.filter fun r => !(namesOf info.assemblies).contains (Text.fold r.name)).map
      fun r => (r.display, a.identity)

variable {info a b : DependencyInfo} {display identity : String}

theorem mem_missing [Host] : (display, identity) ∈ info.missing ↔
    ∃ a ∈ info.assemblies, a.identity = identity ∧
      a.Lacks (namesOf info.assemblies) display := by
  simp only [missing, AssemblyInfo.Lacks, List.mem_flatMap, List.mem_map, List.mem_filter,
    Bool.not_eq_true', List.contains_eq_mem, decide_eq_false_iff_not, Prod.mk.injEq]
  constructor
  · rintro ⟨a, ha, r, ⟨hr, hn⟩, hd, hi⟩
    exact ⟨a, ha, hi, r, hr, hd, hn⟩
  · rintro ⟨a, ha, hi, r, hr, hd, hn⟩
    exact ⟨a, ha, r, ⟨hr, hn⟩, hd, hi⟩

def link (map : List (String × List String)) (entry : String × String) :
    List (String × List String) :=
  alter compare entry.1 [] (insertAll compare [entry.2]) map

theorem unresolved_eq_foldl [Host] : info.unresolved = info.missing.foldl link [] := rfl

theorem linked_unresolved [Host] : Linked compare compare display identity info.unresolved ↔
    (display, identity) ∈ info.missing := by
  have fold := foldl_gains (p := Linked compare compare display identity)
    (q := fun entry => compare display entry.1 = .eq ∧ Has compare identity [entry.2])
    (fun _ _ => linked_alter) info.missing []
  rw [unresolved_eq_foldl]
  refine fold.trans ?_
  simp [Linked, Has, Std.LawfulEqCmp.compare_eq_iff_eq]

theorem hasKey_unresolved [Host] :
    HasKey compare display info.unresolved ↔ ∃ identity, (display, identity) ∈ info.missing := by
  have fold := foldl_gains (p := HasKey compare display)
    (q := fun entry : String × String => compare display entry.1 = .eq)
    (f := link) (fun _ _ => hasKey_alter) info.missing []
  rw [unresolved_eq_foldl]
  refine fold.trans ?_
  simp [HasKey, Std.LawfulEqCmp.compare_eq_iff_eq]

theorem strictMap_unresolved [Host] : StrictMap compare compare info.unresolved :=
  foldl_keeps (f := link) (fun _ _ => strictMap_alter) info.missing [] ⟨.nil, by simp⟩

/-- The unresolved references are known by what is missing, whatever its order. -/
theorem unresolved_eq_iff [Host] :
    a.unresolved = b.unresolved ↔ ∀ entry, entry ∈ a.missing ↔ entry ∈ b.missing := by
  constructor
  · rintro h ⟨display, identity⟩
    rw [← linked_unresolved, h, linked_unresolved]
  · intro h
    have sa : StrictMap compare compare a.unresolved := strictMap_unresolved
    have sb : StrictMap compare compare b.unresolved := strictMap_unresolved
    have ext := strictMap_ext sa sb (fun key => by simp only [hasKey_unresolved, h])
      (fun key x => by simp only [linked_unresolved, h])
    simpa [Std.LawfulEqCmp.compare_eq_iff_eq, ← Prod.ext_iff] using ext

def addAll (files : List FileDependencies) : DependencyInfo := files.foldl addFile empty

def mergeAll (files : List FileDependencies) : DependencyInfo :=
  (files.map ofFile).foldl merge empty

def assembliesOf (files : List FileDependencies) : List AssemblyInfo :=
  files.map FileDependencies.assembly

theorem assemblies_addFile {file : FileDependencies} :
    (info.addFile file).assemblies = insert compare file.assembly info.assemblies := by
  have keep : (file.dependencies.foldl addDependency info).assemblies = info.assemblies :=
    foldl_keeps (p := fun i : DependencyInfo => i.assemblies = info.assemblies)
      (f := addDependency) (fun _ _ h => h) _ _ rfl
  rw [addFile, addAssembly, keep]

theorem assemblies_merge_ofFile {file : FileDependencies} :
    (info.merge (ofFile file)).assemblies = insert compare file.assembly info.assemblies := by
  rw [merge, ofFile, assemblies_addFile]
  rfl

theorem assemblies_foldl {step : DependencyInfo → FileDependencies → DependencyInfo}
    (h : ∀ info file, (step info file).assemblies = insert compare file.assembly info.assemblies)
    (files : List FileDependencies) (info : DependencyInfo) :
    (files.foldl step info).assemblies =
      insertAll compare (assembliesOf files) info.assemblies := by
  induction files generalizing info with
  | nil => rfl
  | cons file files ih =>
    rw [List.foldl_cons, ih, h]
    rfl

theorem assemblies_addAll {files : List FileDependencies} :
    (addAll files).assemblies = ofList compare (assembliesOf files) :=
  assemblies_foldl (fun _ _ => assemblies_addFile) files empty

theorem assemblies_mergeAll {files : List FileDependencies} :
    (mergeAll files).assemblies = ofList compare (assembliesOf files) := by
  rw [mergeAll, List.foldl_map]
  exact assemblies_foldl (fun _ _ => assemblies_merge_ofFile) files empty

theorem mem_namesOf_ofList {assemblies : List AssemblyInfo} {name : String} :
    name ∈ namesOf (ofList compare assemblies) ↔ name ∈ namesOf assemblies := by
  simp only [namesOf, List.mem_map]
  constructor
  · rintro ⟨a, ha, rfl⟩
    exact ⟨a, mem_of_mem_ofList ha, rfl⟩
  · rintro ⟨a, ha, rfl⟩
    obtain ⟨b, hb, he⟩ := exists_mem_ofList compare ha
    refine ⟨b, hb, ?_⟩
    rw [AssemblyInfo.name, AssemblyInfo.name, AssemblyInfo.identity_eq_of_compare he]

theorem mem_missing_addAll [Host] {files order : List FileDependencies} (hp : order.Perm files) :
    (display, identity) ∈ (addAll order).missing ↔
      ∃ a ∈ ofList compare (assembliesOf order), a.identity = identity ∧
        a.Lacks (namesOf (assembliesOf files)) display := by
  have names (name : String) : name ∈ namesOf (ofList compare (assembliesOf order)) ↔
      name ∈ namesOf (assembliesOf files) := by
    rw [mem_namesOf_ofList]
    exact ((hp.map _).map _).mem_iff
  simp only [mem_missing, assemblies_addAll, AssemblyInfo.lacks_congr names]

/-- Whatever an assembly lacks is also lacked by all that are equal to some assembly of the same
identity. -/
def Settled [Host] (assemblies : List AssemblyInfo) : Prop :=
  ∀ a ∈ assemblies, ∀ display, a.Lacks (namesOf assemblies) display →
    ∃ b ∈ assemblies, b.identity = a.identity ∧
      ∀ c ∈ assemblies, c.same b = true → c.Lacks (namesOf assemblies) display

/-- If assemblies are settled, a reference is missing in every order if any assembly lacks it. -/
theorem Settled.mem_missing [Host] {files order : List FileDependencies}
    (h : Settled (assembliesOf files)) (hp : order.Perm files) :
    (display, identity) ∈ (addAll order).missing ↔
      ∃ a ∈ assembliesOf files, a.identity = identity ∧
        a.Lacks (namesOf (assembliesOf files)) display := by
  have mem (a : AssemblyInfo) : a ∈ assembliesOf order ↔ a ∈ assembliesOf files :=
    (hp.map _).mem_iff
  rw [mem_missing_addAll hp]
  constructor
  · rintro ⟨a, ha, hi, hl⟩
    exact ⟨a, (mem a).1 (mem_of_mem_ofList ha), hi, hl⟩
  · rintro ⟨a, ha, rfl, hl⟩
    obtain ⟨b, hb, hi, hall⟩ := h a ha display hl
    obtain ⟨c, hc, he⟩ := exists_mem_ofList compare ((mem b).2 hb)
    have hcb : c.same b = true := AssemblyInfo.compare_eq_iff_same.1 (Std.OrientedCmp.eq_symm he)
    refine ⟨c, hc, ?_, hall c ((mem c).1 (mem_of_mem_ofList hc)) hcb⟩
    rw [← hi, AssemblyInfo.identity_eq_of_compare he]

def preferring (p : AssemblyInfo → Bool) (files : List FileDependencies) :
    List FileDependencies :=
  (files.filter fun file => p file.assembly) ++ (files.filter fun file => !p file.assembly)

theorem preferring_perm {p : AssemblyInfo → Bool} {files : List FileDependencies} :
    (preferring p files).Perm files :=
  List.filter_append_perm (fun file : FileDependencies => p file.assembly) files

/-- Equal assemblies are kept without the property only if none of them has it. -/
theorem mem_ofList_preferring {p : AssemblyInfo → Bool} {files : List FileDependencies}
    {a : AssemblyInfo} (h : a ∈ ofList compare (assembliesOf (preferring p files))) :
    p a = true ∨ ∀ b ∈ assembliesOf files, b.same a = true → p b = false := by
  have split : assembliesOf (preferring p files) =
      (assembliesOf files).filter p ++ (assembliesOf files).filter (!p ·) := by
    simp only [assembliesOf, preferring, List.map_append, List.filter_map]
    rfl
  rw [mem_ofList_iff, split, first?, List.find?_append, Option.or_eq_some_iff] at h
  rcases h with h | ⟨h, -⟩
  · exact .inl (List.mem_filter.1 (List.mem_of_find?_eq_some h)).2
  · refine .inr fun b hb he => ?_
    have hab : compare a b = .eq :=
      Std.OrientedCmp.eq_symm (AssemblyInfo.compare_eq_iff_same.2 he)
    by_contra hpb
    have hpb : p b = true := by simpa using hpb
    have := List.find?_eq_none.1 h b (List.mem_filter.2 ⟨hb, hpb⟩)
    simp [hab] at this

theorem settled_of_missing_eq [Host] {files : List FileDependencies}
    (h : ∀ order, order.Perm files → ∀ entry,
      entry ∈ (addAll order).missing ↔ entry ∈ (addAll files).missing) :
    Settled (assembliesOf files) := by
  intro a ha display hl
  let lacking (b : AssemblyInfo) : Bool := b.Lacks (namesOf (assembliesOf files)) display
  -- The order that prefers the lacking finds it missing, so the one that prefers the others does.
  have first : (display, a.identity) ∈ (addAll (preferring lacking files)).missing := by
    rw [mem_missing_addAll preferring_perm]
    obtain ⟨b, hb, he⟩ := exists_mem_ofList compare
      (((preferring_perm (p := lacking)).map _).mem_iff.2 ha)
    refine ⟨b, hb, (AssemblyInfo.identity_eq_of_compare he).symm, ?_⟩
    rcases mem_ofList_preferring hb with hpb | hall
    · exact of_decide_eq_true hpb
    · exact absurd hl (of_decide_eq_false (hall a ha (AssemblyInfo.compare_eq_iff_same.1 he)))
  have last : (display, a.identity) ∈ (addAll (preferring (!lacking ·) files)).missing := by
    rwa [h _ preferring_perm, ← h _ (preferring_perm (p := lacking))]
  rw [mem_missing_addAll preferring_perm] at last
  obtain ⟨b, hb, hi, hlb⟩ := last
  have hmem := ((preferring_perm (p := (!lacking ·))).map FileDependencies.assembly).mem_iff.1
    (mem_of_mem_ofList hb)
  refine ⟨b, hmem, hi, fun c hc hcb => ?_⟩
  rcases mem_ofList_preferring hb with hpb | hall
  · simp [lacking, hlb] at hpb
  · simpa [lacking] using hall c hc hcb

/-- Adding files and merging them leave the same unresolved references. These are the same for every
order of the files exactly if the assemblies are settled. -/
theorem unresolved_order_free_iff [Host] (files : List FileDependencies) :
    (∀ order, (mergeAll order).unresolved = (addAll order).unresolved) ∧
      ((∀ order, order.Perm files → (addAll order).unresolved = (addAll files).unresolved) ↔
        Settled (assembliesOf files)) := by
  refine ⟨fun order => ?_, fun h => ?_, fun h order hp => ?_⟩
  · rw [unresolved_eq_iff]
    rintro ⟨display, identity⟩
    simp only [mem_missing, assemblies_mergeAll, assemblies_addAll]
  · exact settled_of_missing_eq fun order hp => unresolved_eq_iff.1 (h order hp)
  · rw [unresolved_eq_iff]
    rintro ⟨display, identity⟩
    rw [h.mem_missing hp, h.mem_missing (.refl files)]

def fileReferring (references : List Identity) : FileDependencies :=
  ⟨.ofIdentity ⟨"App", .zero, none, none⟩ "" "" references, []⟩

/-- Of two files of one assembly, the first decides what is unresolved. -/
theorem unresolved_ne_of_swap :
    let plain := fileReferring []
    let referring := fileReferring [⟨"Library", .zero, none, none⟩]
    [plain, referring].Perm [referring, plain] ∧
      (addAll [plain, referring]).unresolved ≠ (addAll [referring, plain]).unresolved :=
  ⟨.swap _ _ [], by decide +kernel⟩

end DependencyInfo

end FrameworkAudit
