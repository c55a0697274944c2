import FrameworkAudit.Dependency.Info
import FrameworkAudit.Proofs.Sorted

/-!
What collected dependencies say, as facts: a member is tracked, an assembly calls it, an assembly
was audited, a file failed. Every way of adding to a collection adds facts and loses none, and tidy
collections of the same facts are the same.
-/

set_option autoImplicit false

namespace FrameworkAudit.DependencyInfo

open Sorted

instance : Std.TransCmp compareErrors :=
  inferInstanceAs (Std.TransCmp (compareLex (compareOn Prod.fst) (compareOn Prod.snd)))

instance : Std.LawfulEqCmp compareErrors where
  eq_of_compare {a b} h := by
    simp only [compareErrors, compareLex_eq_eq, compareOn, Std.LawfulEqCmp.compare_eq_iff_eq] at h
    exact Prod.ext h.1 h.2

/-- Facts about equal members and equal assemblies are the same fact. -/
inductive Fact where
  | tracked (member : MemberInfo)
  | called (member : MemberInfo) (caller : AssemblyInfo)
  | audited (assembly : AssemblyInfo)
  | failed (name reason : String)

namespace Fact

def FromCallers (member : MemberInfo) (callers : List AssemblyInfo) : Fact → Prop
  | tracked m => compare m member = .eq
  | called m c => compare m member = .eq ∧ Has compare c callers
  | _ => False

def FromDependency (d : Dependency) : Fact → Prop := FromCallers d.member [d.caller]

def FromAssembly (assembly : AssemblyInfo) : Fact → Prop
  | audited a => compare a assembly = .eq
  | _ => False

def FromError (name reason : String) : Fact → Prop
  | failed n r => (n, r) = (name, reason)
  | _ => False

def FromFile (file : FileDependencies) (fact : Fact) : Prop :=
  (∃ d ∈ file.dependencies, fact.FromDependency d) ∨ fact.FromAssembly file.assembly

end Fact

def Holds (info : DependencyInfo) : Fact → Prop
  | .tracked m => HasKey compare m info.members
  | .called m c => Linked compare compare m c info.members
  | .audited a => Has compare a info.assemblies
  | .failed n r => (n, r) ∈ info.errors

structure Tidy (info : DependencyInfo) : Prop where
  members : StrictMap compare compare info.members
  assemblies : Strict compare info.assemblies
  errors : Strict compareErrors info.errors

variable {info a b : DependencyInfo} {fact : Fact}

@[simp] theorem not_holds_empty : ¬ empty.Holds fact := by
  cases fact <;> simp [Holds, empty, HasKey, Linked, Has]

theorem tidy_empty : empty.Tidy :=
  ⟨⟨.nil, by simp [empty]⟩, .nil, .nil⟩

theorem holds_addCallers {member : MemberInfo} {callers : List AssemblyInfo} :
    (info.addCallers member callers).Holds fact ↔
      info.Holds fact ∨ fact.FromCallers member callers := by
  cases fact with
  | tracked m => exact hasKey_alter
  | called m c => exact linked_alter
  | audited a => simp [Holds, addCallers, Fact.FromCallers]
  | failed n r => simp [Holds, addCallers, Fact.FromCallers]

theorem Tidy.addCallers {member : MemberInfo} {callers : List AssemblyInfo} (h : info.Tidy) :
    (info.addCallers member callers).Tidy :=
  ⟨strictMap_alter h.members, h.assemblies, h.errors⟩

theorem holds_addDependency {d : Dependency} :
    (info.addDependency d).Holds fact ↔ info.Holds fact ∨ fact.FromDependency d :=
  holds_addCallers

theorem holds_addDependencies {ds : List Dependency} :
    (ds.foldl addDependency info).Holds fact ↔
      info.Holds fact ∨ ∃ d ∈ ds, fact.FromDependency d :=
  foldl_gains (p := (Holds · fact)) (fun _ d => holds_addDependency (d := d)) ds info

theorem Tidy.addDependencies {ds : List Dependency} (h : info.Tidy) :
    (ds.foldl addDependency info).Tidy :=
  foldl_keeps (fun _ _ h => Tidy.addCallers h) ds info h

theorem holds_addAssembly {x : AssemblyInfo} :
    (info.addAssembly x).Holds fact ↔ info.Holds fact ∨ fact.FromAssembly x := by
  cases fact with
  | audited a => exact has_insert.trans or_comm
  | tracked m => simp [Holds, addAssembly, Fact.FromAssembly]
  | called m c => simp [Holds, addAssembly, Fact.FromAssembly]
  | failed n r => simp [Holds, addAssembly, Fact.FromAssembly]

theorem Tidy.addAssembly {x : AssemblyInfo} (h : info.Tidy) : (info.addAssembly x).Tidy :=
  ⟨h.members, strict_insert h.assemblies, h.errors⟩

theorem holds_addError {name reason : String} :
    (info.addError name reason).Holds fact ↔ info.Holds fact ∨ fact.FromError name reason := by
  cases fact with
  | failed n r =>
    have gain : Has compareErrors (n, r) (info.addError name reason).errors ↔ _ := has_insert
    simpa [has_iff_mem, Std.LawfulEqCmp.compare_eq_iff_eq, Holds, Fact.FromError, or_comm]
      using gain
  | tracked m => simp [Holds, addError, Fact.FromError]
  | called m c => simp [Holds, addError, Fact.FromError]
  | audited a => simp [Holds, addError, Fact.FromError]

theorem Tidy.addError {name reason : String} (h : info.Tidy) : (info.addError name reason).Tidy :=
  ⟨h.members, h.assemblies, strict_insert h.errors⟩

theorem holds_addFile {file : FileDependencies} :
    (info.addFile file).Holds fact ↔ info.Holds fact ∨ fact.FromFile file := by
  rw [addFile, holds_addAssembly, holds_addDependencies, or_assoc, Fact.FromFile]

theorem Tidy.addFile {file : FileDependencies} (h : info.Tidy) : (info.addFile file).Tidy :=
  h.addDependencies.addAssembly

@[simp] theorem holds_ofFile {file : FileDependencies} :
    (ofFile file).Holds fact ↔ fact.FromFile file := by
  simp [ofFile, holds_addFile]

theorem holds_merge : (a.merge b).Holds fact ↔ a.Holds fact ∨ b.Holds fact := by
  have members (f : Fact) : (b.members.foldl (fun info entry => info.addCallers entry.1 entry.2)
      a).Holds f ↔ a.Holds f ∨ ∃ entry ∈ b.members, f.FromCallers entry.1 entry.2 :=
    foldl_gains (p := (Holds · f)) (q := fun entry => f.FromCallers entry.1 entry.2)
      (fun _ _ => holds_addCallers) b.members a
  cases fact with
  | tracked m => exact members (.tracked m)
  | called m c => exact members (.called m c)
  | audited x => exact has_insertAll
  | failed n r =>
    have gain : Has compareErrors (n, r) (a.merge b).errors ↔ _ := has_insertAll
    simpa only [has_iff_mem, Holds] using gain

theorem Tidy.merge (h : a.Tidy) : (a.merge b).Tidy where
  members := (foldl_keeps (p := Tidy) (fun _ _ => Tidy.addCallers) b.members a h).members
  assemblies := strict_insertAll h.assemblies
  errors := strict_insertAll h.errors

theorem sameList_iff {α : Type} {same : α → α → Bool} {xs ys : List α} :
    sameList same xs ys = true ↔ List.Forall₂ (fun x y => same x y = true) xs ys := by
  induction xs generalizing ys with
  | nil => cases ys <;> simp [sameList]
  | cons x xs ih => cases ys <;> simp [sameList, ih]

theorem same_of_holds_iff (ha : a.Tidy) (hb : b.Tidy)
    (h : ∀ fact, a.Holds fact ↔ b.Holds fact) : a.same b = true := by
  have members := strictMap_ext ha.members hb.members (fun m => h (.tracked m))
    (fun m c => h (.called m c))
  have assemblies := strict_ext ha.assemblies hb.assemblies fun x => h (.audited x)
  have errors := strict_ext ha.errors hb.errors fun e => by
    simpa only [has_iff_mem, Holds] using h (.failed e.1 e.2)
  simp only [Std.LawfulEqCmp.compare_eq_iff_eq, List.forall₂_eq_eq_eq] at errors
  simp only [AssemblyInfo.compare_eq_iff_same, MemberInfo.compare_eq_iff_same]
    at assemblies members
  simp only [same, errors, BEq.rfl, Bool.and_true, Bool.and_eq_true, sameList_iff]
  exact ⟨members, assemblies⟩

end FrameworkAudit.DependencyInfo
