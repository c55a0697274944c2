import FrameworkAudit.Host.Standard
import FrameworkAudit.Proofs.Dependency.Aggregate

set_option autoImplicit false

namespace FrameworkAudit.DependencyInfo

open Aggregator

section

variable [Host]

/-- The collections that files, errors and merges can make. -/
inductive Reachable : DependencyInfo → Prop where
  | empty : Reachable empty
  | ofFile (file : FileDependencies) : Reachable (ofFile file)
  | addFile {info : DependencyInfo} (file : FileDependencies) (h : Reachable info) :
      Reachable (info.addFile file)
  | addError {info : DependencyInfo} (name reason : String) (h : Reachable info) :
      Reachable (info.addError name reason)
  | merge {a b : DependencyInfo} (ha : Reachable a) (hb : Reachable b) : Reachable (a.merge b)
  | aggregate {g : Aggregator} {files : List AssemblyFile} {cancelled : Bool}
      {info : DependencyInfo} (h : (g.aggregate files cancelled).value = .ok info) : Reachable info
  -- What is collected at the same time depends on the schedule in which of equal members it keeps.
  | pool {finder : Finder} {files : List AssemblyFile} {p : Pool} {info : DependencyInfo}
      (run : Pool.Run finder (.start files) p) (done : p.isDone = true) (h : p.result = .ok info) :
      Reachable info

end

def Records (info : DependencyInfo) (member : MemberInfo) (caller : AssemblyInfo) : Prop :=
  ∃ entry ∈ info.members, member.same entry.1 = true ∧ ∃ a ∈ entry.2, caller.same a = true

instance (info : DependencyInfo) (member : MemberInfo) (caller : AssemblyInfo) :
    Decidable (info.Records member caller) :=
  inferInstanceAs (Decidable (∃ entry ∈ info.members, _))

variable {info a b c : DependencyInfo} {member : MemberInfo} {caller : AssemblyInfo}

theorem records_iff : info.Records member caller ↔ info.Holds (.called member caller) := by
  simp [Records, Holds, Sorted.Linked, Sorted.Has, MemberInfo.compare_eq_iff_same,
    AssemblyInfo.compare_eq_iff_same]

theorem records_merge :
    (a.merge b).Records member caller ↔ a.Records member caller ∨ b.Records member caller := by
  simp [records_iff, holds_merge]

theorem Reachable.tidy [Host] (h : info.Reachable) : info.Tidy := by
  induction h with
  | empty => exact tidy_empty
  | ofFile file => exact tidy_empty.addFile
  | addFile file _ ih => exact ih.addFile
  | addError name reason _ ih => exact ih.addError
  | merge _ _ iha _ => exact iha.merge
  | @aggregate g files cancelled info h =>
    cases cancelled with
    | true => cases h
    | false =>
      have all := collects_aggregate g files
      exact (h ▸ all).tidy
  | pool run done h =>
    have all := collects_of_run run done
    exact (h ▸ all).tidy

theorem same_merge_assoc (ha : a.Tidy) :
    ((a.merge b).merge c).same (a.merge (b.merge c)) = true :=
  same_of_holds_iff ha.merge.merge ha.merge fun _ => by simp [holds_merge, or_assoc]

theorem same_merge_comm (ha : a.Tidy) (hb : b.Tidy) : (a.merge b).same (b.merge a) = true :=
  same_of_holds_iff ha.merge hb.merge fun _ => by simp [holds_merge, or_comm]

theorem same_merge_self (ha : a.Tidy) : (a.merge a).same a = true :=
  same_of_holds_iff ha.merge ha fun _ => by simp [holds_merge]

theorem same_merge_empty (ha : a.Tidy) : (a.merge empty).same a = true :=
  same_of_holds_iff ha.merge ha fun _ => by simp [holds_merge]

theorem same_empty_merge (ha : a.Tidy) : (empty.merge a).same a = true :=
  same_of_holds_iff tidy_empty.merge ha fun _ => by simp [holds_merge]

/-- Of collections that can be made, a merge is associative, commutative and idempotent, and the
empty one is its unit. Their errors stand in strict order, none of them twice, and a merge records
the callers that either side records. -/
theorem merge_semilattice [Host] (a b c : DependencyInfo) (ha : a.Reachable) (hb : b.Reachable) :
    ((a.merge b).merge c).same (a.merge (b.merge c)) = true ∧
      (a.merge b).same (b.merge a) = true ∧ (a.merge a).same a = true ∧
      (a.merge empty).same a = true ∧ (empty.merge a).same a = true ∧
      Sorted.Strict compareErrors a.errors ∧ a.errors.Nodup ∧
      ∀ member caller,
        (a.merge b).Records member caller ↔ a.Records member caller ∨ b.Records member caller := by
  have tidy := ha.tidy
  exact ⟨same_merge_assoc tidy, same_merge_comm tidy hb.tidy, same_merge_self tidy,
    same_merge_empty tidy, same_empty_merge tidy, tidy.errors, Sorted.nodup_of_strict tidy.errors,
    fun _ _ => records_merge⟩

def fileCalling (name : String) (references : List Identity) : FileDependencies :=
  let assembly := AssemblyInfo.ofIdentity ⟨name, .zero, none, none⟩ "" "" references
  ⟨assembly, [⟨.ofId "M:A.B" none, assembly⟩]⟩

/-- The sides hold equal assemblies with other references, so the merges agree up to equality alone. -/
theorem merge_semilattice_of_files :
    let library : Identity := ⟨"Library", .zero, none, none⟩
    let left := (ofFile (fileCalling "App" [])).addError "Bad.dll" "Provided input was empty"
    let right := ((ofFile (fileCalling "App" [library])).addFile (fileCalling "Tool" [])).addError
      "Bad.dll" "Operation was cancelled"
    left.Reachable ∧ right.Reachable ∧ left.merge right ≠ right.merge left ∧
      (left.merge right).same (right.merge left) = true ∧
      (left.merge right).errors.Nodup ∧
      (left.merge right).Records (.ofId "M:A.B" none) (fileCalling "Tool" [library]).assembly := by
  intro library left right
  have hl : left.Reachable := (Reachable.ofFile _).addError _ _
  have hr : right.Reachable := ((Reachable.ofFile _).addFile _).addError _ _
  obtain ⟨-, comm, -, -, -, -, -, records⟩ := merge_semilattice left right .empty hl hr
  obtain ⟨-, -, -, -, -, -, nodup, -⟩ := merge_semilattice (left.merge right) right .empty
    (hl.merge hr) hr
  exact ⟨hl, hr, by decide +kernel, comm, nodup, (records _ _).2 (.inr (by decide +kernel))⟩

end FrameworkAudit.DependencyInfo
