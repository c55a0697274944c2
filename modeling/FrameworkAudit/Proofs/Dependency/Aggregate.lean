import FrameworkAudit.Proofs.Dependency.Outcome
import FrameworkAudit.Proofs.Dependency.Pool
import FrameworkAudit.Proofs.Metadata.Image

set_option autoImplicit false

namespace FrameworkAudit.Aggregator

open DependencyInfo

section

variable [Host] {finder : Finder} {fact : Fact} {files : List AssemblyFile} {e : Error}

/-- The file is there, an assembly can be taken out of it, and its dependencies can be found. -/
def Reads (finder : Finder) (file : AssemblyFile) (found : FileDependencies) : Prop :=
  file.isPresent = true ∧ ∃ data assembly, file.contents = .ok data ∧
    (Assembly.ofFile data false).value = .ok assembly ∧
    (finder.find assembly false).value = .ok found

theorem collect_eq_ok_iff {file : AssemblyFile} {found : FileDependencies} :
    (collect finder file false).value = .ok found ↔ Reads finder file found := by
  simp only [collect_value, bind_eq_ok_iff, Reads]
  cases file.isPresent <;> simp

def readable (finder : Finder) (files : List AssemblyFile) : List FileDependencies :=
  files.filterMap fun file => (collect finder file false).value.toOption

def unreadable (finder : Finder) (files : List AssemblyFile) : List (String × String) :=
  files.filterMap fun file =>
    match (collect finder file false).value with
    | .ok _ => none
    | .error e => some (file.name, e.message)

def union (finder : Finder) (files : List AssemblyFile) : DependencyInfo :=
  (unreadable finder files).foldl (fun info failure => info.addError failure.1 failure.2)
    (((readable finder files).map ofFile).foldl merge .empty)

theorem holds_union : (union finder files).Holds fact ↔
    ∃ file ∈ files, fact.FromOutcome (outcome finder file) := by
  have errors (info : DependencyInfo) := Sorted.foldl_gains (p := (Holds · fact))
    (q := fun failure : String × String => fact.FromError failure.1 failure.2)
    (fun _ _ => holds_addError) (unreadable finder files) info
  have merges := Sorted.foldl_gains (p := (Holds · fact)) (q := (Holds · fact))
    (fun _ _ => holds_merge) ((readable finder files).map ofFile) .empty
  rw [union, errors, merges]
  clear errors merges
  simp only [not_holds_empty, false_or]
  induction files with
  | nil => simp [readable, unreadable]
  | cons file files ih =>
    rw [List.exists_mem_cons_iff, ih.symm, readable, unreadable]
    cases hv : (collect finder file false).value with
    | ok found =>
      rw [List.filterMap_cons_some (b := found) (by rw [hv]; rfl),
        List.filterMap_cons_none (by rw [hv])]
      simp [Fact.FromOutcome, outcome, hv, or_assoc, readable, unreadable]
    | error e =>
      rw [List.filterMap_cons_none (by rw [hv]; rfl),
        List.filterMap_cons_some (b := (file.name, e.message)) (by rw [hv])]
      simp [Fact.FromOutcome, outcome, hv, or_left_comm, readable, unreadable]

theorem tidy_union : (union finder files).Tidy := by
  refine Sorted.foldl_keeps (fun _ _ h => h.addError) _ _ ?_
  exact Sorted.foldl_keeps (fun _ _ h => h.merge) _ _ tidy_empty

/-- What keeps files from being collected: an arity in one of them that is too large, or else the answer
of one of them that someone has asked to stop. -/
inductive Ends (finder : Finder) (files : List AssemblyFile) : Error → Prop where
  | overflow {file : AssemblyFile} (mem : file ∈ files)
      (h : (collect finder file false).value = .error .arityOverflow) :
      Ends finder files .arityOverflow
  | stopped {file : AssemblyFile} (mem : file ∈ files)
      (h : (collect finder file false).value = .error .cancelled)
      (others : ∀ other ∈ files, (collect finder other false).value ≠ .error .arityOverflow) :
      Ends finder files .cancelled

inductive Agree : Except Error DependencyInfo → Except Error DependencyInfo → Prop where
  | failed (e : Error) : Agree (.error e) (.error e)
  | found {a b : DependencyInfo} (h : a.same b = true) : Agree (.ok a) (.ok b)

inductive Collects (finder : Finder) (files : List AssemblyFile) :
    Except Error DependencyInfo → Prop where
  | ended {e : Error} (h : Ends finder files e) : Collects finder files (.error e)
  | collected {info : DependencyInfo} (goes : ∀ e, ¬ Ends finder files e) (tidy : info.Tidy)
      (holds : ∀ fact, info.Holds fact ↔
        ∃ file ∈ files, fact.FromOutcome (outcome finder file)) : Collects finder files (.ok info)

variable {x y : Except Error DependencyInfo} {info : DependencyInfo}

theorem ends_iff_of_perm {order : List AssemblyFile} (h : order.Perm files) :
    Ends finder order e ↔ Ends finder files e := by
  have forth {xs ys : List AssemblyFile} (h : xs.Perm ys) (ended : Ends finder xs e) :
      Ends finder ys e := by
    cases ended with
    | overflow mem failed => exact .overflow (h.mem_iff.1 mem) failed
    | stopped mem failed others =>
      exact .stopped (h.mem_iff.1 mem) failed fun other ho => others other (h.mem_iff.2 ho)
  exact ⟨forth h, forth h.symm⟩

theorem Ends.unique {d : Error} (h : Ends finder files e) (hd : Ends finder files d) : e = d := by
  cases h with
  | overflow mem failed => cases hd with
    | overflow => rfl
    | stopped _ _ others => exact absurd failed (others _ mem)
  | stopped _ _ others => cases hd with
    | overflow mem failed => exact absurd failed (others _ mem)
    | stopped => rfl

namespace Collects

theorem of_perm {order : List AssemblyFile} (h : Collects finder order x)
    (hp : order.Perm files) : Collects finder files x := by
  cases h with
  | ended h => exact .ended ((ends_iff_of_perm hp).1 h)
  | collected goes tidy holds =>
    refine .collected (fun e h => goes e ((ends_iff_of_perm hp).2 h)) tidy fun fact => ?_
    simp only [holds, hp.mem_iff]

theorem agree (hx : Collects finder files x) (hy : Collects finder files y) : Agree x y := by
  cases hx with
  | ended h => cases hy with
    | ended h' => exact h.unique h' ▸ .failed _
    | collected goes => exact absurd h (goes _)
  | collected goes tidy holds => cases hy with
    | ended h' => exact absurd h' (goes _)
    | collected _ tidy' holds' =>
      exact .found (same_of_holds_iff tidy tidy' fun fact => (holds fact).trans (holds' fact).symm)

theorem eq_error_iff (h : Collects finder files x) : x = .error e ↔ Ends finder files e := by
  cases h with
  | ended h =>
    rw [Except.error.injEq]
    exact ⟨fun same => same ▸ h, fun h' => h.unique h'⟩
  | collected goes => simp [goes e]

theorem exists_ok_iff (h : Collects finder files x) :
    (∃ info, x = .ok info) ↔ ∀ e, ¬ Ends finder files e := by
  cases h with
  | ended h => simpa using ⟨_, h⟩
  | collected goes => simp [goes]

theorem tidy (h : Collects finder files (.ok info)) : info.Tidy := by
  cases h with
  | collected _ tidy => exact tidy

theorem holds_iff (h : Collects finder files (.ok info)) :
    info.Holds fact ↔ ∃ file ∈ files, fact.FromOutcome (outcome finder file) := by
  cases h with
  | collected _ _ holds => exact holds fact

end Collects

/-- However the steps of the tasks are mixed, the pool collects what the files give. -/
theorem collects_of_run {p : Pool} (run : Pool.Run finder (.start files) p)
    (done : p.isDone = true) : Collects finder files p.result := by
  have finished : ∀ t ∈ p.tasks, t.isFinished = true := by simpa [Pool.isDone] using done
  have fails (e : Error) : (∃ t ∈ p.tasks, t.Fails finder e) ↔
      ∃ file ∈ files, (collect finder file false).value = .error e := by
    rw [Pool.fails_run run]
    simp [Pool.start, Task.Fails]
  have overflow : p.tasks.any (Task.endedWith .arityOverflow) = true ↔
      ∃ file ∈ files, (collect finder file false).value = .error .arityOverflow := by
    rw [← fails, List.any_eq_true]
    exact exists_congr fun t => and_congr_right fun ht => Task.endedWith_iff (finished t ht)
  unfold Pool.result
  split
  · rename_i overflows
    obtain ⟨file, mem, failed⟩ := overflow.1 overflows
    exact .ended (.overflow mem failed)
  · rename_i fits
    rw [overflow, not_exists] at fits
    have others (file : AssemblyFile) (mem : file ∈ files) :
        (collect finder file false).value ≠ .error .arityOverflow := fun failed =>
      fits file ⟨mem, failed⟩
    obtain ⟨stopped, result⟩ | ⟨goes, info, result, tidy, holds⟩ :=
      Pool.foldlM_addTo finder p.shared finished
    · obtain ⟨file, mem, failed⟩ := (fails _).1 stopped
      exact result ▸ .ended (.stopped mem failed others)
    · rw [result]
      refine .collected ?_ (tidy (Pool.tidy_run run tidy_empty)) fun fact => ?_
      · rintro e (⟨mem, failed⟩ | ⟨mem, failed, -⟩)
        · exact others _ mem failed
        · exact goes ((fails _).2 ⟨_, mem, failed⟩)
      · rw [holds]
        exact (Pool.promises_run run).trans Pool.promises_start

theorem exists_run (g : Aggregator) (files : List AssemblyFile) : ∃ p,
    Pool.Run g.finder (.start files) p ∧ p.isDone = true ∧
      (g.aggregate files false).value = p.result := by
  obtain ⟨run, done⟩ :=
    Pool.run_run g.finder (if g.parallel then Host.turns files.length else []) (.start files)
  refine ⟨_, run, done, ?_⟩
  simp only [aggregate, checkCancelled, Bool.false_eq_true, if_false]
  split <;> simp [*]

theorem collects_aggregate (g : Aggregator) (files : List AssemblyFile) :
    Collects g.finder files (g.aggregate files false).value := by
  obtain ⟨p, run, done, same⟩ := exists_run g files
  exact same ▸ collects_of_run run done

theorem collects_union (goes : ∀ e, ¬ Ends finder files e) :
    Collects finder files (.ok (union finder files)) :=
  .collected goes tidy_union fun _ => holds_union

theorem same_of_failed {before after : List AssemblyFile} {file : AssemblyFile}
    {rest : DependencyInfo} (h : (collect finder file false).value = .error e)
    (hi : Collects finder (before ++ file :: after) (.ok info))
    (hr : Collects finder (before ++ after) (.ok rest)) :
    { info with errors := rest.errors }.same rest = true ∧ (file.name, e.message) ∈ info.errors := by
  have whole (f : Fact) : info.Holds f ↔ rest.Holds f ∨ f.FromError file.name e.message := by
    have lost : f.FromOutcome (outcome finder file) ↔ f.FromError file.name e.message := by
      rw [outcome, h, Fact.FromOutcome]
    simp only [hi.holds_iff, hr.holds_iff, List.mem_append, List.mem_cons, or_and_right, exists_or,
      exists_eq_left, lost]
    rw [or_left_comm, or_comm]
  constructor
  · refine same_of_holds_iff ⟨hi.tidy.members, hi.tidy.assemblies, hr.tidy.errors⟩ hr.tidy
      fun f => ?_
    cases f with
    | failed n r => rfl
    | tracked m => exact (whole (.tracked m)).trans (or_iff_left id)
    | called m c => exact (whole (.called m c)).trans (or_iff_left id)
    | audited a => exact (whole (.audited a)).trans (or_iff_left id)
  · exact (whole (.failed file.name e.message)).2 (.inr rfl)

theorem not_ends_iff : (∀ e, ¬ Ends finder files e) ↔ ∀ file ∈ files,
    (collect finder file false).value ≠ .error .arityOverflow ∧
      (collect finder file false).value ≠ .error .cancelled := by
  constructor
  · intro goes file mem
    have fits : ∀ other ∈ files, (collect finder other false).value ≠ .error .arityOverflow :=
      fun other ho failed => goes _ (.overflow ho failed)
    exact ⟨fits file mem, fun failed => goes _ (.stopped mem failed fits)⟩
  · rintro goes e (⟨mem, failed⟩ | ⟨mem, failed, -⟩)
    · exact (goes _ mem).1 failed
    · exact (goes _ mem).2 failed

/-- Files are collected with the same result in every order and mode and by every schedule. An arity in
one of them that is too large ends the program, and a file that says that it was stopped stops the
collection; else the result is the merge of what single files give with one error for each file that
could not be read, so the dependencies of two lists of files together are those of the one merged
with those of the other. -/
theorem aggregate_order_free (g : Aggregator) (files : List AssemblyFile) :
    (∀ e, (g.aggregate files false).value = .error e ↔ Ends g.finder files e) ∧
      (∀ parallel order, order.Perm files →
        Agree (aggregate ⟨g.finder, parallel⟩ order false).value (g.aggregate files false).value) ∧
      (WellFounded (fun q p => Pool.Step g.finder p q) ∧
        ∀ order p, order.Perm files → Pool.Run g.finder (.start order) p →
          (∃ q, Pool.Run g.finder p q ∧ q.isDone = true) ∧
          (p.isDone = true → Agree p.result (g.aggregate files false).value)) ∧
      (∀ file found,
        (collect g.finder file false).value = .ok found ↔ Reads g.finder file found) ∧
      ∀ info, (g.aggregate files false).value = .ok info →
        (union g.finder files).same info = true ∧
        (∀ before file after e, files = before ++ file :: after →
          (collect g.finder file false).value = .error e →
            ∃ rest, (g.aggregate (before ++ after) false).value = .ok rest ∧
              { info with errors := rest.errors }.same rest = true ∧
              (file.name, e.message) ∈ info.errors) ∧
        ∀ more others, (g.aggregate more false).value = .ok others →
          ∃ all, (g.aggregate (files ++ more) false).value = .ok all ∧
            all.same (info.merge others) = true := by
  have here := collects_aggregate g files
  refine ⟨fun e => here.eq_error_iff, ?_, ?_, fun file found => collect_eq_ok_iff, ?_⟩
  · exact fun parallel order hp =>
      ((collects_aggregate ⟨g.finder, parallel⟩ order).of_perm hp).agree here
  · refine ⟨Pool.wellFounded_step g.finder, fun order p hp run => ⟨Pool.exists_done _ p, ?_⟩⟩
    exact fun done => ((collects_of_run run done).of_perm hp).agree here
  · intro info found
    rw [found] at here
    have goes : ∀ e, ¬ Ends g.finder files e := here.exists_ok_iff.1 ⟨info, rfl⟩
    refine ⟨?_, ?_, ?_⟩
    · cases (collects_union goes).agree here with
      | found same => exact same
    · rintro before file after e rfl failed
      have rest := collects_aggregate g (before ++ after)
      have part : before ++ after ⊆ before ++ file :: after := by grind
      obtain ⟨left, kept⟩ := rest.exists_ok_iff.2 <| not_ends_iff.2 fun other ho =>
        not_ends_iff.1 goes other (part ho)
      rw [kept] at rest
      exact ⟨left, kept, same_of_failed failed here rest⟩
    · intro more others foundMore
      have there := collects_aggregate g more
      rw [foundMore] at there
      have goesMore : ∀ e, ¬ Ends g.finder more e := there.exists_ok_iff.1 ⟨others, rfl⟩
      have both := collects_aggregate g (files ++ more)
      obtain ⟨all, foundAll⟩ := both.exists_ok_iff.2 <| not_ends_iff.2 fun other ho =>
        (List.mem_append.1 ho).elim (not_ends_iff.1 goes other) (not_ends_iff.1 goesMore other)
      rw [foundAll] at both
      refine ⟨all, foundAll, same_of_holds_iff both.tidy here.tidy.merge fun fact => ?_⟩
      simp only [holds_merge, both.holds_iff, here.holds_iff, there.holds_iff, List.mem_append,
        or_and_right, exists_or]

end

/-- An image of a file with the method of the overfull caller. -/
def overfull : ByteArray :=
  Metadata.image
    [0, 0, 0, 0, 2, 0, 0, 1, 3, 4, 0, 0, 8, 0, 0, 0, 0, 0, 0, 0, 0, 0, 0, 0,
     1, 0, 0, 0, 2, 0, 0, 0, 1, 0, 0, 0, 1, 0, 0, 0,
     0, 0, 1, 0, 0, 0, 0, 0, 0, 0,
     6, 0, 5, 0, 9, 0, 7, 0, 11, 0, 0, 0,
     9, 0, 34, 0, 1, 0,
     4, 0, 0, 0, 0, 0, 0, 0, 0, 0, 0, 0, 10, 0, 36, 0, 0, 0, 0, 0]
    (Assembly.asciiTexts ["", "App", "A`1", "N", "B`18446744073709551615", "F", "mscorlib"])
    [0, 8, 0, 1, 1, 21, 18, 9, 1, 8, 8, 0xb7, 0x7a, 0x5c, 0x56, 0x19, 0x34, 0xe0, 0x89]

theorem exists_overfull : ∃ a, (Assembly.ofFile overfull false).value = .ok a ∧
    (Finder.standard.coreLibrary? a).isSome = true ∧ Finder.standard.Overflows a 1 := by
  have read : Assembly.passes (fun a _ => decide ((Finder.standard.coreLibrary? a).isSome = true ∧
      Finder.standard.Overflows a 1)) (Metadata.ofFile overfull) = true := by
    rw [overfull, Metadata.ofFile_image (by decide +kernel)]
    decide +kernel
  obtain ⟨a, -, taken, -, met⟩ := Assembly.exists_of_passes read
  exact ⟨a, taken, of_decide_eq_true met⟩

def overfullFile : AssemblyFile := .memory "App.dll" "" overfull

theorem collect_overfullFile :
    (collect Finder.standard overfullFile false).value = .error .arityOverflow := by
  have filled : overfull.isEmpty = false := by decide +kernel
  obtain ⟨a, taken, core, met⟩ := exists_overfull
  exact collect_of_find (by simp [overfullFile, AssemblyFile.isPresent, filled])
    (by simp [overfullFile, AssemblyFile.contents, AssemblyFile.load, filled]) taken
    (Finder.find_of_overflows core met)

/-- Of a file whose members cannot all be written nothing is collected, not even its failure. -/
theorem not_collects_every_file : ¬ ∀ (g : Aggregator) (files : List AssemblyFile),
    ∃ info, (g.aggregate files false).value = .ok info := by
  intro collects
  have goes := (collects_aggregate ⟨Finder.standard, false⟩ [overfullFile]).exists_ok_iff.1
    (collects _ _)
  exact goes _ (.overflow List.mem_cons_self collect_overfullFile)

end FrameworkAudit.Aggregator
