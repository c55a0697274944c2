import FrameworkAudit.Dependency.Aggregate
import FrameworkAudit.Proofs.Dependency.Facts
import FrameworkAudit.Proofs.Result
import Mathlib.Logic.Relation

/-!
What the map of a pool holds and what its tasks will still give never changes, so every schedule ends
in the same collection.
-/

set_option autoImplicit false

namespace FrameworkAudit.Aggregator

variable [Host]

theorem collect_value (finder : Finder) (file : AssemblyFile) :
    (collect finder file false).value =
      ((if file.isPresent then file.contents
        else .error (.unreadableFile s!"{file.name} does not exist")) >>= fun data =>
        (Assembly.ofFile data false).value >>= fun assembly => (finder.find assembly false).value) := by
  simp only [collect, checkCancelled, Bool.false_eq_true, if_false, bind, Except.bind]
  cases file.isPresent with
  | false => rfl
  | true =>
    cases file.contents with
    | error e => rfl
    | ok data => cases taken : (Assembly.ofFile data false).value <;> simp [taken]

theorem collect_of_find {finder : Finder} {file : AssemblyFile} {data : ByteArray} {a : Assembly}
    {e : Error} (present : file.isPresent = true) (opened : file.contents = .ok data)
    (taken : (Assembly.ofFile data false).value = .ok a)
    (failed : (finder.find a false).value = .error e) :
    (collect finder file false).value = .error e := by
  rw [collect_value, if_pos present, bind_eq_error_iff]
  exact .inr ⟨data, opened, bind_eq_error_iff.2 (.inr ⟨a, taken, failed⟩)⟩

def outcome (finder : Finder) (file : AssemblyFile) : String × Except Error FileDependencies :=
  (file.name, (collect finder file false).value)

namespace Task

def Fails (finder : Finder) (e : Error) : Task → Prop
  | waiting file => (collect finder file false).value = .error e
  | inserting _ _ _ => False
  | finished _ outcome => outcome = .error e

def work (finder : Finder) : Task → Nat
  | waiting file =>
    match (collect finder file false).value with
    | .ok found => found.dependencies.length + 2
    | .error _ => 1
  | inserting _ _ pending => pending.length + 1
  | finished _ _ => 0

end Task

namespace Pool

inductive Step (finder : Finder) : Pool → Pool → Prop where
  | task {before after : List Task} {t next : Task} {shared left : DependencyInfo}
      (h : t.step? finder false shared = some (next, left)) :
      Step finder ⟨before ++ t :: after, shared⟩ ⟨before ++ next :: after, left⟩

def Run (finder : Finder) : Pool → Pool → Prop := Relation.ReflTransGen (Step finder)

def isDone (p : Pool) : Bool := p.tasks.all Task.isFinished

def work (finder : Finder) (p : Pool) : Nat := p.tasks.foldr (fun t n => t.work finder + n) 0

end Pool

end FrameworkAudit.Aggregator

namespace FrameworkAudit.DependencyInfo.Fact

open Aggregator

variable [Host]

def FromOutcome : String × Except Error FileDependencies → Fact → Prop
  | (_, .ok file) => FromFile file
  | (name, .error e) => FromError name e.message

def FromTask (finder : Finder) : Task → Fact → Prop
  | .waiting file => FromOutcome (outcome finder file)
  | .inserting _ assembly pending => FromFile ⟨assembly, pending⟩
  | .finished _ (.ok assembly) => FromAssembly assembly
  | .finished name (.error e) => FromError name e.message

end FrameworkAudit.DependencyInfo.Fact

namespace FrameworkAudit.Aggregator

open DependencyInfo

variable [Host] {finder : Finder} {fact : Fact} {e : Error}

namespace Task

/-- All that a step of a task can be. -/
inductive Moves (finder : Finder) (shared : DependencyInfo) : Task → Task → DependencyInfo → Prop where
  | read {file : AssemblyFile} {found : FileDependencies}
      (h : (collect finder file false).value = .ok found) :
      Moves finder shared (waiting file) (inserting file.name found.assembly found.dependencies) shared
  | failed {file : AssemblyFile} {e : Error} (h : (collect finder file false).value = .error e) :
      Moves finder shared (waiting file) (finished file.name (.error e)) shared
  | insert {name : String} {assembly : AssemblyInfo} {d : Dependency} {rest : List Dependency} :
      Moves finder shared (inserting name assembly (d :: rest)) (inserting name assembly rest)
        (shared.addDependency d)
  | finish {name : String} {assembly : AssemblyInfo} :
      Moves finder shared (inserting name assembly []) (finished name (.ok assembly)) shared

variable {t next : Task} {shared left : DependencyInfo}

theorem moves_of_step? (h : t.step? finder false shared = some (next, left)) :
    Moves finder shared t next left := by
  cases t with
  | waiting file =>
    simp only [step?] at h
    split at h <;> rename_i hv <;> cases h
    · exact .read hv
    · exact .failed hv
  | inserting name assembly pending =>
    cases pending with
    | nil => cases h; exact .finish
    | cons d rest => cases h; exact .insert
  | finished name o => cases h

/-- A step moves facts from the task into the map and neither adds nor loses one. -/
theorem holds_step? (h : t.step? finder false shared = some (next, left)) :
    left.Holds fact ∨ fact.FromTask finder next ↔ shared.Holds fact ∨ fact.FromTask finder t := by
  cases moves_of_step? h with
  | read hv | failed hv => simp only [Fact.FromTask, outcome, hv, Fact.FromOutcome]
  | insert =>
    simp only [Fact.FromTask, Fact.FromFile, holds_addDependency, List.exists_mem_cons_iff, or_assoc]
  | finish => simp [Fact.FromTask, Fact.FromFile]

theorem tidy_step? (h : t.step? finder false shared = some (next, left)) (ht : shared.Tidy) :
    left.Tidy := by
  cases moves_of_step? h with
  | read | failed | finish => exact ht
  | insert => exact ht.addCallers

theorem work_step? (h : t.step? finder false shared = some (next, left)) :
    t.work finder = next.work finder + 1 := by
  cases moves_of_step? h with
  | read hv | failed hv => simp [work, hv]
  | insert | finish => rfl

/-- A step neither makes a task fail that would not nor saves one that would. -/
theorem fails_step? (h : t.step? finder false shared = some (next, left)) :
    next.Fails finder e ↔ t.Fails finder e := by
  cases moves_of_step? h with
  | read hv | failed hv => simp [Fails, hv]
  | insert | finish => simp [Fails]

theorem exists_step? (finder : Finder) {t : Task} (h : t.isFinished = false)
    (shared : DependencyInfo) : ∃ next left, t.step? finder false shared = some (next, left) := by
  cases t with
  | waiting file =>
    simp only [step?]
    split <;> exact ⟨_, _, rfl⟩
  | inserting name assembly pending => cases pending <;> exact ⟨_, _, rfl⟩
  | finished name o => simp [isFinished] at h

theorem endedWith_iff {t : Task} (h : t.isFinished = true) :
    t.endedWith e = true ↔ t.Fails finder e := by
  cases t with
  | finished name o => cases o <;> simp [endedWith, Fails]
  | waiting file => simp [isFinished] at h
  | inserting name assembly pending => simp [isFinished] at h

/-- Only the request to stop keeps an outcome from being added. -/
theorem addTo_of_finished (finder : Finder) (info : DependencyInfo) {t : Task}
    (h : t.isFinished = true) :
    t.Fails finder .cancelled ∧ addTo info t = .error .cancelled ∨
      ¬ t.Fails finder .cancelled ∧ ∃ next, addTo info t = .ok next ∧
        (info.Tidy → next.Tidy) ∧
        ∀ fact, next.Holds fact ↔ info.Holds fact ∨ fact.FromTask finder t := by
  cases t with
  | finished name o =>
    cases o with
    | ok assembly =>
      exact .inr ⟨by simp [Fails], _, rfl, .addAssembly, fun _ => holds_addAssembly⟩
    | error e =>
      by_cases stopped : e = .cancelled
      · subst stopped
        exact .inl ⟨rfl, rfl⟩
      · refine .inr ⟨by simpa [Fails] using stopped, info.addError name e.message, ?_, .addError,
          fun _ => holds_addError⟩
        cases e <;> first | rfl | exact absurd rfl stopped
  | waiting file => simp [isFinished] at h
  | inserting name assembly pending => simp [isFinished] at h

end Task

namespace Pool

variable {p q : Pool} {files : List AssemblyFile}

def Promises (finder : Finder) (p : Pool) (fact : Fact) : Prop :=
  p.shared.Holds fact ∨ ∃ t ∈ p.tasks, fact.FromTask finder t

theorem promises_start : (start files).Promises finder fact ↔
    ∃ file ∈ files, fact.FromOutcome (outcome finder file) := by
  simp [Promises, start, Fact.FromTask]

theorem promises_step (h : Step finder p q) : q.Promises finder fact ↔ p.Promises finder fact := by
  obtain @⟨before, after, t, next, shared, left, h⟩ := h
  have moved : left.Holds fact ∨ fact.FromTask finder next ↔ _ := Task.holds_step? h
  simp only [Promises, List.mem_append, List.mem_cons, or_and_right, exists_or, exists_eq_left]
  grind

theorem promises_run (h : Run finder p q) : q.Promises finder fact ↔ p.Promises finder fact := by
  induction h with
  | refl => rfl
  | tail _ step ih => exact (promises_step step).trans ih

theorem tidy_run (h : Run finder p q) (hp : p.shared.Tidy) : q.shared.Tidy := by
  induction h with
  | refl => exact hp
  | tail _ step ih =>
    obtain ⟨step⟩ := step
    exact Task.tidy_step? step ih

theorem work_step (h : Step finder p q) : p.work finder = q.work finder + 1 := by
  obtain @⟨before, after, t, next, shared, left, h⟩ := h
  have ht := Task.work_step? h
  induction before with
  | nil => simp only [work, List.nil_append, List.foldr_cons]; omega
  | cons s before ih =>
    simp only [work, List.cons_append, List.foldr_cons] at ih ⊢
    omega

theorem wellFounded_step (finder : Finder) : WellFounded fun q p => Step finder p q := by
  refine Subrelation.wf (fun {q p} h => ?_) (measure (work finder)).wf
  have less := work_step h
  change q.work finder < p.work finder
  omega

theorem exists_step (finder : Finder) (h : p.isDone = false) : ∃ q, Step finder p q := by
  obtain ⟨t, ht, hf⟩ : ∃ t ∈ p.tasks, t.isFinished = false := by simpa [isDone] using h
  obtain ⟨before, after, hs⟩ := List.append_of_mem ht
  obtain ⟨next, left, hn⟩ := Task.exists_step? finder hf p.shared
  refine ⟨⟨before ++ next :: after, left⟩, ?_⟩
  have : p = ⟨before ++ t :: after, p.shared⟩ := by rw [← hs]
  rw [this]
  exact .task hn

theorem exists_done (finder : Finder) (p : Pool) : ∃ q, Run finder p q ∧ q.isDone = true := by
  induction p using (wellFounded_step finder).induction with
  | _ p ih =>
    cases hd : p.isDone with
    | true => exact ⟨p, .refl, hd⟩
    | false =>
      obtain ⟨q, step⟩ := exists_step finder hd
      obtain ⟨r, run, done⟩ := ih q step
      exact ⟨r, .head step run, done⟩

theorem fails_step (h : Step finder p q) :
    (∃ t ∈ q.tasks, t.Fails finder e) ↔ ∃ t ∈ p.tasks, t.Fails finder e := by
  obtain @⟨before, after, t, next, shared, left, h⟩ := h
  simp only [List.mem_append, List.mem_cons, or_and_right, exists_or, exists_eq_left,
    Task.fails_step? h]

theorem fails_run (h : Run finder p q) :
    (∃ t ∈ q.tasks, t.Fails finder e) ↔ ∃ t ∈ p.tasks, t.Fails finder e := by
  induction h with
  | refl => rfl
  | tail _ step ih => exact (fails_step step).trans ih

/-- Adding the outcomes of finished tasks stops if one of them was asked to stop, and adds all of them
if none was. -/
theorem foldlM_addTo (finder : Finder) {tasks : List Task} (info : DependencyInfo)
    (h : ∀ t ∈ tasks, t.isFinished = true) :
    (∃ t ∈ tasks, t.Fails finder .cancelled) ∧
        tasks.foldlM Task.addTo info = .error .cancelled ∨
      (¬ ∃ t ∈ tasks, t.Fails finder .cancelled) ∧ ∃ all, tasks.foldlM Task.addTo info = .ok all ∧
        (info.Tidy → all.Tidy) ∧
        ∀ fact, all.Holds fact ↔ info.Holds fact ∨ ∃ t ∈ tasks, fact.FromTask finder t := by
  induction tasks generalizing info with
  | nil => exact .inr ⟨by simp, info, rfl, id, by simp⟩
  | cons t tasks ih =>
    obtain ⟨ht, hr⟩ := List.forall_mem_cons.1 h
    simp only [List.foldlM_cons, List.exists_mem_cons_iff]
    obtain ⟨stopped, added⟩ | ⟨goes, next, added, tidy, gain⟩ :=
      Task.addTo_of_finished finder info ht
    · exact .inl ⟨.inl stopped, by rw [added]; rfl⟩
    · rw [added]
      obtain ⟨stopped, rest⟩ | ⟨go, all, rest, keeps, gains⟩ := ih next hr
      · exact .inl ⟨.inr stopped, rest⟩
      · refine .inr ⟨by simp [goes, go], all, rest, keeps ∘ tidy, fun fact => ?_⟩
        rw [gains, gain, or_assoc]

/-! The turns that the program takes are such steps. -/

theorem run_turn (p : Logged Pool) (i : Nat) : Run finder p.value (turn finder false p i).value := by
  unfold turn
  split
  · exact .refl
  · rename_i t ht
    split
    · exact .refl
    · rename_i next left hn
      obtain ⟨hi, rfl⟩ := List.getElem?_eq_some_iff.1 ht
      have parts : p.value.tasks.take i ++ p.value.tasks[i] :: p.value.tasks.drop (i + 1) =
          p.value.tasks := by
        rw [List.getElem_cons_drop, List.take_append_drop]
      have step : Step finder _ ⟨p.value.tasks.take i ++ next :: p.value.tasks.drop (i + 1), left⟩ :=
        .task hn
      rw [parts] at step
      rw [List.set_eq_take_append_cons_drop, if_pos hi]
      exact .single step

theorem run_turns (turns : List Nat) (p : Logged Pool) :
    Run finder p.value (turns.foldl (turn finder false) p).value := by
  induction turns generalizing p with
  | nil => exact .refl
  | cons i turns ih => exact (run_turn p i).trans (ih _)

section

variable {before after : List Task} {shared : DependencyInfo}

theorem run_inserting (name : String) (assembly : AssemblyInfo) (pending : List Dependency) :
    Run finder ⟨before ++ .inserting name assembly pending :: after, shared⟩
      ⟨before ++ .finished name (.ok assembly) :: after, pending.foldl addDependency shared⟩ := by
  induction pending generalizing shared with
  | nil => exact .single (.task rfl)
  | cons d rest ih => exact .head (.task rfl) ih

theorem run_complete_task (t : Task) : Run finder ⟨before ++ t :: after, shared⟩
    ⟨before ++ (t.complete finder false shared).1 :: after, (t.complete finder false shared).2⟩ := by
  cases t with
  | waiting file =>
    cases hv : (collect finder file false).value with
    | ok found =>
      have read : (Task.waiting file).step? finder false shared =
          some (.inserting file.name found.assembly found.dependencies, shared) := by
        simp only [Task.step?, hv]
      rw [Task.complete, hv]
      exact .head (.task read) (run_inserting _ _ _)
    | error e =>
      have failed : (Task.waiting file).step? finder false shared =
          some (.finished file.name (.error e), shared) := by
        simp only [Task.step?, hv]
      rw [Task.complete, hv]
      exact .single (.task failed)
  | inserting name assembly pending => exact run_inserting name assembly pending
  | finished name outcome => exact .refl

theorem run_complete (before tasks : List Task) (shared : DependencyInfo) :
    Run finder ⟨before ++ tasks, shared⟩
      ⟨before ++ (complete finder false shared tasks).value.tasks,
        (complete finder false shared tasks).value.shared⟩ := by
  induction tasks generalizing before shared with
  | nil => exact .refl
  | cons t tasks ih =>
    have rest := ih (before ++ [(t.complete finder false shared).1]) (t.complete finder false shared).2
    simp only [List.append_assoc, List.singleton_append] at rest
    exact (run_complete_task t).trans rest

theorem isFinished_complete (tasks : List Task) :
    ∀ t ∈ (complete finder false shared tasks).value.tasks, t.isFinished = true := by
  induction tasks generalizing shared with
  | nil => simp [complete]
  | cons t tasks ih =>
    have here : (t.complete finder false shared).1.isFinished = true := by
      cases t with
      | waiting file =>
        simp only [Task.complete]
        split <;> rfl
      | inserting name assembly pending => rfl
      | finished name outcome => rfl
    exact List.forall_mem_cons.2 ⟨here, ih⟩

end

theorem run_run (finder : Finder) (turns : List Nat) (p : Pool) :
    Run finder p (p.run finder false turns).value ∧
      (p.run finder false turns).value.isDone = true := by
  refine ⟨(run_turns turns ⟨p, []⟩).trans (run_complete [] _ _), ?_⟩
  exact List.all_eq_true.2 (isFinished_complete _)

end Pool

end FrameworkAudit.Aggregator
