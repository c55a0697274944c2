import FrameworkAudit.Assembly.Extract
import FrameworkAudit.AssemblyFile
import FrameworkAudit.Dependency.Info

/-!
Files collected at the same time. Each file is a task of a pool; a step reads the file of one task,
puts one dependency of it into the map that all tasks share, or finishes it. Steps of different
tasks may come in any order.
-/

set_option autoImplicit false

namespace FrameworkAudit.Aggregator

variable [Host]

def collect (finder : Finder) (file : AssemblyFile) (cancelled : Bool) :
    Logged (Except Error FileDependencies) :=
  let opened : Except Error ByteArray := do
    checkCancelled cancelled
    if file.isPresent then file.contents
    else .error (.unreadableFile s!"{file.name} does not exist")
  match opened with
  | .error e => ⟨.error e, []⟩
  | .ok data =>
    let extracted := Assembly.ofFile data cancelled
    match extracted.value with
    | .error e => ⟨.error e, extracted.lines⟩
    | .ok assembly =>
      let found := finder.find assembly cancelled
      ⟨found.value, extracted.lines ++ found.lines⟩

inductive Task where
  | waiting (file : AssemblyFile)
  /-- The file was read; some of its dependencies are not in the map yet. -/
  | inserting (name : String) (assembly : AssemblyInfo) (pending : List Dependency)
  | finished (name : String) (outcome : Except Error AssemblyInfo)

namespace Task

def step? (finder : Finder) (cancelled : Bool) (shared : DependencyInfo) :
    Task → Option (Task × DependencyInfo)
  | waiting file =>
    match (collect finder file cancelled).value with
    | .ok found => some (inserting file.name found.assembly found.dependencies, shared)
    | .error e => some (finished file.name (.error e), shared)
  | inserting name assembly [] => some (finished name (.ok assembly), shared)
  | inserting name assembly (d :: rest) =>
    some (inserting name assembly rest, shared.addDependency d)
  | finished _ _ => none

def lines (finder : Finder) (cancelled : Bool) : Task → List LogLine
  | waiting file => (collect finder file cancelled).lines
  | _ => []

def complete (finder : Finder) (cancelled : Bool) (shared : DependencyInfo) :
    Task → Task × DependencyInfo
  | waiting file =>
    match (collect finder file cancelled).value with
    | .ok found =>
      (finished file.name (.ok found.assembly),
        found.dependencies.foldl DependencyInfo.addDependency shared)
    | .error e => (finished file.name (.error e), shared)
  | inserting name assembly pending =>
    (finished name (.ok assembly), pending.foldl DependencyInfo.addDependency shared)
  | finished name outcome => (finished name outcome, shared)

def isFinished : Task → Bool
  | finished _ _ => true
  | _ => false

def endedWith (e : Error) : Task → Bool
  | finished _ (.error d) => d == e
  | _ => false

/-- Adds what a task has come to. A file that could not be read counts as an error of its own, unless
the reason is that someone has asked to stop. -/
def addTo (info : DependencyInfo) : Task → Except Error DependencyInfo
  | finished _ (.ok assembly) => .ok (info.addAssembly assembly)
  | finished _ (.error .cancelled) => .error .cancelled
  | finished name (.error e) => .ok (info.addError name e.message)
  | _ => .ok info

def failureLine? : Task → Option LogLine
  | finished name (.error e) => some ⟨.warn, s!"Failed to analyse {name}: {e.message}"⟩
  | _ => none

end Task

structure Pool where
  tasks : List Task
  shared : DependencyInfo

namespace Pool

def start (files : List AssemblyFile) : Pool := ⟨files.map .waiting, .empty⟩

def turn (finder : Finder) (cancelled : Bool) (p : Logged Pool) (i : Nat) : Logged Pool :=
  match p.value.tasks[i]? with
  | none => p
  | some t =>
    match t.step? finder cancelled p.value.shared with
    | none => p
    | some (next, left) =>
      ⟨⟨p.value.tasks.set i next, left⟩, p.lines ++ t.lines finder cancelled⟩

def complete (finder : Finder) (cancelled : Bool) (shared : DependencyInfo) :
    List Task → Logged Pool
  | [] => ⟨⟨[], shared⟩, []⟩
  | t :: rest =>
    let done := t.complete finder cancelled shared
    let others := complete finder cancelled done.2 rest
    ⟨⟨done.1 :: others.value.tasks, others.value.shared⟩,
      t.lines finder cancelled ++ others.lines⟩

/-- Lets tasks take steps in the given turns, and then the rest of their steps in order. -/
def run (finder : Finder) (cancelled : Bool) (turns : List Nat) (p : Pool) : Logged Pool :=
  let mixed := turns.foldl (turn finder cancelled) ⟨p, []⟩
  let done := complete finder cancelled mixed.value.shared mixed.value.tasks
  ⟨done.value, mixed.lines ++ done.lines⟩

/-- What a pool that is done has collected: the map, and the outcomes in the order of the files. An
arity that is too large in any file ends the program before an outcome is looked at. -/
def result (p : Pool) : Except Error DependencyInfo :=
  if p.tasks.any (Task.endedWith .arityOverflow) then .error .arityOverflow
  else p.tasks.foldlM Task.addTo p.shared

def failureLines (p : Pool) : List LogLine :=
  (p.tasks.takeWhile fun t => !t.endedWith .cancelled).filterMap Task.failureLine?

end Pool

end FrameworkAudit.Aggregator
