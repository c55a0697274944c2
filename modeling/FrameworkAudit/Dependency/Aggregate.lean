import FrameworkAudit.Dependency.Pool

set_option autoImplicit false

namespace FrameworkAudit

structure Aggregator where
  finder : Finder
  /-- Whether files are read at the same time. -/
  parallel : Bool

namespace Aggregator

variable [Host]

def summary (info : DependencyInfo) : LogLine :=
  let members := info.members.length
  let assemblies := info.assemblies.length
  let errors := info.errors.length
  ⟨.debug, s!"Aggregated {members} dependencies from {assemblies} assemblies, {errors} failed"⟩

/-- The dependencies of all files, unless someone has asked to stop. Files are read one after the
other, or in the turns that threads take. -/
def aggregate (g : Aggregator) (files : List AssemblyFile) (cancelled : Bool) :
    Logged (Except Error DependencyInfo) :=
  let turns := if g.parallel then Host.turns files.length else []
  let done := (Pool.start files).run g.finder cancelled turns
  match checkCancelled cancelled with
  | .error e => ⟨.error e, done.lines⟩
  | .ok () =>
    let lines := done.lines ++ done.value.failureLines
    match done.value.result with
    | .error e => ⟨.error e, lines⟩
    | .ok info => ⟨.ok info, lines ++ [summary info]⟩

end Aggregator

end FrameworkAudit
