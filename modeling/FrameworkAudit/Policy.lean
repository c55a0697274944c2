import FrameworkAudit.Identity.AssemblyInfo
import FrameworkAudit.Target

set_option autoImplicit false

namespace FrameworkAudit

/-- An assembly to be ignored. A display name means that one identity, a name alone every assembly
of the name; without targets the entry holds on all of them. -/
structure IgnoreEntry where
  identity : String
  targets : List Target
  deriving DecidableEq, Repr

namespace IgnoreEntry

def isDisplayName (e : IgnoreEntry) : Bool := e.identity.toList.contains ','

def names (e : IgnoreEntry) (a : AssemblyInfo) : Bool :=
  if e.isDisplayName then Text.sameFolded e.identity a.identity
  else Text.sameFolded (simpleName e.identity) a.name

def covers (e : IgnoreEntry) (a : AssemblyInfo) (t : Target) : Bool :=
  e.names a && (e.targets.isEmpty || e.targets.contains t)

end IgnoreEntry

structure Policy where
  ignored : List IgnoreEntry
  suppressed : List String
  deriving DecidableEq, Repr, Inhabited

namespace Policy

def empty : Policy := ⟨[], []⟩

def ignore (p : Policy) (identity : String) (targets : List Target) : Policy :=
  { p with ignored := p.ignored ++ [⟨identity, targets⟩] }

def suppress (p : Policy) (id : String) : Policy :=
  { p with suppressed := p.suppressed ++ [id] }

def ignores (p : Policy) (a : AssemblyInfo) (t : Target) : Bool :=
  p.ignored.any fun e => e.covers a t

def ignoresAll (p : Policy) (callers : List AssemblyInfo) (t : Target) : Bool :=
  !callers.isEmpty && callers.all fun a => p.ignores a t

def suppresses (p : Policy) (id : String) : Bool := p.suppressed.contains id

end Policy

end FrameworkAudit
