import FrameworkAudit.BreakingChange
import FrameworkAudit.Sorted
import FrameworkAudit.Target

set_option autoImplicit false

namespace FrameworkAudit

structure Catalog where
  isAssembly : String → Bool
  isMember : DocId → Bool
  /-- The version in which a target's platform got a member, if the target has it. -/
  introduced? : DocId → Target → Option Version
  /-- The members that a member overrides or belongs to. -/
  ancestors : DocId → List DocId
  targets : List Target
  latest? : String → Option Version
  breaking : DocId → List BreakingChange
  recommended? : DocId → Option String
  sourceCompatible? : DocId → Option String

namespace Catalog

def supports (c : Catalog) (id : DocId) (t : Target) : Bool := (c.introduced? id t).isSome

/-- The target of the catalog that a name means. A name without a version means the latest. -/
def resolve (c : Catalog) (name : String) : Except Error Target := do
  let (platform, version?) ← Target.split name
  match version?.or (c.latest? platform) with
  | none => throw (.unknownTarget name)
  | some version =>
    match c.targets.find? fun t => t.isPlatform platform && t.version == version with
    | some target => return target
    | none => throw (.unknownTarget name)

/-- Supports on every target of the primary platform what the latest version of the fallback
platform has. Such a member counts as old as the target itself. -/
def widen (c : Catalog) (primary fallback : String) : Catalog :=
  { c with introduced? := fun id t =>
      let own := c.introduced? id t
      if own.isSome ∨ !t.isPlatform primary then own
      else do
        let latest ← c.latest? fallback
        let _ ← c.introduced? id ⟨fallback, latest⟩
        return t.version }

def aspNetCore : String := "ASP.NET Core"

def netCore : String := ".NET Core"

end Catalog

structure CatalogTables where
  targets : List Target
  /-- The names of assemblies, folded. -/
  assemblies : List String
  members : List (DocId × List (String × Version))
  ancestors : List (DocId × List DocId)
  breaking : List BreakingChange
  recommended : List (DocId × String)
  sourceCompatible : List (DocId × String)

namespace CatalogTables

def empty : CatalogTables := ⟨[], [], [], [], [], [], []⟩

def addTarget (c : CatalogTables) (t : Target) : CatalogTables :=
  { c with targets := Sorted.insert compare t c.targets }

def addAssembly (c : CatalogTables) (name : String) : CatalogTables :=
  { c with assemblies := Sorted.insert compare (Text.fold name) c.assemblies }

def addMember (c : CatalogTables) (id : DocId) (platform : String) (v : Version) :
    CatalogTables :=
  { c with members := Sorted.alter compare id [] (· ++ [(platform, v)]) c.members }

def addUnsupported (c : CatalogTables) (id : DocId) : CatalogTables :=
  { c with members := Sorted.alter compare id [] (fun versions => versions) c.members }

/-- Of several lists of ancestors for one member the last holds. -/
def addAncestors (c : CatalogTables) (id : DocId) (ancestors : List DocId) : CatalogTables :=
  { c with ancestors := Sorted.alter compare id [] (fun _ => ancestors) c.ancestors }

def addBreaking (c : CatalogTables) (change : BreakingChange) : CatalogTables :=
  { c with breaking := c.breaking ++ [change] }

def addRecommended (c : CatalogTables) (id : DocId) (text : String) : CatalogTables :=
  { c with recommended := Sorted.alter compare id "" (fun _ => text) c.recommended }

def addSourceCompatible (c : CatalogTables) (id : DocId) (text : String) : CatalogTables :=
  { c with sourceCompatible := Sorted.alter compare id "" (fun _ => text) c.sourceCompatible }

def memberCount (c : CatalogTables) : Nat := c.members.length

def least : List Version → Option Version
  | [] => none
  | v :: rest => some (rest.foldl (fun a b => if b < a then b else a) v)

def greatest : List Version → Option Version
  | [] => none
  | v :: rest => some (rest.foldl (fun a b => if a < b then b else a) v)

/-- The earliest version of the target's platform, not after the target itself, that has the
member. -/
def introduced? (c : CatalogTables) (id : DocId) (t : Target) : Option Version := do
  let versions ← Sorted.find? compare id c.members
  least ((versions.filter fun entry =>
    t.isPlatform entry.1 && decide (entry.2 ≤ t.version)).map Prod.snd)

def latest? (c : CatalogTables) (platform : String) : Option Version :=
  greatest ((c.targets.filter fun t => t.isPlatform platform).map Target.version)

def catalog (c : CatalogTables) : Catalog where
  isAssembly name := c.assemblies.contains (Text.fold name)
  isMember id := (Sorted.find? compare id c.members).isSome
  introduced? := c.introduced?
  ancestors id := (Sorted.find? compare id c.ancestors).getD []
  targets := c.targets
  latest? := c.latest?
  breaking id := c.breaking.filter fun change => change.affects id
  recommended? id := Sorted.find? compare id c.recommended
  sourceCompatible? id := Sorted.find? compare id c.sourceCompatible

end CatalogTables

end FrameworkAudit
