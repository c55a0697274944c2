import FrameworkAudit.Container
import FrameworkAudit.Text.Fields

set_option autoImplicit false

namespace FrameworkAudit

inductive AssemblyFile where
  | memory (name version : String) (data : ByteArray)
  /-- A path: whether a file is there, and its bytes or why they cannot be read. -/
  | disk (path : String) (isFile : Bool) (opened : Except String ByteArray)
  /-- A source of the caller's own, by the answers that it gives. -/
  | supplied (name version : String) (isPresent : Bool) (opened : Except Error ByteArray)

namespace AssemblyFile

/-- The last component of a path; empty components and components that name the same directory do
not count, and the parent directory has no name. -/
def lastComponent? (path : String) : Option String :=
  let components := (Text.fields '/' path).filter fun c => c ≠ "" ∧ c ≠ "."
  components.getLast?.filter (· ≠ "..")

def name : AssemblyFile → String
  | .memory name _ _ => name
  | .disk path _ _ => (lastComponent? path).getD path
  | .supplied name _ _ _ => name

def version : AssemblyFile → String
  | .memory _ version _ => version
  | .disk _ _ _ => ""
  | .supplied _ version _ _ => version

def path? : AssemblyFile → Option String
  | .disk path _ _ => some path
  | _ => none

/-- Whether there is something to open. Memory without bytes counts as nothing. -/
def isPresent : AssemblyFile → Bool
  | .memory _ _ data => !data.isEmpty
  | .disk _ isFile _ => isFile
  | .supplied _ _ isPresent _ => isPresent

def load (data : ByteArray) : Except Error ByteArray :=
  if data.isEmpty then .error .emptyInput else .ok data

def contents : AssemblyFile → Except Error ByteArray
  | .memory _ _ data => load data
  | .disk _ _ opened => (opened.mapError Error.unreadableFile).bind load
  | .supplied _ _ _ opened => opened

end AssemblyFile

end FrameworkAudit
