import FrameworkAudit.Host

set_option autoImplicit false

namespace FrameworkAudit

inductive Error where
  | malformed (defect : Defect)
  | outOfBounds
  | notSupported
  | emptyInput
  /-- The file itself could not be read; `reason` says why. -/
  | unreadableFile (reason : String)
  /-- The executable around the metadata could not be read. -/
  | container (reason : String)
  | recursionLimit (limit : Nat)
  | missingCoreLibrary (assembly : String)
  | unknownTarget (name : String)
  | cancelled
  /-- The number of arguments that a type name marks is too large to be added to those taken before
  it. This is no answer that a caller could look at: it ends the program. -/
  | arityOverflow
  deriving DecidableEq, Repr

namespace Error

def message [Host] : Error → String
  | .malformed defect => s!"Malformed - {(Host.place defect).text}: {defect.message}"
  | .outOfBounds => "Out of Bound read would have occurred!"
  | .notSupported => "This file type is not supported"
  | .emptyInput => "Provided input was empty"
  | .unreadableFile reason => reason
  | .container reason => reason
  | .recursionLimit limit => s!"Reach the maximum recursion level allowed - {limit}"
  | .missingCoreLibrary assembly =>
    s!"No core library found for primitive dependencies of {assembly}"
  | .unknownTarget name => s!"Unknown target - {name}"
  | .cancelled => "Operation was cancelled"
  | .arityOverflow => "attempt to add with overflow"

/-- Failures that damaged metadata causes; only the reference they concern is lost. -/
def isMalformedInput : Error → Bool
  | .malformed _ | .outOfBounds | .recursionLimit _ => true
  | _ => false

end Error

end FrameworkAudit
