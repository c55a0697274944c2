set_option autoImplicit false

namespace FrameworkAudit

inductive LogLevel where
  | trace | debug | info | warn
  deriving DecidableEq, Repr

def LogLevel.name : LogLevel → String
  | .trace => "trace"
  | .debug => "debug"
  | .info => "info"
  | .warn => "warn"

structure LogLine where
  level : LogLevel
  text : String
  deriving DecidableEq, Repr

structure Logged (α : Type) where
  value : α
  lines : List LogLine

end FrameworkAudit
