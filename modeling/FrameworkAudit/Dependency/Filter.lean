import FrameworkAudit.DocId
import FrameworkAudit.Identity

/-!
What counts as a framework. An assembly does if it has one of the known key tokens, one of the
known names, or a name that begins in a known way, all up to the case of ASCII letters.
-/

set_option autoImplicit false

namespace FrameworkAudit

structure Filter where
  acceptsAssembly : Identity → Bool
  acceptsMember : DocId → Bool

structure FilterConfig where
  keyTokens : List String
  namePrefixes : List String
  exactNames : List String
  deriving DecidableEq, Repr

namespace FilterConfig

def builtinTokens : List String :=
  ["b77a5c561934e089", "b03f5f7f11d50a3a", "31bf3856ad364e35", "7cec85d7bea7798e",
   "24eec0d8c86cda1e", "0738eb9f132ed756", "ddd0da4d3e678217", "84e04ff9cfb79065",
   "842cf8be1de50553"]

def empty : FilterConfig := ⟨[], [], []⟩

def standard : FilterConfig := ⟨builtinTokens, [], ["netstandard"]⟩

def addNamePrefix (c : FilterConfig) (head : String) : FilterConfig :=
  { c with namePrefixes := c.namePrefixes ++ [head] }

def addExactName (c : FilterConfig) (name : String) : FilterConfig :=
  { c with exactNames := c.exactNames ++ [name] }

def addKeyToken (c : FilterConfig) (token : String) : FilterConfig :=
  { c with keyTokens := c.keyTokens ++ [Text.fold token] }

def accepts [Host] (c : FilterConfig) (i : Identity) : Bool :=
  i.token?.any (fun token => c.keyTokens.any fun known => Text.sameFolded known token.hex) ||
    c.exactNames.any (fun known => Text.sameFolded known i.name) ||
    c.namePrefixes.any (fun head => Text.startsFolded head i.name)

/-- The filter of a configuration; it tracks every member. -/
def filter [Host] (c : FilterConfig) : Filter := ⟨c.accepts, fun _ => true⟩

end FilterConfig

end FrameworkAudit
