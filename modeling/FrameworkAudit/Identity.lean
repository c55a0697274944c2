import FrameworkAudit.Identity.Version
import FrameworkAudit.Text.Ascii

/-!
The identity of an assembly: its simple name, version, culture and public key token. Names differ
in more than the case of ASCII letters or not at all; the other parts compare as they are.

An identity has a display name, its parts in a fixed order between commas, from which it can be
read back.
-/

set_option autoImplicit false

namespace FrameworkAudit

structure KeyToken where
  bytes : Vector UInt8 8
  deriving DecidableEq, Repr

namespace KeyToken

instance : Ord KeyToken := ⟨compareOn bytes⟩

instance : Std.TransOrd KeyToken := inferInstanceAs (Std.TransCmp (compareOn bytes))

instance : Std.LawfulEqOrd KeyToken where
  eq_of_compare {a b} h := by
    change compareOn bytes a b = .eq at h
    simp only [compareOn, Std.LawfulEqCmp.compare_eq_iff_eq] at h
    cases a; cases b; simp_all

def ofBytes? (bytes : List UInt8) : Option KeyToken :=
  if h : bytes.toArray.size = 8 then some ⟨⟨bytes.toArray, h⟩⟩ else none

def toList (t : KeyToken) : List UInt8 := t.bytes.toList

def hex [Host] (t : KeyToken) : String := Host.hexText t.toList

/-- The token of a public key: the last eight bytes of its digest, in reverse. -/
def ofPublicKey [Host] (key : List UInt8) : KeyToken :=
  let digest := Host.digest key
  ⟨Vector.ofFn fun i => digest[19 - i.val]⟩

def parse [Host] (text : String) : Except Error KeyToken :=
  match Host.hexBytes text with
  | .error fault => .error (.malformed (.keyTokenHex text fault))
  | .ok bytes =>
    match ofBytes? bytes with
    | some token => .ok token
    | none => .error (.malformed (.keyTokenLength bytes.length text))

end KeyToken

structure Identity where
  name : String
  version : Version
  culture? : Option String
  token? : Option KeyToken
  deriving DecidableEq, Repr

namespace Identity

def nameKey (i : Identity) : String := Text.fold i.name

instance : Ord Identity :=
  ⟨compareLex (compareOn nameKey)
    (compareLex (compareOn version) (compareLex (compareOn culture?) (compareOn token?)))⟩

instance : Std.TransOrd Identity :=
  inferInstanceAs (Std.TransCmp (compareLex (compareOn nameKey)
    (compareLex (compareOn version) (compareLex (compareOn culture?) (compareOn token?)))))

def same (a b : Identity) : Bool :=
  Text.sameFolded a.name b.name && a.version == b.version && a.culture? == b.culture? &&
    a.token? == b.token?

/-- The order agrees with `same`: it tells two identities apart exactly if they differ. -/
theorem compare_eq_iff_same {a b : Identity} : compare a b = .eq ↔ a.same b = true := by
  change compareLex (compareOn nameKey) (compareLex (compareOn version)
    (compareLex (compareOn culture?) (compareOn token?))) a b = .eq ↔ _
  simp [compareLex_eq_eq, compareOn, nameKey, same, Text.sameFolded, and_assoc]

/-- The culture as it is kept: none for the neutral one. -/
def keepCulture (culture : String) : Option String :=
  if culture.isEmpty ∨ Text.sameFolded culture "neutral" then none else some culture

/-- The identity of given parts; a neutral culture is no culture. -/
def make (name : String) (version : Version) (culture? : Option String)
    (token? : Option KeyToken) : Identity :=
  ⟨name, version, culture?.bind keepCulture, token?⟩

def tokenText [Host] (i : Identity) : String := (i.token?.map KeyToken.hex).getD "null"

def display [Host] (i : Identity) : String :=
  let culture := i.culture?.getD "neutral"
  s!"{i.name}, Version={i.version.text}, Culture={culture}, PublicKeyToken={i.tokenText}"

def isStrongNamed (i : Identity) : Bool := i.token?.isSome

/-- Reads one part of a display name into what the parts before it gave. Parts that are no pair,
and pairs with another key, say nothing. -/
def parsePart [Host] (i : Identity) (part : String) : Except Error Identity :=
  match Text.cut '=' part with
  | none => .ok i
  | some (key, value) =>
    let value := Text.trim value
    match Text.trim key with
    | "Version" => do return { i with version := ← Version.parse value }
    | "Culture" => .ok { i with culture? := some value }
    | "PublicKeyToken" =>
      if value.isEmpty ∨ Text.sameFolded value "null" then .ok i
      else do return { i with token? := some (← KeyToken.parse value) }
    | _ => .ok i

def parse [Host] (text : String) : Except Error Identity :=
  match (Text.fields ',' text).map Text.trim with
  | [] => .error (.malformed .emptyName)
  | name :: parts =>
    if name.isEmpty then .error (.malformed .emptyName)
    else do
      let i ← parts.foldlM parsePart ⟨name, .zero, none, none⟩
      return make i.name i.version i.culture? i.token?

end Identity

/-- The simple name in a display name: what stands before the first comma, without blanks at its
ends. -/
def simpleName (display : String) : String :=
  Text.trim (((Text.cut ',' display).map Prod.fst).getD display)

end FrameworkAudit
