import FrameworkAudit.Identity.Version
import FrameworkAudit.Text.Ascii

set_option autoImplicit false

namespace FrameworkAudit

structure Target where
  platform : String
  version : Version
  deriving DecidableEq, Repr

namespace Target

instance : Ord Target := ⟨compareLex (compareOn platform) (compareOn version)⟩

instance : Std.TransOrd Target :=
  inferInstanceAs (Std.TransCmp (compareLex (compareOn platform) (compareOn version)))

instance : Std.LawfulEqOrd Target where
  eq_of_compare {a b} h := by
    change compareLex (compareOn platform) (compareOn version) a b = .eq at h
    simp only [compareLex_eq_eq, compareOn, Std.LawfulEqCmp.compare_eq_iff_eq] at h
    cases a; cases b; simp_all

def isPlatform (t : Target) (platform : String) : Bool := Text.sameFolded t.platform platform

def text (t : Target) : String := s!"{t.platform}, Version=v{t.version.shortText}"

def versionKey : String := "Version="

def dropVersionKey (s : String) : String :=
  if Text.startsFolded versionKey s then String.ofList (s.toList.drop versionKey.length) else s

def split (name : String) : Except Error (String × Option Version) :=
  let (platform, version?) := match Text.cut ',' name with
    | some (platform, version) => (Text.trim platform, some (Text.trim version))
    | none => (Text.trim name, none)
  if platform.isEmpty then .error (.unknownTarget name)
  else
    match version? with
    | none => .ok (platform, none)
    | some version =>
      match Version.parse (dropVersionKey version) with
      | .ok v => .ok (platform, some v)
      | .error _ => .error (.unknownTarget name)

/-- Reads a target; a platform without a version is none. -/
def parse (name : String) : Except Error Target := do
  match ← split name with
  | (platform, some version) => return ⟨platform, version⟩
  | (_, none) => throw (.unknownTarget name)

end Target

end FrameworkAudit
