set_option autoImplicit false

namespace FrameworkAudit.Sha1

structure State where
  a : UInt32
  b : UInt32
  c : UInt32
  d : UInt32
  e : UInt32
  deriving DecidableEq, Repr

def start : State := ⟨0x67452301, 0xEFCDAB89, 0x98BADCFE, 0x10325476, 0xC3D2E1F0⟩

def rotateLeft (x : UInt32) (n : UInt32) : UInt32 := (x <<< n) ||| (x >>> (32 - n))

def bigEndian : Nat → Nat → List UInt8
  | 0, _ => []
  | width + 1, n => bigEndian width (n / 256) ++ [UInt8.ofNat (n % 256)]

/-- The message, a one bit, zeros up to a whole block less eight bytes, and the length in bits. -/
def pad (message : List UInt8) : List UInt8 :=
  let zeros := (119 - message.length % 64) % 64
  message ++ 0x80 :: List.replicate zeros 0 ++ bigEndian 8 (8 * message.length)

/-- Big-endian words of four bytes; bytes at the end that fill no word are left out. -/
def words : List UInt8 → List UInt32
  | a :: b :: c :: d :: rest =>
    ((a.toUInt32 <<< 24) ||| (b.toUInt32 <<< 16) ||| (c.toUInt32 <<< 8) ||| d.toUInt32) ::
      words rest
  | _ => []

/-- Adds `count` words, each from four of the sixteen before it; the newest stands first. -/
def extend : Nat → List UInt32 → List UInt32
  | 0, newest => newest
  | count + 1, newest =>
    let mixed := newest[2]?.getD 0 ^^^ newest[7]?.getD 0 ^^^ newest[13]?.getD 0 ^^^
      newest[15]?.getD 0
    extend count (rotateLeft mixed 1 :: newest)

def schedule (block : List UInt32) : List UInt32 := (extend 64 block.reverse).reverse

def roundTerm (i : Nat) (s : State) : UInt32 :=
  if i < 20 then ((s.b &&& s.c) ||| (~~~s.b &&& s.d)) + 0x5A827999
  else if i < 40 then (s.b ^^^ s.c ^^^ s.d) + 0x6ED9EBA1
  else if i < 60 then ((s.b &&& s.c) ||| (s.b &&& s.d) ||| (s.c &&& s.d)) + 0x8F1BBCDC
  else (s.b ^^^ s.c ^^^ s.d) + 0xCA62C1D6

def round (s : State) (entry : UInt32 × Nat) : State :=
  ⟨rotateLeft s.a 5 + roundTerm entry.2 s + s.e + entry.1, s.a, rotateLeft s.b 30, s.c, s.d⟩

def mix (s : State) (block : List UInt32) : State :=
  let t := (schedule block).zipIdx.foldl round s
  ⟨s.a + t.a, s.b + t.b, s.c + t.c, s.d + t.d, s.e + t.e⟩

def mixBlocks : Nat → State → List UInt32 → State
  | 0, s, _ => s
  | count + 1, s, rest => mixBlocks count (mix s (rest.take 16)) (rest.drop 16)

def digest (message : List UInt8) : Vector UInt8 20 :=
  let padded := words (pad message)
  let s := mixBlocks (padded.length / 16) start padded
  ⟨([s.a, s.b, s.c, s.d, s.e].flatMap fun word => bigEndian 4 word.toNat).toArray,
    by simp [bigEndian]⟩

end FrameworkAudit.Sha1
