import Octets.Digest.Padding
/-!
The SHA-1 digest: eighty steps on five 32-bit words, big-endian throughout. Core
Lean only.
-/
namespace Octets.Digest.Sha1

abbrev Word := BitVec 32

structure State where
  a : Word
  b : Word
  c : Word
  d : Word
  e : Word

def start : State := ⟨0x67452301, 0xefcdab89, 0x98badcfe, 0x10325476, 0xc3d2e1f0⟩

/-- The eighty words of a block: its own sixteen, and then each the rotated sum of
four before it. -/
def schedule (block : Bytes) : Array Word :=
  (List.range 64).foldl (fun w i =>
    w.push ((w.getD (i + 13) 0 ^^^ w.getD (i + 8) 0 ^^^ w.getD (i + 2) 0 ^^^
      w.getD i 0).rotateLeft 1)) (wordsOf 32 .big 3 block).toArray

/-- The mixing function and the constant of step `i`. -/
def mixed (i : Nat) (b c d : Word) : Word :=
  match i / 20 with
  | 0 => ((b &&& c) ||| (~~~b &&& d)) + 0x5a827999
  | 1 => (b ^^^ c ^^^ d) + 0x6ed9eba1
  | 2 => ((b &&& c) ||| (b &&& d) ||| (c &&& d)) + 0x8f1bbcdc
  | _ => (b ^^^ c ^^^ d) + 0xca62c1d6

def step (w : Array Word) (s : State) (i : Nat) : State :=
  ⟨s.a.rotateLeft 5 + mixed i s.b s.c s.d + s.e + w.getD i 0, s.a, s.b.rotateLeft 30, s.c, s.d⟩

def compress (s : State) (block : Bytes) : State :=
  let r := (List.range 80).foldl (step (schedule block)) s
  ⟨s.a + r.a, s.b + r.b, s.c + r.c, s.d + r.d, s.e + r.e⟩

def hash (x : Bytes) : Bytes :=
  let s := (chunks 63 (padded .big 64 8 x)).foldl compress start
  bytesOf .big 4 [s.a, s.b, s.c, s.d, s.e]

theorem length_hash (x : Bytes) : (hash x).length = 20 := by
  simp [hash, bytesOf]

end Octets.Digest.Sha1
