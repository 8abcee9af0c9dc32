import Octets.Digest.Padding
/-!
The MD5 digest: four rounds of sixteen steps on four 32-bit words, little-endian
throughout. Core Lean only.
-/
namespace Octets.Digest.Md5

abbrev Word := BitVec 32

structure State where
  a : Word
  b : Word
  c : Word
  d : Word

def start : State := ⟨0x67452301, 0xefcdab89, 0x98badcfe, 0x10325476⟩

/-- The integer part of `2 ^ 32` times the magnitude of the sine of 1 to 64. -/
def sines : List Nat :=
  [0xd76aa478, 0xe8c7b756, 0x242070db, 0xc1bdceee, 0xf57c0faf, 0x4787c62a,
   0xa8304613, 0xfd469501, 0x698098d8, 0x8b44f7af, 0xffff5bb1, 0x895cd7be,
   0x6b901122, 0xfd987193, 0xa679438e, 0x49b40821, 0xf61e2562, 0xc040b340,
   0x265e5a51, 0xe9b6c7aa, 0xd62f105d, 0x02441453, 0xd8a1e681, 0xe7d3fbc8,
   0x21e1cde6, 0xc33707d6, 0xf4d50d87, 0x455a14ed, 0xa9e3e905, 0xfcefa3f8,
   0x676f02d9, 0x8d2a4c8a, 0xfffa3942, 0x8771f681, 0x6d9d6122, 0xfde5380c,
   0xa4beea44, 0x4bdecfa9, 0xf6bb4b60, 0xbebfbc70, 0x289b7ec6, 0xeaa127fa,
   0xd4ef3085, 0x04881d05, 0xd9d4d039, 0xe6db99e5, 0x1fa27cf8, 0xc4ac5665,
   0xf4292244, 0x432aff97, 0xab9423a7, 0xfc93a039, 0x655b59c3, 0x8f0ccc92,
   0xffeff47d, 0x85845dd1, 0x6fa87e4f, 0xfe2ce6e0, 0xa3014314, 0x4e0811a1,
   0xf7537e82, 0xbd3af235, 0x2ad7d2bb, 0xeb86d391]

/-- The rotation of step `i`. -/
def rotation (i : Nat) : Nat :=
  let row := match i / 16 with
    | 0 => [7, 12, 17, 22]
    | 1 => [5, 9, 14, 20]
    | 2 => [4, 11, 16, 23]
    | _ => [6, 10, 15, 21]
  row.getD (i % 4) 0

/-- The mixing function of step `i`. -/
def mixed (i : Nat) (b c d : Word) : Word :=
  match i / 16 with
  | 0 => (b &&& c) ||| (~~~b &&& d)
  | 1 => (d &&& b) ||| (~~~d &&& c)
  | 2 => b ^^^ c ^^^ d
  | _ => c ^^^ (b ||| ~~~d)

/-- The word of the block that step `i` takes. -/
def wordIndex (i : Nat) : Nat :=
  match i / 16 with
  | 0 => i
  | 1 => (5 * i + 1) % 16
  | 2 => (3 * i + 5) % 16
  | _ => 7 * i % 16

def step (block : Array Word) (s : State) (sine : Nat × Nat) : State :=
  let i := sine.2
  let sum := s.a + mixed i s.b s.c s.d + BitVec.ofNat 32 sine.1 + block.getD (wordIndex i) 0
  ⟨s.d, s.b + sum.rotateLeft (rotation i), s.b, s.c⟩

def compress (s : State) (block : Bytes) : State :=
  let r := sines.zipIdx.foldl (step (wordsOf 32 .little 3 block).toArray) s
  ⟨s.a + r.a, s.b + r.b, s.c + r.c, s.d + r.d⟩

def hash (x : Bytes) : Bytes :=
  let s := (chunks 63 (padded .little 64 8 x)).foldl compress start
  bytesOf .little 4 [s.a, s.b, s.c, s.d]

theorem length_hash (x : Bytes) : (hash x).length = 16 := by
  simp [hash, bytesOf]

end Octets.Digest.Md5
