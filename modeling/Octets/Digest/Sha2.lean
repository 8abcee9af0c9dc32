import Octets.Digest.Padding
/-!
The SHA-2 digests: one scheme on 32-bit and on 64-bit words. The constants are the
first bits after the point of the square and cube roots of primes, and are computed
here. Core Lean only.
-/
namespace Octets.Digest

/-- The greatest `r` with `r ^ k ≤ n`, found bit by bit below `2 ^ bits`. -/
def rootBelow (k n : Nat) : Nat → Nat → Nat
  | 0, r => r
  | bits + 1, r =>
    let s := r + 2 ^ bits
    rootBelow k n bits (if s ^ k ≤ n then s else r)

/-- The first `w` bits after the point of the `k`-th root of `p`. -/
def rootFraction (k w p : Nat) : Nat := rootBelow k (p * 2 ^ (k * w)) (w + 10) 0 % 2 ^ w

/-- The first eighty primes. -/
def primes : List Nat :=
  ((List.range 410).drop 2).filter fun n => (List.range n).all fun d => d < 2 || n % d != 0

/-- One of the two word widths: its rotations, and the numbers of rounds and of
bytes in a word. -/
structure Sha2 (w : Nat) where
  rounds : Nat
  wordBytes : Nat
  choice : Nat × Nat × Nat
  majority : Nat × Nat × Nat
  near : Nat × Nat × Nat
  far : Nat × Nat × Nat
  constants : Array (BitVec w)

namespace Sha2

def narrow : Sha2 32 :=
  ⟨64, 4, (6, 11, 25), (2, 13, 22), (7, 18, 3), (17, 19, 10),
    (primes.map fun p => BitVec.ofNat 32 (rootFraction 3 32 p)).toArray⟩

def wide : Sha2 64 :=
  ⟨80, 8, (14, 18, 41), (28, 34, 39), (1, 8, 7), (19, 61, 6),
    (primes.map fun p => BitVec.ofNat 64 (rootFraction 3 64 p)).toArray⟩

structure State (w : Nat) where
  a : BitVec w
  b : BitVec w
  c : BitVec w
  d : BitVec w
  e : BitVec w
  f : BitVec w
  g : BitVec w
  h : BitVec w

def State.words {w : Nat} (s : State w) : List (BitVec w) :=
  [s.a, s.b, s.c, s.d, s.e, s.f, s.g, s.h]

def State.add {w : Nat} (s t : State w) : State w :=
  ⟨s.a + t.a, s.b + t.b, s.c + t.c, s.d + t.d, s.e + t.e, s.f + t.f, s.g + t.g, s.h + t.h⟩

/-- The state of eight numbers. -/
def State.ofNats {w : Nat} (n : List Nat) : State w :=
  let v (i : Nat) : BitVec w := BitVec.ofNat w (n.getD i 0)
  ⟨v 0, v 1, v 2, v 3, v 4, v 5, v 6, v 7⟩

/-- The word turned by three amounts. -/
def turned {w : Nat} (r : Nat × Nat × Nat) (x : BitVec w) : BitVec w :=
  x.rotateRight r.1 ^^^ x.rotateRight r.2.1 ^^^ x.rotateRight r.2.2

/-- The word turned by two amounts and shifted by a third. -/
def smeared {w : Nat} (r : Nat × Nat × Nat) (x : BitVec w) : BitVec w :=
  x.rotateRight r.1 ^^^ x.rotateRight r.2.1 ^^^ (x >>> r.2.2)

/-- The words of all rounds: the sixteen of the block, and then each a sum of four
before it. -/
def schedule {w : Nat} (p : Sha2 w) (block : Bytes) : Array (BitVec w) :=
  (List.range (p.rounds - 16)).foldl (fun a i =>
    a.push (smeared p.far (a.getD (i + 14) 0) + a.getD (i + 9) 0 +
      smeared p.near (a.getD (i + 1) 0) + a.getD i 0))
    (wordsOf w .big (p.wordBytes - 1) block).toArray

def step {w : Nat} (p : Sha2 w) (words : Array (BitVec w)) (s : State w) (i : Nat) : State w :=
  let t := s.h + turned p.choice s.e + ((s.e &&& s.f) ^^^ (~~~s.e &&& s.g)) +
    p.constants.getD i 0 + words.getD i 0
  let u := turned p.majority s.a + ((s.a &&& s.b) ^^^ (s.a &&& s.c) ^^^ (s.b &&& s.c))
  ⟨t + u, s.a, s.b, s.c, s.d + t, s.e, s.f, s.g⟩

def compress {w : Nat} (p : Sha2 w) (s : State w) (block : Bytes) : State w :=
  s.add ((List.range p.rounds).foldl (p.step (p.schedule block)) s)

/-- The first `n` bytes of the digest from a starting state. -/
def hash {w : Nat} (p : Sha2 w) (start : State w) (n : Nat) (x : Bytes) : Bytes :=
  let block := 16 * p.wordBytes
  let s := (chunks (block - 1) (padded .big block (2 * p.wordBytes) x)).foldl p.compress start
  (bytesOf .big p.wordBytes s.words).take n

def start256 : State 32 := .ofNats ((primes.take 8).map (rootFraction 2 32))

/-- The second 32 bits after the point, for the ninth to the sixteenth prime. -/
def start224 : State 32 := .ofNats (((primes.drop 8).take 8).map (rootFraction 2 64))

def start512 : State 64 := .ofNats ((primes.take 8).map (rootFraction 2 64))

def start384 : State 64 := .ofNats (((primes.drop 8).take 8).map (rootFraction 2 64))

def hash224 : Bytes → Bytes := narrow.hash start224 28
def hash256 : Bytes → Bytes := narrow.hash start256 32
def hash384 : Bytes → Bytes := wide.hash start384 48
def hash512 : Bytes → Bytes := wide.hash start512 64

theorem length_hash {w : Nat} (p : Sha2 w) (start : State w) (n : Nat) (x : Bytes)
    (h : n ≤ 8 * p.wordBytes) : (p.hash start n x).length = n := by
  simp [hash, length_bytesOf, State.words]
  omega

end Sha2
end Octets.Digest
