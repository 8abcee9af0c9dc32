import Octets.Digest.Padding
/-!
The SHA-3 digests: a sponge over the permutation Keccak of 25 lanes of 64 bits.
Lane `(x, y)` is number `x + 5 * y`. Core Lean only.
-/
namespace Octets.Digest.Sha3

abbrev Lane := BitVec 64
abbrev State := Array Lane

def lane (s : State) (x y : Nat) : Lane := s.getD (x % 5 + 5 * (y % 5)) 0

/-- A state from its lanes. -/
def ofLanes (f : Nat → Nat → Lane) : State :=
  ((List.range 25).map fun i => f (i % 5) (i / 5)).toArray

/-- Add to each lane the parities of two neighbouring columns. -/
def theta (s : State) : State :=
  let parity (x : Nat) : Lane :=
    lane s x 0 ^^^ lane s x 1 ^^^ lane s x 2 ^^^ lane s x 3 ^^^ lane s x 4
  let column := ((List.range 5).map fun x =>
    parity ((x + 4) % 5) ^^^ (parity ((x + 1) % 5)).rotateLeft 1).toArray
  ofLanes fun x y => lane s x y ^^^ column.getD x 0

/-- The lanes in the order in which rotations are handed out, each with its own. -/
def rotationsFrom (x y t : Nat) : Nat → List ((Nat × Nat) × Nat)
  | 0 => []
  | n + 1 => ((x, y), (t + 1) * (t + 2) / 2 % 64) ::
      rotationsFrom y ((2 * x + 3 * y) % 5) (t + 1) n

def rotations : List ((Nat × Nat) × Nat) := rotationsFrom 1 0 0 24

/-- Turn each lane by its own amount and move it to its new place. -/
def rhoPi (s : State) : State :=
  ofLanes fun x y =>
    let source := (x + 3 * y) % 5
    (lane s source x).rotateLeft ((rotations.lookup (source, x)).getD 0)

/-- Combine each lane with the next two of its row. -/
def chi (s : State) : State :=
  ofLanes fun x y => lane s x y ^^^ (~~~lane s (x + 1) y &&& lane s (x + 2) y)

/-- One step of the shift register behind the round constants. -/
def shiftRegister (r : Nat) : Nat :=
  let doubled := 2 * r
  if 256 ≤ doubled then (doubled ^^^ 0x171) % 256 else doubled

/-- The constant of a round from the register, and the register after it. -/
def roundConstant (r : Nat) : Lane × Nat :=
  (List.range 7).foldl (fun (c : Lane × Nat) j =>
    (if c.2 % 2 = 1 then c.1 ^^^ (1 <<< (2 ^ j - 1) : Lane) else c.1, shiftRegister c.2)) (0, r)

def constantsFrom (r : Nat) : Nat → List Lane
  | 0 => []
  | n + 1 => let c := roundConstant r; c.1 :: constantsFrom c.2 n

def constants : List Lane := constantsFrom 1 24

def round (s : State) (c : Lane) : State :=
  (chi (rhoPi (theta s))).modify 0 (· ^^^ c)

def permute (s : State) : State := constants.foldl round s

/-- The message closed with the domain bits and the two ends of the padding. -/
def closed (rate : Nat) (x : Bytes) : Bytes :=
  let n := rate - x.length % rate
  if n = 1 then x ++ [0x86] else x ++ 0x06 :: Bytes.zeros (n - 2) ++ [0x80]

/-- Add a block to the state and permute. -/
def absorb (s : State) (block : Bytes) : State :=
  let words := (wordsOf 64 .little 7 block).toArray
  permute (s.mapIdx fun i v => v ^^^ words.getD i 0)

/-- The digest of `n` bytes; the rate is what twice as many leave of the state. -/
def hash (n : Nat) (x : Bytes) : Bytes :=
  let rate := 200 - 2 * n
  let s := (chunks (rate - 1) (closed rate x)).foldl absorb (Array.replicate 25 0)
  (bytesOf .little 8 ((List.range 25).map fun i => s.getD i 0)).take n

theorem length_hash (n : Nat) (x : Bytes) (h : n ≤ 200) : (hash n x).length = n := by
  simp [hash, length_bytesOf]
  omega

end Octets.Digest.Sha3
