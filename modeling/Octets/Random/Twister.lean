import Octets.Random.Generator
/-!
The Mersenne Twister on 32-bit words, with 624 words of state: seeding from an
integer of any size, draws of any number of bits, draws below a bound, and byte
strings. Core Lean only.
-/
namespace Octets

/-- How many words of state there are. -/
abbrev Twister.size : Nat := 624

abbrev Twister.Words := Vector UInt32 Twister.size

structure Twister where
  words : Twister.Words
  /-- The next word to give out; the number past the last one means that all have been. -/
  next : Fin (Twister.size + 1)

namespace Twister

private def shiftSize : Nat := 397

private def word (a : Words) (i : Nat) : UInt32 := a[i]?.getD 0

/-- The state grown from one word by the linear rule. -/
def grow (seed : UInt32) : Words :=
  (List.range (size - 1)).foldl (fun a i =>
    let p := word a i
    a.setIfInBounds (i + 1) ((p ^^^ (p >>> 30)) * 1812433253 + UInt32.ofNat (i + 1)))
    (Vector.replicate size seed)

/-- The base-2^32 digits of a number, least significant first; one for zero. -/
def keyWords (n : Nat) : List UInt32 :=
  UInt32.ofNat n :: if n < 2 ^ 32 then [] else keyWords (n / 2 ^ 32)
termination_by n
decreasing_by omega

/-- Mix the key into the state: `i` walks the state, `j` the key. -/
private def mixKey (key : Array UInt32) : Nat → Nat → Nat → Words → Nat × Words
  | 0, i, _, a => (i, a)
  | steps + 1, i, j, a =>
    let p := word a (i - 1)
    let v := (word a i ^^^ ((p ^^^ (p >>> 30)) * 1664525)) + key.getD j 0 + UInt32.ofNat j
    let a := a.setIfInBounds i v
    let a := if i + 1 = size then a.setIfInBounds 0 v else a
    mixKey key steps (if i + 1 = size then 1 else i + 1)
      (if j + 1 = key.size then 0 else j + 1) a

/-- Stir the state once round. -/
private def stir : Nat → Nat → Words → Words
  | 0, _, a => a
  | steps + 1, i, a =>
    let p := word a (i - 1)
    let v := (word a i ^^^ ((p ^^^ (p >>> 30)) * 1566083941)) - UInt32.ofNat i
    let a := a.setIfInBounds i v
    let a := if i + 1 = size then a.setIfInBounds 0 v else a
    stir steps (if i + 1 = size then 1 else i + 1) a

/-- The generator of a seed; its sign does not matter. -/
def ofSeed (seed : Int) : Twister :=
  let key := (keyWords seed.natAbs).toArray
  let mixed := mixKey key (max size key.size) 1 0 (grow 19650218)
  ⟨(stir (size - 1) mixed.1 mixed.2).setIfInBounds 0 0x80000000, Fin.last size⟩

/-- One new word from the top bit of one, the rest of the next, and a third. -/
private def twist (upper lower far : UInt32) : UInt32 :=
  let y := (upper &&& 0x80000000) ||| (lower &&& 0x7FFFFFFF)
  far ^^^ (y >>> 1) ^^^ (if y &&& 1 = 0 then 0 else 0x9908B0DF)

/-- All words anew. -/
def refill (a : Words) : Words :=
  (List.range size).foldl (fun a i =>
    a.setIfInBounds i (twist (word a i) (word a ((i + 1) % size))
      (word a ((i + shiftSize) % size)))) a

private def temper (y : UInt32) : UInt32 :=
  let y := y ^^^ (y >>> 11)
  let y := y ^^^ ((y <<< 7) &&& 0x9D2C5680)
  let y := y ^^^ ((y <<< 15) &&& 0xEFC60000)
  y ^^^ (y >>> 18)

/-- Give out a word. -/
private def give (a : Words) (i : Fin size) : UInt32 × Twister := (temper (a.get i), ⟨a, i.succ⟩)

/-- The next 32 bits. -/
def draw (g : Twister) : UInt32 × Twister :=
  if h : g.next.val < size then give g.words ⟨g.next, h⟩ else give (refill g.words) 0

/-- The next `k` bits as a number: whole words from the least significant on, the
last one cut to its top bits. -/
def bits (k : Nat) (g : Twister) : Nat × Twister :=
  if k = 0 then (0, g)
  else if k ≤ 32 then
    let r := g.draw
    (r.1.toNat >>> (32 - k), r.2)
  else
    let r := g.draw
    let rest := bits (k - 32) r.2
    (r.1.toNat + 2 ^ 32 * rest.1, rest.2)
termination_by k

/-- How many bits a number has. -/
def bitLength (n : Nat) : Nat := if n = 0 then 0 else n.log2 + 1

/-- A draw of as many bits as `m + 1` has, and again while it is not below `m + 1`, so many
times at most. -/
def belowIn (m : Nat) : Nat → Twister → Option (Fin (m + 1) × Twister)
  | 0, _ => none
  | tries + 1, g =>
    let r := g.bits (bitLength (m + 1))
    if h : r.1 < m + 1 then some (⟨r.1, h⟩, r.2) else belowIn m tries r.2

/-- How many states there are of so many words. -/
@[irreducible] def states (words : Nat) : Nat := UInt32.size ^ words * (words + 1)

/-- A draw below `m + 1`. After as many tries in vain as there are states, one of them has come
back, so none stands for draws that go on for ever. -/
def below (m : Nat) (g : Twister) : Option (Fin (m + 1) × Twister) :=
  belowIn m (states size) g

/-- `n` bytes: `8 * n` bits, least significant byte first. -/
def bytes (g : Twister) (n : Nat) : Bytes := Bytes.littleOfNat n (g.bits (8 * n)).1

@[simp] theorem length_bytes (g : Twister) (n : Nat) : (g.bytes n).length = n := by
  simp [bytes]

/-- The generator after the first `k` draws of a shuffle of `n` items. -/
def after (g : Twister) (n : Nat) : Nat → Option Twister
  | 0 => some g
  | k + 1 => (after g n k).bind fun h => (below (n - 1 - k) h).map Prod.snd

/-- The source that answers what is drawn next. -/
def generator (g : Twister) : Generator where
  place n i := ((g.after n (n - 1 - i)).bind (below i)).elim (.error .endless) fun r => .ok r.1
  bytes n := .ok ⟨g.bytes n, g.length_bytes n⟩

end Twister
end Octets
