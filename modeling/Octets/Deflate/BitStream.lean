import Octets.Bytes
/-!
Bytes as a stream of bits, the least significant bit of each byte first. What is
left of whole bytes always ends at a byte, so the number of bits left tells where
the next byte begins. Core Lean only.
-/
namespace Octets.Deflate

abbrev BitStream := List Bool

def bitsOf (x : Bytes) : BitStream :=
  x.flatMap fun b => (List.range 8).map b.toNat.testBit

/-- The next `n` bits as a number, the first of them the lowest. -/
def takeBits : Nat → BitStream → Option (Nat × BitStream)
  | 0, s => some (0, s)
  | _ + 1, [] => none
  | n + 1, b :: s => (takeBits n s).map fun r => (b.toNat + 2 * r.1, r.2)

/-- The stream from the next byte on. -/
def align (s : BitStream) : BitStream := s.drop (s.length % 8)

/-- The next `n` bytes. -/
def takeBytes : Nat → BitStream → Option (Bytes × BitStream)
  | 0, s => some ([], s)
  | n + 1, s => do
    let b ← takeBits 8 s
    let r ← takeBytes n b.2
    return (UInt8.ofNat b.1 :: r.1, r.2)

end Octets.Deflate
