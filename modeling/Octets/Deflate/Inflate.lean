import Octets.Deflate.Huffman
/-!
Reading deflate data: blocks that are stored, or coded with a fixed or a described
pair of prefix codes. Whatever does not follow the format, or ends early, is
refused. Core Lean only.
-/
namespace Octets.Deflate

/-- The extra bits of the length symbols from 257 on, and the least length of each. -/
def lengthTable : List (Nat × Nat) :=
  [(0, 3), (0, 4), (0, 5), (0, 6), (0, 7), (0, 8), (0, 9), (0, 10), (1, 11), (1, 13),
   (1, 15), (1, 17), (2, 19), (2, 23), (2, 27), (2, 31), (3, 35), (3, 43), (3, 51),
   (3, 59), (4, 67), (4, 83), (4, 99), (4, 115), (5, 131), (5, 163), (5, 195),
   (5, 227), (0, 258)]

/-- The extra bits of the distance symbols, and the least distance of each. -/
def distanceTable : List (Nat × Nat) :=
  [(0, 1), (0, 2), (0, 3), (0, 4), (1, 5), (1, 7), (2, 9), (2, 13), (3, 17), (3, 25),
   (4, 33), (4, 49), (5, 65), (5, 97), (6, 129), (6, 193), (7, 257), (7, 385),
   (8, 513), (8, 769), (9, 1025), (9, 1537), (10, 2049), (10, 3073), (11, 4097),
   (11, 6145), (12, 8193), (12, 12289), (13, 16385), (13, 24577)]

/-- A number that a symbol begins and extra bits complete. -/
def extended (table : List (Nat × Nat)) (symbol : Nat) (s : BitStream) :
    Option (Nat × BitStream) := do
  let row ← table[symbol]?
  let r ← takeBits row.1 s
  return (row.2 + r.1, r.2)

/-- Repeat `n` bytes from `distance` bytes back; they may overlap what is written. -/
def repeated (distance : Nat) : Nat → Array UInt8 → Array UInt8
  | 0, out => out
  | n + 1, out => repeated distance n (out.push (out.getD (out.size - distance) 0))

/-- The symbols of a coded block up to its end; each takes a bit at least, so
`fuel` above the number of bits is never used up. -/
def codedBlock (literals distances : Code) :
    Nat → Array UInt8 → BitStream → Option (Array UInt8 × BitStream)
  | 0, _, _ => none
  | fuel + 1, out, s => do
    let (symbol, s) ← literals.next s
    if symbol < 256 then codedBlock literals distances fuel (out.push (UInt8.ofNat symbol)) s
    else if symbol = 256 then return (out, s)
    else
      let (n, s) ← extended lengthTable (symbol - 257) s
      let (symbol, s) ← distances.next s
      let (distance, s) ← extended distanceTable symbol s
      if out.size < distance then none
      else codedBlock literals distances fuel (repeated distance n out) s

def fixedLengths : List Nat :=
  List.replicate 144 8 ++ List.replicate 112 9 ++ List.replicate 24 7 ++ List.replicate 8 8

/-- The order in which the lengths of the length code are given. -/
def lengthOrder : List Nat :=
  [16, 17, 18, 0, 8, 7, 9, 6, 10, 5, 11, 4, 12, 3, 13, 2, 14, 1, 15]

/-- `n` three-bit numbers. -/
def takeTriples : Nat → BitStream → Option (List Nat × BitStream)
  | 0, s => some ([], s)
  | n + 1, s => do
    let a ← takeBits 3 s
    let r ← takeTriples n a.2
    return (a.1 :: r.1, r.2)

/-- Code lengths up to a total, with runs written short; `done` holds those before,
last first. -/
def takeLengths (code : Code) (total : Nat) :
    Nat → List Nat → BitStream → Option (List Nat × BitStream)
  | 0, _, _ => none
  | fuel + 1, done, s =>
    if done.length = total then some (done.reverse, s)
    else if total < done.length then none
    else do
      let (symbol, s) ← code.next s
      if symbol < 16 then takeLengths code total fuel (symbol :: done) s
      else if symbol = 16 then
        let last ← done.head?
        let (n, s) ← takeBits 2 s
        takeLengths code total fuel (List.replicate (n + 3) last ++ done) s
      else
        let (n, s) ← takeBits (if symbol = 17 then 3 else 7) s
        let run := n + (if symbol = 17 then 3 else 11)
        takeLengths code total fuel (List.replicate run 0 ++ done) s

/-- The two codes that a block describes. -/
def describedCodes (s : BitStream) : Option ((Code × Code) × BitStream) := do
  let (a, s) ← takeBits 5 s
  let (b, s) ← takeBits 5 s
  let (c, s) ← takeBits 4 s
  let literalCount := a + 257
  let distanceCount := b + 1
  if 286 < literalCount || 30 < distanceCount then none
  else
    let (triples, s) ← takeTriples (c + 4) s
    let given := lengthOrder.zip triples
    let lengthCode ← Code.ofLengths false ((List.range 19).map fun i => (given.lookup i).getD 0)
    let total := literalCount + distanceCount
    let (lengths, s) ← takeLengths lengthCode total (total + 1) [] s
    if lengths.getD 256 0 = 0 then none
    else
      let literals ← Code.ofLengths true (lengths.take literalCount)
      let distances ← Code.ofLengths true (lengths.drop literalCount)
      return ((literals, distances), s)

/-- One block after its first bit. -/
def block (out : Array UInt8) (s : BitStream) : Option (Array UInt8 × BitStream) := do
  let (kind, s) ← takeBits 2 s
  if kind = 0 then
    let (n, s) ← takeBits 16 (align s)
    let (complement, s) ← takeBits 16 s
    if n + complement = 65535 then
      let (x, s) ← takeBytes n s
      return (out ++ x, s)
    else none
  else if kind = 1 then
    let literals ← Code.ofLengths false fixedLengths
    let distances ← Code.ofLengths false (List.replicate 32 5)
    codedBlock literals distances (s.length + 1) out s
  else if kind = 2 then
    let (codes, s) ← describedCodes s
    codedBlock codes.1 codes.2 (s.length + 1) out s
  else none

/-- Blocks up to the one marked as the last; each takes three bits at least. -/
def blocks : Nat → Array UInt8 → BitStream → Option (Array UInt8 × BitStream)
  | 0, _, _ => none
  | fuel + 1, out, s => do
    let (last, s) ← takeBits 1 s
    let (out, s) ← block out s
    if last = 1 then return (out, s) else blocks fuel out s

/-- The content of deflate data, and the bytes after it. -/
def inflate? (x : Bytes) : Option (Bytes × Bytes) := do
  let s := bitsOf x
  let (out, rest) ← blocks (s.length + 1) #[] s
  return (out.toList, x.drop (x.length - rest.length / 8))

end Octets.Deflate
