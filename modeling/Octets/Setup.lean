import Octets.Transform
/-!
Transformers as they are constructed and called. The constructor checks its arguments and
keeps them, the name of a digest in its canonical spelling. A call has what was kept and
the content of an array, and it takes nothing on trust: it looks names up anew, its
numbers have to fit the bytes they are written to, and its indexes the array. Core Lean
only.
-/
namespace Octets

/-- What can be raised by a call: a fault of the library or of a source of random numbers; a
number, an index or the name of a digest that the language refuses. -/
inductive Raised
  | fault (f : Fault)
  | negativeShift
  | tooWide
  | noByte
  | noIndex
  | noDigest
  deriving DecidableEq, Repr

/-- The outcome of a call. -/
abbrev Called := Except Raised

namespace Called

/-- What the library refuses is raised as it is. -/
def of {α : Type} (r : Outcome α) : Called α := r.mapError .fault

/-- A number in `w` bytes, most significant first, if it fits. -/
def toBytes (w n : Nat) : Called Bytes :=
  if n < 256 ^ w then .ok (Bytes.ofNat w n) else .error .tooWide

/-- The array with the byte at index `i` changed as a number, if there is one and the
result is one. -/
def update (f : Nat → Nat) (i : Nat) (x : Bytes) : Called Bytes :=
  match x[i]? with
  | none => .error .noIndex
  | some b => if f b.toNat < 256 then .ok (x.set i (UInt8.ofNat (f b.toNat))) else .error .noByte

/-- The array with the items at the given index pairs swapped, one pair after another. -/
def swapAll : List (Nat × Nat) → Bytes → Called Bytes
  | [], x => .ok x
  | (i, j) :: pairs, x =>
    match x[i]?, x[j]? with
    | some a, some b => swapAll pairs ((x.set i b).set j a)
    | _, _ => .error .noIndex

end Called

namespace Transform

/-- What a transformer is constructed with. -/
inductive Setup
  | bitwise (operand : Bytes) (op : Bits.Operation)
  | negate
  | shift (count : Int) (d : Bits.Direction) (o : ByteOrder)
  | switchBit (position : Int) (value : Option Bool) (o : ByteOrder)
  | reverse
  | copy (offset length : Int)
  | resize (length : Int) (anchor : Layout.Anchor)
  | concat (parts : List Bytes)
  | sort (key : Option SortKey) (descending : Bool)
  | shuffle (g : Generator)
  | digest (l : DigestLibrary) (algorithm : Text)
  | hmac (l : DigestLibrary) (key : Bytes) (algorithm : Text)
  | checksum (algorithm : Text) (append : Bool) (width : Int)
  | compress {c : Deflate.Container} (p : c.Packer)
  | decompress (c : Deflate.Container)

namespace Setup

/-- What the constructor keeps of its arguments, once it has checked them. -/
def construct : Setup → Outcome Setup
  | shift count d o => do
    Check.notNegative count "shift count"
    return shift count d o
  | copy offset length => do
    Check.notNegative offset "offset"
    Check.notNegative length "length"
    return copy offset length
  | resize length anchor => do
    Check.notNegative length "new length"
    return resize length anchor
  | concat parts => .ok (concat [parts.flatten])
  | digest l algorithm => do
    let d ← l.resolve algorithm
    return digest l d.name
  | hmac l key algorithm => do
    let d ← l.resolve algorithm
    return hmac l key d.name
  | checksum algorithm append width => do
    let _ ← ChecksumRule.build algorithm width
    return checksum algorithm append width
  | s => .ok s

/-- The transformer that these arguments stand for. -/
def build : Setup → Outcome Transformer
  | bitwise operand op => .ok (Transform.bitwise op operand).toTransformer
  | negate => .ok Transform.negate.toTransformer
  | shift count d o => (shiftBy d count o).map toTransformer
  | switchBit position value o => .ok (Transform.switchBit position value o).toTransformer
  | reverse => .ok Transform.reverse.toTransformer
  | copy offset length => (copyRange offset length).map toTransformer
  | resize length anchor => (resizeTo anchor length).map toTransformer
  | concat parts => .ok (Transform.concat parts.flatten).toTransformer
  | sort key descending => .ok (Transform.sort key descending).toTransformer
  | shuffle g => .ok (Transform.shuffle g).toTransformer
  | digest l algorithm => (l.resolve algorithm).map fun d => (Transform.digest d).toTransformer
  | hmac l key algorithm =>
    (l.resolve algorithm).map fun d => (Transform.hmac d key).toTransformer
  | checksum algorithm append width =>
    (ChecksumRule.build algorithm width).map fun rule =>
      (Transform.checksum rule append).toTransformer
  | compress p => .ok (Transform.compress p).toTransformer
  | decompress c => .ok (Transform.decompress c).toTransformer

/-- The numbers of a byte from 255 down to 0. -/
def inverted : Bytes := (List.range 256).map fun i => UInt8.ofNat (255 - i)

/-- Shift a number within `w` bytes. -/
def shifted (d : Bits.Direction) (count w v : Nat) : Nat :=
  match d with
  | .left => (v <<< count) &&& ((1 <<< (8 * w)) - 1)
  | .right => v >>> count

/-- A byte, as a number, with the bits of `mask` switched. -/
def masked (mask : Nat) (value : Option Bool) (b : Nat) : Nat :=
  match value with
  | none => b ^^^ mask
  | some true => b ||| mask
  | some false => b &&& (0xFF ^^^ mask)

/-- The digest of a name, which is looked up for its canonical name, and that for the digest. -/
def digestOf (l : DigestLibrary) (algorithm : Text) : Called Digest := do
  let d ← Called.of (l.resolve algorithm)
  (l.find? d.name).elim (.error .noDigest) .ok

/-- The low bytes of a checksum, the name of which is looked up. -/
def checksumOf (algorithm : Text) (width : Int) (x : Bytes) : Called Bytes := do
  let rule ← Called.of (ChecksumRule.build algorithm width)
  let y ← Called.toBytes 4 (rule.algorithm.value x &&& 0xFFFFFFFF)
  return y.drop (4 - width).toNat

/-- Call the transformer that keeps these arguments on an array with the content `x`. -/
def call (s : Setup) (x : Bytes) : Called Bytes :=
  match s with
  | bitwise operand op =>
    if x.length ≠ operand.length then
      .error (.fault (.operandLength op.name x.length operand.length))
    else Called.toBytes x.length (op.onNat x.value operand.value)
  | negate => .ok (x.map fun b => inverted.getD b.toNat 0)
  | shift count d o =>
    if x.isEmpty then .ok x
    else if count < 0 then .error .negativeShift
    else (Called.toBytes x.length (shifted d count.toNat x.length (o.logical x).value)).map
      o.logical
  | switchBit position value o =>
    if position < 0 ∨ 8 * x.length ≤ position then
      .error (.fault (.bitOutside position (8 * x.length)))
    else
      Called.update (masked (1 <<< (position.toNat % 8)) value)
        (Bits.byteIndex o x.length position.toNat) x
  | reverse => .ok x.reverse
  | copy offset length =>
    if x.length < offset + length then
      .error (.fault (.copyOutside offset (offset + length) x.length))
    else .ok (x.window offset.toNat length.toNat)
  | resize length anchor =>
    if length = 0 then .ok []
    else .ok (Layout.resize anchor length.toNat x)
  | concat parts => .ok (x ++ parts.flatten)
  | sort none descending => .ok (Arrange.sort descending x)
  | sort (some key) descending => Called.of (Arrange.sortKeyed key descending x)
  | shuffle g => do
    let y ← Called.swapAll (Arrange.swaps (g.place x.length) x.length).1 x
    Called.of ((Arrange.swaps (g.place x.length) x.length).2.elim (.ok y) .error)
  | digest l algorithm => do
    let d ← digestOf l algorithm
    return d.hash x
  | hmac l key algorithm => do
    let d ← digestOf l algorithm
    return d.hmac key x
  | checksum algorithm append width => do
    let y ← checksumOf algorithm width x
    return if append then x ++ y else y
  | compress p => .ok (p.pack x)
  | decompress c => Called.of (c.unpack x)

end Setup
end Transform
end Octets
