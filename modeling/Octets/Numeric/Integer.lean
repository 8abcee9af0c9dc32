import Octets.Check
import Octets.Chunks
import Octets.Order
/-!
Integers in byte strings: two's complement of any length, integers packed in a
fixed width, and the fixed-width kinds that a sequence can be read as. Core Lean
only.
-/
namespace Octets

/-- The unsigned number of a byte string read in an order. -/
def unsignedValue (o : ByteOrder) (x : Bytes) : Nat := (o.logical x).value

/-- The two's complement number of a byte string read in an order; 0 for none. -/
def signedValue (o : ByteOrder) (x : Bytes) : Int :=
  match o.logical x with
  | [] => 0
  | b :: rest =>
    if b < 128 then Bytes.value (b :: rest)
    else Bytes.value (b :: rest) - 256 ^ (rest.length + 1)

/-- An integer in `width` bytes; every one with a signed or an unsigned reading of
that width fits. -/
def pack (v : Int) (width : Nat) (o : ByteOrder) : Outcome Bytes :=
  let top : Int := 2 ^ (8 * width)
  if -top ≤ 2 * v ∧ v < top then .ok (o.logical (Bytes.ofNat width (v % top).toNat))
  else .error (.tooWide v width)

/-- Integers one after another in `width` bytes each; the first that does not fit
is refused. -/
def packAll (width : Nat) (o : ByteOrder) : List Int → Outcome Bytes
  | [] => .ok []
  | v :: vs => do
    let x ← pack v width o
    let y ← packAll width o vs
    return x ++ y

/-- The two's complement form of an integer in `width` bytes, if it fits them. -/
def signedForm? (v : Int) (width : Nat) (o : ByteOrder) : Option Bytes :=
  let top : Int := 2 ^ (8 * width)
  if -top ≤ 2 * v ∧ 2 * v < top then some (o.logical (Bytes.ofNat width (v % top).toNat))
  else none

/-- The bits of an integer's magnitude in two's complement, its sign left out. -/
def magnitudeBits (v : Int) : Nat :=
  let n := if 0 ≤ v then v.toNat else (-v - 1).toNat
  if n = 0 then 0 else n.log2 + 1

/-- The shortest two's complement form of an integer, one byte at least. -/
def minimalBytes (v : Int) (o : ByteOrder) : Bytes :=
  let width := magnitudeBits v / 8 + 1
  o.logical (Bytes.ofNat width (v % 2 ^ (8 * width)).toNat)

/-- The fixed-width integers a sequence can be read as. -/
inductive IntegerKind
  | byte
  | unsignedByte
  | char
  | short
  | int
  | long
  deriving DecidableEq, Repr

namespace IntegerKind

/-- The width in bytes, less one. -/
def lastByte : IntegerKind → Nat
  | byte | unsignedByte => 0
  | char | short => 1
  | int => 3
  | long => 7

def width (k : IntegerKind) : Nat := k.lastByte + 1

def isSigned : IntegerKind → Bool
  | unsignedByte | char => false
  | _ => true

def name : IntegerKind → String
  | byte => "byte"
  | unsignedByte => "unsigned byte"
  | char => "char"
  | short => "short"
  | int => "int"
  | long => "long"

/-- The number that `width` bytes hold: a residue modulo `256 ^ width`, taken from
around zero for the signed kinds. -/
def read (k : IntegerKind) (o : ByteOrder) (x : Bytes) : Int :=
  if k.isSigned then Int.bmod (unsignedValue o x) (256 ^ k.width) else unsignedValue o x

/-- The number a sequence of exactly this width holds. -/
def exact (k : IntegerKind) (o : ByteOrder) (x : Bytes) : Outcome Int := do
  Check.exactLength x.length k.width k.name
  return k.read o x

/-- The number at an index. -/
def readAt (k : IntegerKind) (o : ByteOrder) (x : Bytes) (i : Int) : Outcome Int := do
  Check.readInside x.length i k.width k.name
  return k.read o (x.window i.toNat k.width)

/-- The numbers that fill a sequence. -/
def array (k : IntegerKind) (o : ByteOrder) (x : Bytes) : Outcome (List Int) := do
  Check.evenLength x.length k.width s!"{k.name} array"
  return (chunks k.lastByte x).map (k.read o)

end IntegerKind
end Octets
