import Octets.Check
import Octets.Chunks
import Octets.Order
/-!
Binary floating-point numbers by their bits: 64-bit ones, and 32-bit ones that are
widened when read and rounded to nearest, ties to even, when written. All is
integer arithmetic on sign, exponent and fraction. Core Lean only.
-/
namespace Octets

/-- A 64-bit binary floating-point number, given by its bits. -/
structure Binary64 where
  bits : Nat
  deriving DecidableEq, Repr

namespace Binary64

def isNaN (r : Binary64) : Bool :=
  r.bits / 2 ^ 52 % 2 ^ 11 == 2047 && r.bits % 2 ^ 52 != 0

/-- A 32-bit number in 64 bits. The value stays; a NaN keeps its payload and
becomes quiet. -/
def ofBits32 (b : Nat) : Binary64 :=
  let sign := b / 2 ^ 31 % 2 * 2 ^ 63
  let exponent := b / 2 ^ 23 % 256
  let fraction := b % 2 ^ 23
  let magnitude :=
    if exponent = 255 then
      let quiet := if fraction = 0 then 0 else fraction ||| 2 ^ 22
      2047 * 2 ^ 52 + quiet * 2 ^ 29
    else if exponent = 0 then
      if fraction = 0 then 0
      else
        let k := fraction.log2
        (k + 874) * 2 ^ 52 + (fraction - 2 ^ k) * 2 ^ (52 - k)
    else (exponent + 896) * 2 ^ 52 + fraction * 2 ^ 29
  ⟨sign + magnitude⟩

/-- `n / 2 ^ k` to the nearest integer, a tie to the even one. -/
def shiftRounded (n k : Nat) : Nat :=
  let q := n / 2 ^ k
  let r := 2 * (n % 2 ^ k)
  if r > 2 ^ k || (r == 2 ^ k && q % 2 == 1) then q + 1 else q

/-- The nearest 32-bit number, if there is one: what rounds above the greatest
finite one is refused. -/
def toBits32? (r : Binary64) : Option Nat :=
  let sign := r.bits / 2 ^ 63 % 2 * 2 ^ 31
  let exponent := r.bits / 2 ^ 52 % 2 ^ 11
  let fraction := r.bits % 2 ^ 52
  if exponent = 2047 then
    let payload := if fraction = 0 then 0 else fraction / 2 ^ 29 ||| 2 ^ 22
    some (sign + 255 * 2 ^ 23 + payload)
  else if exponent < 897 then
    let significand := if exponent = 0 then fraction else 2 ^ 52 + fraction
    let drop := 926 - max exponent 1
    some (sign + shiftRounded significand drop)
  else
    let magnitude := (exponent - 896) * 2 ^ 23 + shiftRounded fraction 29
    if magnitude < 255 * 2 ^ 23 then some (sign + magnitude) else none

end Binary64

/-- The floating-point numbers a sequence can be read as. -/
inductive RealKind
  | float
  | double
  deriving DecidableEq, Repr

namespace RealKind

/-- The width in bytes, less one. -/
def lastByte : RealKind → Nat
  | float => 3
  | double => 7

def width (k : RealKind) : Nat := k.lastByte + 1

def name : RealKind → String
  | float => "float"
  | double => "double"

def read (k : RealKind) (o : ByteOrder) (x : Bytes) : Binary64 :=
  let bits := (o.logical x).value
  match k with
  | float => .ofBits32 bits
  | double => ⟨bits⟩

/-- The bytes of a number in this kind, if it has them. -/
def write (k : RealKind) (o : ByteOrder) (r : Binary64) : Outcome Bytes :=
  match k with
  | float => r.toBits32?.elim (.error .realOverflow) fun b => .ok (o.logical (Bytes.ofNat 4 b))
  | double => .ok (o.logical (Bytes.ofNat 8 r.bits))

/-- The number a sequence of exactly this width holds. -/
def exact (k : RealKind) (o : ByteOrder) (x : Bytes) : Outcome Binary64 := do
  Check.exactLength x.length k.width k.name
  return k.read o x

/-- The numbers that fill a sequence. -/
def array (k : RealKind) (o : ByteOrder) (x : Bytes) : Outcome (List Binary64) := do
  Check.evenLength x.length k.width s!"{k.name} array"
  return (chunks k.lastByte x).map (k.read o)

end RealKind
end Octets
