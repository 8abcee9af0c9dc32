import Octets.Order
/-!
Operations on the bits of a byte string. Bit 0 is the least significant bit of the
logical value, so it lies in the last byte of a big string and in the first byte
of a little one. Core Lean only.
-/
namespace Octets.Bits

inductive Operation
  | and
  | or
  | xor
  deriving DecidableEq, Repr

def Operation.name : Operation → String
  | .and => "and"
  | .or => "or"
  | .xor => "xor"

def Operation.onNat : Operation → Nat → Nat → Nat
  | .and, a, b => a &&& b
  | .or, a, b => a ||| b
  | .xor, a, b => a ^^^ b

/-- Combine the numbers that two strings of one length write. -/
def combine (op : Operation) (x operand : Bytes) : Outcome Bytes :=
  if x.length = operand.length then
    .ok (Bytes.ofNat x.length (op.onNat x.value operand.value))
  else .error (.operandLength op.name x.length operand.length)

/-- Every bit the other way round. -/
def negate (x : Bytes) : Bytes := x.map fun b => ~~~b

inductive Direction
  | left
  | right
  deriving DecidableEq, Repr

/-- Shift the logical value by `n` bits within its length: bits that leave at one
end are lost, zeros enter at the other. -/
def shift (d : Direction) (n : Nat) (o : ByteOrder) (x : Bytes) : Bytes :=
  let v := (o.logical x).value
  let k := min n (8 * x.length)
  o.logical <| Bytes.ofNat x.length <| match d with
    | .left => v * 2 ^ k
    | .right => v / 2 ^ k

/-- The index of the byte that holds bit `p` in a string of `n` bytes. -/
def byteIndex (o : ByteOrder) (n p : Nat) : Nat :=
  match o with
  | .big => n - 1 - p / 8
  | .little => p / 8

/-- Whether a string of `n` bytes has a bit `p`. -/
def inside (p : Int) (n : Nat) : Bool := 0 ≤ p && p < 8 * n

/-- Bit `p` of the logical value. -/
def bitAt (o : ByteOrder) (x : Bytes) (p : Int) : Outcome Bool :=
  if inside p x.length then
    let i := byteIndex o x.length p.toNat
    .ok ((x.getD i 0).toNat.testBit (p.toNat % 8))
  else .error (.bitOutside p (8 * x.length))

/-- A byte with the bits of `mask` set, cleared, or turned where no value is given. -/
def switched (mask : UInt8) (value : Option Bool) (b : UInt8) : UInt8 :=
  match value with
  | none => b ^^^ mask
  | some true => b ||| mask
  | some false => b &&& ~~~mask

/-- Set, clear or turn bit `p` of the logical value. -/
def switchBit (o : ByteOrder) (p : Int) (value : Option Bool) (x : Bytes) :
    Outcome Bytes :=
  if inside p x.length then
    let i := byteIndex o x.length p.toNat
    .ok (x.modify i (switched (UInt8.ofNat (2 ^ (p.toNat % 8))) value))
  else .error (.bitOutside p (8 * x.length))

@[simp] theorem length_negate (x : Bytes) : (negate x).length = x.length := by
  simp [negate]

@[simp] theorem length_shift (d : Direction) (n : Nat) (o : ByteOrder) (x : Bytes) :
    (shift d n o x).length = x.length := by
  simp [shift]

theorem length_combine {op : Operation} {x operand y : Bytes}
    (h : combine op x operand = .ok y) : y.length = x.length := by
  unfold combine at h
  split at h
  · cases h; simp
  · cases h

theorem length_switchBit {o : ByteOrder} {p : Int} {value : Option Bool} {x y : Bytes}
    (h : switchBit o p value x = .ok y) : y.length = x.length := by
  unfold switchBit at h
  split at h
  · cases h; simp
  · cases h

end Octets.Bits
