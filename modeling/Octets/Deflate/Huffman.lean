import Octets.Deflate.BitStream
/-!
Prefix codes from code lengths. The code is canonical: shorter codes come first,
and codes of one length follow the order of their symbols, so the tree is filled
from the left. Core Lean only.
-/
namespace Octets.Deflate

inductive Code
  | hole
  | leaf (symbol : Nat)
  | fork (zero one : Code)

namespace Code

/-- Fill the subtree at a depth from the left with symbols in order of length; also
the symbols for which it has no room. -/
def grow : Nat → Nat → List (Nat × Nat) → Code × List (Nat × Nat)
  | _, _, [] => (hole, [])
  | 0, _, items => (hole, items)
  | levels + 1, depth, item :: items =>
    if item.1 ≤ depth then (leaf item.2, items)
    else
      let zero := grow levels (depth + 1) (item :: items)
      let one := grow levels (depth + 1) zero.2
      (fork zero.1 one.1, one.2)

/-- The symbols that have a code, each after its length, shortest first. -/
def items (lengths : List Nat) : List (Nat × Nat) :=
  (lengths.zipIdx.filter (·.1 ≠ 0)).mergeSort fun a b => a.1 ≤ b.1

/-- The share of the code space that the lengths take, in units of `2 ^ 15`. -/
def share (lengths : List Nat) : Nat :=
  ((lengths.filter (· ≠ 0)).map fun n => 2 ^ (15 - n)).sum

/-- The code of the lengths. They may not take more than the code space; they may
leave some of it only if `lax` holds and no code is longer than one bit. -/
def ofLengths (lax : Bool) (lengths : List Nat) : Option Code :=
  let s := share lengths
  if s ≤ 2 ^ 15 ∧ (s = 2 ^ 15 ∨ (lax ∧ lengths.all (· ≤ 1))) then
    some (grow 16 0 (items lengths)).1
  else none

/-- The symbol at the front of a stream. -/
def next : Code → BitStream → Option (Nat × BitStream)
  | hole, _ => none
  | leaf symbol, s => some (symbol, s)
  | fork _ _, [] => none
  | fork zero one, b :: s => if b then next one s else next zero s

end Code
end Octets.Deflate
