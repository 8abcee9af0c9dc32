import Octets.Bytes
import Octets.Fault
/-!
Ranges of a byte string and changes of its length. Core Lean only.
-/
namespace Octets.Layout

/-- The bytes from `offset` up to `offset + length`, if the string has them. -/
def copy (offset length : Nat) (x : Bytes) : Outcome Bytes :=
  if x.length < offset + length then
    .error (.copyOutside offset (offset + length : Nat) x.length)
  else .ok (x.window offset length)

/-- Which end of a string keeps its place when the length changes. -/
inductive Anchor
  | start
  | stop
  deriving DecidableEq, Repr

/-- Cut or fill with zeros to `n` bytes. Anchored at the stop, a big-endian number
keeps its low bytes; anchored at the start, a little-endian one does. -/
def resize (anchor : Anchor) (n : Nat) (x : Bytes) : Bytes :=
  match anchor with
  | .start => if n ≤ x.length then x.take n else x ++ Bytes.zeros (n - x.length)
  | .stop =>
    if n ≤ x.length then x.drop (x.length - n) else Bytes.zeros (n - x.length) ++ x

/-- `x` with the bytes from `offset` on replaced by those of `source`. -/
def splice (x source : Bytes) (offset : Nat) : Bytes :=
  x.take offset ++ source ++ x.drop (offset + source.length)

/-- Where a slice bound falls in a string of `n` bytes: negative bounds count from
the end, and all are clamped to the range that the direction runs through. -/
def clamp (n : Nat) (forward : Bool) (i : Int) : Int :=
  let k := if i < 0 then i + n else i
  if forward then max 0 (min k n) else max (-1) (min k (n - 1))

/-- The indexes from `i` on in steps of `step`, up to `count` of them. -/
def indexes (i step : Int) : Nat → List Int
  | 0 => []
  | count + 1 => i :: indexes (i + step) step count

/-- How many steps lead from `i` to before `stop`. -/
def stepCount (i stop step : Int) : Nat :=
  if 0 < step then ((stop - i + step - 1) / step).toNat
  else ((i - stop - step - 1) / -step).toNat

/-- Every `step`-th byte between two bounds; a negative step goes backwards. -/
def slice (start stop step : Option Int) (x : Bytes) : Outcome Bytes :=
  let d := step.getD 1
  if d = 0 then .error .zeroStep
  else
    let n := x.length
    let forward : Bool := 0 < d
    let first : Int := if forward then 0 else n - 1
    let last : Int := if forward then n else -1
    let i := start.elim first (clamp n forward)
    let j := stop.elim last (clamp n forward)
    .ok ((indexes i d (stepCount i j d)).filterMap fun k => x[k.toNat]?)

/-- Whether an integer fits a signed word of 64 bits, as an index has to. -/
def isWord (i : Int) : Bool := -2 ^ 63 ≤ i && i < 2 ^ 63

/-- The index an integer names, negative ones counting from the end. -/
def index? (n : Nat) (i : Int) : Option Nat :=
  let k := if i < 0 then i + n else i
  if 0 ≤ k ∧ k < n then some k.toNat else none

/-- The byte at an index. -/
def item (i : Int) (x : Bytes) : Outcome UInt8 :=
  ((index? x.length i).bind (x[·]?)).elim (.error .indexOutside) .ok

@[simp] theorem length_resize (anchor : Anchor) (n : Nat) (x : Bytes) :
    (resize anchor n x).length = n := by
  cases anchor <;> simp only [resize] <;> split <;> simp [Bytes.zeros] <;> omega

theorem length_splice (x source : Bytes) (offset : Nat)
    (h : offset + source.length ≤ x.length) : (splice x source offset).length = x.length := by
  simp only [splice, List.length_append, List.length_take, List.length_drop]
  omega

end Octets.Layout
