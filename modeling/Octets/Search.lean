import Octets.Bytes
/-!
Where a pattern occurs in a byte string. The empty pattern occurs at every index,
the end included. Core Lean only.
-/
namespace Octets.Search

/-- The first index from `i` on at which `p` begins, `x` being the part of the
string from index `i` on. -/
def findFrom (p : Bytes) (i : Nat) : Bytes → Option Nat
  | [] => if p.isEmpty then some i else none
  | b :: x => if p.isPrefixOf (b :: x) then some i else findFrom p (i + 1) x

/-- An index or -1. -/
def orMinusOne (i : Option Nat) : Int := i.elim (-1) Int.ofNat

/-- The first index at or after `start`, -1 if there is none; a negative start
counts from the end. -/
def indexOf (p : Bytes) (start : Int) (x : Bytes) : Int :=
  let i := if start < 0 then max 0 (start + x.length) else start
  if (x.length : Int) < i then -1
  else orMinusOne (findFrom p i.toNat (x.drop i.toNat))

/-- The last index, -1 if there is none: a search from the other end. -/
def lastIndexOf (p x : Bytes) : Int :=
  orMinusOne ((findFrom p.reverse 0 x.reverse).map fun i => x.length - p.length - i)

def contains (p x : Bytes) : Bool := 0 ≤ indexOf p 0 x

/-- How often a pattern that is not empty occurs: each search begins one byte after
the last hit, so occurrences may overlap. -/
def countFrom (p : Bytes) : Bytes → Nat
  | [] => 0
  | b :: x => match findFrom p 0 (b :: x) with
    | none => 0
    | some i => countFrom p (x.drop i) + 1
termination_by x => x.length
decreasing_by simp only [List.length_drop, List.length_cons]; omega

def count (p x : Bytes) : Nat := if p.isEmpty then 0 else countFrom p x

def startsWith (p x : Bytes) : Bool := p.isPrefixOf x

def endsWith (p x : Bytes) : Bool := p.isSuffixOf x

/-- Lexicographic comparison of bytes: -1, 0 or 1; a proper initial part is smaller. -/
def compare : Bytes → Bytes → Int
  | [], [] => 0
  | [], _ :: _ => -1
  | _ :: _, [] => 1
  | a :: x, b :: y => if a < b then -1 else if b < a then 1 else compare x y

end Octets.Search
