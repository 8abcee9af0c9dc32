import Octets.Bytes
/-!
The Shannon entropy of the bytes of a string, in bits per byte. Core Lean only.
-/
namespace Octets.Entropy

/-- How often each byte occurs, in the order of first occurrence. -/
def frequencies (x : Bytes) : List Nat := x.eraseDups.map x.count

/-- Between 0 and 8; 0 for the empty string. -/
def entropy (x : Bytes) : Float :=
  (frequencies x).foldl (fun sum n =>
    let p := n.toFloat / x.length.toFloat
    sum - p * p.log2) 0

end Octets.Entropy
