import Octets.Alphabet
import Octets.Magnitude
/-!
Positional notation in a radix from 2 to 36. A plain number would lose leading
zero bytes, so each of them is written as one zero digit in front of the digits of
the rest. The rest starts with a non-zero byte, so its first digit is not zero and
reading can tell the two parts apart. Core Lean only.
-/
namespace Octets

/-- A positional notation: its digits, of which there are at least two. -/
structure Radix where
  alphabet : Alphabet
  two_le : 2 ≤ alphabet.radix

namespace Radix

/-- The notation in a radix from 2 to 36. -/
def build (radix : Int) (upperCase : Bool) : Outcome Radix := do
  let a ← Alphabet.positional radix upperCase
  if h : 2 ≤ a.radix then .ok ⟨a, h⟩ else .error (.fewSymbols a.radix)

def radix (r : Radix) : Nat := r.alphabet.radix

def encode (r : Radix) (x : Bytes) : Text :=
  let n := Magnitude.leadingZeros x
  let digits := (Magnitude.digitsFrom r.radix r.two_le (x.drop n)).reverse
  r.alphabet.spell (List.replicate n 0 ++ digits)

def decode (r : Radix) (t : Text) : Outcome Bytes := do
  let digits ← r.alphabet.readFrom 0 t
  let n := (digits.takeWhile (· == 0)).length
  let rest ← Magnitude.fromDigits ((digits.drop n).map Int.ofNat) r.radix
  return Bytes.zeros n ++ rest

end Radix
end Octets
