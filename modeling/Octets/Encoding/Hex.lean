import Octets.Alphabet
import Octets.Bytes
/-!
Hexadecimal text: two digits a byte, the higher nibble first. Reading ignores
case and one leading `0x`, and refuses an odd number of digits. Core Lean only.
-/
namespace Octets.Hex

/-- The sixteen digits in the given case. -/
def symbols (upperCase : Bool) : Text :=
  if upperCase then Text.asciiUpper Alphabet.hex.symbols else Alphabet.hex.symbols

def symbol (upperCase : Bool) (nibble : Nat) : CodePoint :=
  (symbols upperCase).getD nibble 0

def encode (upperCase : Bool) (x : Bytes) : Text :=
  x.flatMap fun b => [symbol upperCase (b.toNat / 16), symbol upperCase (b.toNat % 16)]

/-- Whether the text begins with `0x` or `0X`. -/
def marked : Text → Bool
  | a :: b :: _ => a == CodePoint.ofChar '0' &&
      (b == CodePoint.ofChar 'x' || b == CodePoint.ofChar 'X')
  | _ => false

/-- The bytes of the digit pairs, the first of which stands at index `i`. -/
def decodePairs (i : Nat) : Text → Outcome Bytes
  | h :: l :: t => do
    let high ← Alphabet.hex.decode [h] i
    let low ← Alphabet.hex.decode [l] (i + 1 : Nat)
    let rest ← decodePairs (i + 2) t
    return UInt8.ofNat (high * 16 + low) :: rest
  | _ => .ok []

def decode (t : Text) : Outcome Bytes :=
  let start := if marked t then 2 else 0
  let digits := t.drop start
  if digits.length % 2 = 1 then .error (.oddHexLength digits.length)
  else decodePairs start digits

@[simp] theorem length_encode (upperCase : Bool) (x : Bytes) :
    (encode upperCase x).length = 2 * x.length := by
  induction x with
  | nil => rfl
  | cons b x ih =>
    simp only [encode, List.flatMap_cons, List.length_append, List.length_cons,
      List.length_nil] at ih ⊢
    omega

end Octets.Hex
