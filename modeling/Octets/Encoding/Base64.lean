import Octets.Alphabet
import Octets.Bytes
/-!
Base64 text: three bytes are a 24-bit number and are written as four digits of
six bits. Reading takes both alphabets in one text, skips white space, lets
padding be absent or longer than needed, and refuses anything after it. Core
Lean only.
-/
namespace Octets.Base64

def padSymbol : CodePoint := CodePoint.ofChar '='

/-- The alphabet that is written. -/
def alphabet (urlSafe : Bool) : Alphabet :=
  if urlSafe then Alphabet.base64Url else Alphabet.base64

/-- The six-bit digits of a 24-bit number, most significant first. -/
def sextets (v : Nat) : List Nat :=
  [v / 2 ^ 18, v / 2 ^ 12 % 64, v / 2 ^ 6 % 64, v % 64]

/-- The digits of the bytes and the number of digits missing from the last block. -/
def encodeDigits : Bytes → List Nat × Nat
  | a :: b :: c :: x =>
    let rest := encodeDigits x
    (sextets (a.toNat * 2 ^ 16 + b.toNat * 2 ^ 8 + c.toNat) ++ rest.1, rest.2)
  | [a, b] => ((sextets (a.toNat * 2 ^ 16 + b.toNat * 2 ^ 8)).take 3, 1)
  | [a] => ((sextets (a.toNat * 2 ^ 16)).take 2, 2)
  | [] => ([], 0)

def encode (urlSafe padding : Bool) (x : Bytes) : Text :=
  let digits := encodeDigits x
  (alphabet urlSafe).spell digits.1 ++
    (if padding then List.replicate digits.2 padSymbol else [])

/-- The white space that reading skips: blank, tab and the four line breaks. -/
def isSpace (c : CodePoint) : Bool := c.val = 0x20 || (0x09 ≤ c.val && c.val ≤ 0x0D)

/-- The digit of a symbol of either alphabet. -/
def digit? (c : CodePoint) : Option Nat :=
  (Alphabet.base64.table ++ Alphabet.base64Url.table).lookup [c]

/-- The digits of a text whose first symbol stands at index `i`; `padded` says
whether padding has been met. -/
def scan (i : Nat) (padded : Bool) : Text → Outcome (List Nat)
  | [] => .ok []
  | c :: t =>
    if isSpace c then scan (i + 1) padded t
    else if c = padSymbol then scan (i + 1) true t
    else if padded then .error (.afterPadding i)
    else match digit? c with
      | none => .error (.notBase64 c i)
      | some d => (scan (i + 1) padded t).map (d :: ·)

/-- The three bytes of a 24-bit number. -/
def triple (v : Nat) : Bytes :=
  [UInt8.ofNat (v / 2 ^ 16), UInt8.ofNat (v / 2 ^ 8), UInt8.ofNat v]

/-- The bytes of the digits; spare low bits are dropped. -/
def decodeDigits : List Nat → Bytes
  | a :: b :: c :: d :: ds =>
    triple (a * 2 ^ 18 + b * 2 ^ 12 + c * 2 ^ 6 + d) ++ decodeDigits ds
  | [a, b, c] => (triple (a * 2 ^ 18 + b * 2 ^ 12 + c * 2 ^ 6)).take 2
  | [a, b] => (triple (a * 2 ^ 18 + b * 2 ^ 12)).take 1
  | _ => []

def decode (t : Text) : Outcome Bytes := do
  let digits ← scan 0 false t
  if digits.length % 4 = 1 then .error (.danglingSymbol digits.length)
  else return decodeDigits digits

end Octets.Base64
