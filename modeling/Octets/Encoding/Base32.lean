import Octets.Alphabet
import Octets.Bytes
import Octets.Chunks
/-!
Base32 text: a block of five bytes is a 40-bit number and is written as eight
digits of five bits. A short last block is filled with zero bits, written with as
many digits as its bits need, and padded with `=` if padding is on. Reading
ignores case and trailing padding. Core Lean only.
-/
namespace Octets.Base32

def padSymbol : CodePoint := CodePoint.ofChar '='

/-- The bits of a block of at most five bytes, moved to the high end of 40 bits. -/
def pack (block : Bytes) : Nat := block.value * 256 ^ (5 - block.length)

/-- How many five-bit digits hold `n` bytes. -/
def digitCount (n : Nat) : Nat := (n * 8 + 4) / 5

def encodeBlock (padding : Bool) (block : Bytes) : Text :=
  let n := digitCount block.length
  let digits := (List.range n).map fun i => pack block / 32 ^ (7 - i) % 32
  Alphabet.base32.spell digits ++
    (if padding then List.replicate (8 - n) padSymbol else [])

def encode (padding : Bool) (x : Bytes) : Text :=
  (chunks 4 x).flatMap (encodeBlock padding)

/-- The text without its trailing padding. -/
def unpad (t : Text) : Text := (t.reverse.dropWhile (· == padSymbol)).reverse

/-- The digit counts, modulo 8, that some number of bytes has. -/
def validTails : List Nat := [0, 2, 4, 5, 7]

/-- The bytes of a block of at most eight digits; spare low bits are dropped. -/
def decodeBlock (digits : List Nat) : Bytes :=
  let bits := digits.foldl (fun v d => v * 32 + d) 0 * 32 ^ (8 - digits.length)
  (Bytes.ofNat 5 bits).take (digits.length * 5 / 8)

def decode (t : Text) : Outcome Bytes :=
  let symbols := unpad t
  if validTails.contains (symbols.length % 8) then
    (Alphabet.base32.readFrom 0 symbols).map fun digits =>
      (chunks 7 digits).flatMap decodeBlock
  else .error (.base32Length symbols.length)

end Octets.Base32
