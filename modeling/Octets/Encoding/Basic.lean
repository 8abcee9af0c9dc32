import Octets.Encoding.Base32
import Octets.Encoding.Base64
import Octets.Encoding.Hex
import Octets.Encoding.Radix
import Octets.Order
/-!
The binary-to-text encodings under one type. Each writes and reads bytes most
significant first; the order of a sequence is applied on top, so that a little
sequence has the text of its reversal. Core Lean only.
-/
namespace Octets

inductive Encoding
  | hex (upperCase : Bool)
  | base32 (padding : Bool)
  | base64 (urlSafe padding : Bool)
  | radix (r : Radix)

namespace Encoding

/-- The encoding of a radix: positional from 2 to 36, Base64 for 64. -/
def ofRadix (radix : Int) : Outcome Encoding :=
  if radix = 64 then .ok (.base64 false true)
  else if 2 ≤ radix ∧ radix ≤ 36 then (Radix.build radix false).map .radix
  else .error (.encodingRadix radix)

/-- The positional encoding of a radix. -/
def positional (radix : Int) (upperCase : Bool) : Outcome Encoding :=
  (Radix.build radix upperCase).map .radix

/-- The text of bytes given most significant first. -/
def encodeBig : Encoding → Bytes → Text
  | hex upperCase, x => Hex.encode upperCase x
  | base32 padding, x => Base32.encode padding x
  | base64 urlSafe padding, x => Base64.encode urlSafe padding x
  | radix r, x => r.encode x

/-- The bytes of a text, most significant first. -/
def decodeBig : Encoding → Text → Outcome Bytes
  | hex _, t => Hex.decode t
  | base32 _, t => Base32.decode t
  | base64 .., t => Base64.decode t
  | radix r, t => r.decode t

def encode (e : Encoding) (x : Bytes) (order : ByteOrder) : Text :=
  e.encodeBig (order.logical x)

def decode (e : Encoding) (t : Text) (order : ByteOrder) : Outcome Bytes :=
  (e.decodeBig t).map order.logical

/-- Most significant byte first, bytes are left as they are read. -/
theorem decode_big (e : Encoding) (t : Text) : e.decode t .big = e.decodeBig t := by
  rw [decode]
  cases e.decodeBig t with
  | ok x => rfl
  | error f => rfl

/-- Reading what may be no text at all. -/
def decode? (e : Encoding) (t : Option Text) (order : ByteOrder) : Outcome Bytes :=
  t.elim (.error .notText) fun t => e.decode t order

/-- Reading under an order that is named: a fault of the text comes first. -/
def decodeNamed (e : Encoding) (t : Option Text) (order : Option String) : Outcome Bytes := do
  let x ← t.elim (.error .notText) e.decodeBig
  let o ← ByteOrder.named order
  return o.logical x

def name : Encoding → String
  | hex _ => "hex"
  | base32 _ => "base32"
  | base64 urlSafe _ => if urlSafe then "base64url" else "base64"
  | radix r => s!"base{r.radix}"

/-- The number of digit symbols. -/
def base : Encoding → Nat
  | hex _ => 16
  | base32 _ => 32
  | base64 .. => 64
  | radix r => r.radix

private def flag (b : Bool) : String := if b then "True" else "False"

/-- The description of an encoding: its name and how it is set up. -/
def description (e : Encoding) : String :=
  match e with
  | hex upperCase =>
    let case := if upperCase then "upper" else "lower"
    s!"<Encoding:{e.name} case={case}>"
  | base32 padding | base64 _ padding => s!"<Encoding:{e.name} padding={flag padding}>"
  | radix r => s!"<Encoding:{e.name} alphabet={Text.quoted r.alphabet.symbols}>"

end Encoding
end Octets
