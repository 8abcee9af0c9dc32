import Octets.Check
import Octets.Order
import Octets.Text.Numeral
/-!
Universally unique identifiers: sixteen bytes, written as 32 hexadecimal digits in
groups of 8, 4, 4, 4 and 12. Core Lean only.
-/
namespace Octets.Uuid

private def digit (n : Nat) : Char := Char.ofNat (if n < 10 then 0x30 + n else 0x57 + n)

private def byteDigits (b : UInt8) : List Char := [digit (b.toNat / 16), digit (b.toNat % 16)]

/-- The canonical form of sixteen bytes. -/
def render (x : Bytes) : String :=
  let group (i n : Nat) : List Char := (x.window i n).flatMap byteDigits
  String.ofList (group 0 4 ++ '-' :: group 4 2 ++ '-' :: group 6 2 ++ '-' :: group 8 2 ++
    '-' :: group 10 6)

private def isBrace (c : CodePoint) : Bool := c.val == 0x7B || c.val == 0x7D

/-- The digits of an identifier: the marks `urn:` and `uuid:`, braces at the ends and
dashes are passed over. -/
def bare (t : Text) : Text :=
  let named := Text.without (Text.ofString "uuid:") 0 (Text.without (Text.ofString "urn:") 0 t)
  (Text.trimBy isBrace named).filter (· ≠ CodePoint.ofChar '-')

/-- The bytes of an identifier: what is left of the text is a hexadecimal numeral of
32 code points. -/
def parse (t : Text) : Outcome Bytes :=
  let digits := bare t
  if digits.length = 32 then
    (Text.Numeral.value? digits).elim (.error .malformedUuid) fun n => .ok (Bytes.ofNat 16 n)
  else .error .malformedUuid

/-- The identifier of a sequence of exactly sixteen bytes. -/
def ofBytes (o : ByteOrder) (x : Bytes) : Outcome String := do
  Check.exactLength x.length 16 "UUID"
  return render (o.logical x)

end Octets.Uuid
