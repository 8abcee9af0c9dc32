import Octets.Text.Blank
/-!
Hexadecimal numerals in a lenient form. Blanks may stand at the ends; a plus sign and
the mark `0x` may come first, in this order; one underscore may stand between two
digits, or between the mark and the first of them. The decimal digits of every script
count as digits. Core Lean only.
-/
namespace Octets.Text.Numeral

/-- The zeros of the decimal digits, each followed by the other nine. -/
def zeros : List Nat :=
  [0x30, 0x660, 0x6F0, 0x7C0, 0x966, 0x9E6, 0xA66, 0xAE6, 0xB66, 0xBE6, 0xC66, 0xCE6,
   0xD66, 0xDE6, 0xE50, 0xED0, 0xF20, 0x1040, 0x1090, 0x17E0, 0x1810, 0x1946, 0x19D0,
   0x1A80, 0x1A90, 0x1B50, 0x1BB0, 0x1C40, 0x1C50, 0xA620, 0xA8D0, 0xA900, 0xA9D0,
   0xA9F0, 0xAA50, 0xABF0, 0xFF10, 0x104A0, 0x10D30, 0x11066, 0x110F0, 0x11136,
   0x111D0, 0x112F0, 0x11450, 0x114D0, 0x11650, 0x116C0, 0x11730, 0x118E0, 0x11950,
   0x11C50, 0x11D50, 0x11DA0, 0x16A60, 0x16AC0, 0x16B50, 0x1D7CE, 0x1D7D8, 0x1D7E2,
   0x1D7EC, 0x1D7F6, 0x1E140, 0x1E2F0, 0x1E950, 0x1FBF0]

/-- The value of a decimal digit of any script. -/
def decimal? (c : CodePoint) : Option Nat :=
  (zeros.find? fun z => z ≤ c.val && c.val < z + 10).map (c.val - ·)

/-- The value of a hexadecimal digit: decimal digits, and the letters a to f of ASCII. -/
def digit? (c : CodePoint) : Option Nat :=
  if 0x61 ≤ c.val ∧ c.val ≤ 0x66 then some (c.val - 0x57)
  else if 0x41 ≤ c.val ∧ c.val ≤ 0x46 then some (c.val - 0x37)
  else decimal? c

/-- The blanks around a numeral: all but the four separators of ASCII. -/
def isMargin (c : CodePoint) : Bool := isBlank c && !(0x1C ≤ c.val && c.val ≤ 0x1F)

/-- The value of the digits after those of value `v`; `closed` says that a digit came
last, so that the numeral may end or an underscore may follow. -/
def valueFrom? (v : Nat) (closed : Bool) : Text → Option Nat
  | [] => if closed then some v else none
  | c :: t =>
    if c = CodePoint.ofChar '_' then
      if closed then valueFrom? v false t else none
    else do
      let d ← digit? c
      valueFrom? (v * 16 + d) true t

/-- What follows an optional plus sign. -/
def unsigned : Text → Text
  | [] => []
  | c :: t => if c = CodePoint.ofChar '+' then t else c :: t

/-- What follows an optional mark, and the underscore that may come after one. -/
def unmarked : Text → Text
  | z :: x :: t =>
    if decimal? z = some 0 ∧ (x = CodePoint.ofChar 'x' ∨ x = CodePoint.ofChar 'X') then
      match t with
      | u :: t => if u = CodePoint.ofChar '_' then t else u :: t
      | [] => []
    else z :: x :: t
  | t => t

/-- The number of a numeral. -/
def value? (t : Text) : Option Nat := valueFrom? 0 false (unmarked (unsigned (trimBy isMargin t)))

/-- The ten digits of ASCII and the letters in both cases. -/
example : value? (ofString " +0x_9A_f ") = some 0x9AF := by decide

/-- Two underscores in a row, one at the end, or a mark alone are refused. -/
example : ["1__2", "12_", "0x", "_1", ""].all fun s => (value? (ofString s)).isNone := by decide

end Octets.Text.Numeral
