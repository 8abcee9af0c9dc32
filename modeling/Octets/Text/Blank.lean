import Octets.Text.Basic
/-!
Blank code points and the text without them at its ends. Core Lean only.
-/
namespace Octets.Text

/-- The code points that count as blank: the separators and the spaces. -/
def blankRanges : List (Nat × Nat) :=
  [(0x09, 0x0D), (0x1C, 0x20), (0x85, 0x85), (0xA0, 0xA0), (0x1680, 0x1680),
   (0x2000, 0x200A), (0x2028, 0x2029), (0x202F, 0x202F), (0x205F, 0x205F),
   (0x3000, 0x3000)]

def isBlank (c : CodePoint) : Bool := inRanges blankRanges c

/-- The text without the blanks at its two ends. -/
def trim (t : Text) : Text := trimBy isBlank t

/-- Every blank character of ASCII is blank. -/
example : (" \t\r\n".toList.map CodePoint.ofChar).all isBlank = true := by decide

end Octets.Text
