import Octets.Text.Basic
/-!
A text between quotation marks, as messages show it. A code point that prints
stands for itself; the mark in use, the backslash and all that does not print
are escaped. Core Lean only.
-/
namespace Octets.Text

/-- The code points that do not print: controls, the spaces but U+0020, line and
paragraph separators, format characters, surrogates, and the code points that
are for private use or hold no character above the assigned planes. -/
def unprintableRanges : List (Nat × Nat) :=
  [(0x00, 0x1F), (0x7F, 0xA0), (0xAD, 0xAD), (0x600, 0x605), (0x61C, 0x61C),
   (0x6DD, 0x6DD), (0x70F, 0x70F), (0x890, 0x891), (0x8E2, 0x8E2), (0x1680, 0x1680),
   (0x180E, 0x180E), (0x2000, 0x200F), (0x2028, 0x202F), (0x205F, 0x206F),
   (0x3000, 0x3000), (0xD800, 0xF8FF), (0xFEFF, 0xFEFF), (0xFFF0, 0xFFFB),
   (0xFFFE, 0xFFFF), (0x110BD, 0x110BD), (0x110CD, 0x110CD), (0x13430, 0x1343F),
   (0x1BCA0, 0x1BCA3), (0x1D173, 0x1D17A), (0x1FFFE, 0x1FFFF), (0x2FFFE, 0x2FFFF),
   (0x3FFFE, 0xE00FF), (0xE01F0, 0x10FFFF)]

def isPrintable (c : CodePoint) : Bool := !inRanges unprintableRanges c

private def hexDigit (n : Nat) : Char :=
  Char.ofNat (if n < 10 then 0x30 + n else 0x57 + n)

/-- The `w` lowest hexadecimal digits of `n`. -/
def hexDigits (w n : Nat) : List Char :=
  (List.range w).map fun i => hexDigit (n / 16 ^ (w - 1 - i) % 16)

private def backslash : Char := Char.ofNat 0x5C
private def singleMark : CodePoint := CodePoint.ofNat 0x27
private def doubleMark : CodePoint := CodePoint.ofNat 0x22

/-- The mark around a text: the single one, unless the text holds it and not the
double one. -/
def quoteMark (t : Text) : CodePoint :=
  if t.contains singleMark && !t.contains doubleMark then doubleMark else singleMark

/-- One code point between the marks `mark`. -/
def escaped (mark c : CodePoint) : List Char :=
  if c = mark ∨ c.val = 0x5C then [backslash, Char.ofNat c.val]
  else if c.val = 0x0A then [backslash, 'n']
  else if c.val = 0x0D then [backslash, 'r']
  else if c.val = 0x09 then [backslash, 't']
  else if isPrintable c then [Char.ofNat c.val]
  else if c.val < 0x100 then backslash :: 'x' :: hexDigits 2 c.val
  else if c.val < 0x10000 then backslash :: 'u' :: hexDigits 4 c.val
  else backslash :: 'U' :: hexDigits 8 c.val

/-- The text between quotation marks. -/
def quoted (t : Text) : String :=
  let mark := quoteMark t
  String.ofList (Char.ofNat mark.val :: t.flatMap (escaped mark) ++ [Char.ofNat mark.val])

end Octets.Text
