/-!
Texts as sequences of code points. Surrogates may stand alone, so a text is not
a `String`: it is a list of numbers below `0x110000`. Core Lean only.
-/
namespace Octets

/-- A Unicode code point, surrogates included. -/
abbrev CodePoint := Fin 0x110000

instance CodePoint.instNeZero : NeZero 0x110000 := ⟨by decide⟩

/-- A sequence of code points. -/
abbrev Text := List CodePoint

namespace CodePoint

theorem toNat_lt (c : Char) : c.toNat < 0x110000 := by
  have h := c.valid
  simp only [UInt32.isValidChar, Nat.isValidChar] at h
  simp only [Char.toNat]
  omega

def ofChar (c : Char) : CodePoint := ⟨c.toNat, toNat_lt c⟩

/-- The code point of a number, reduced into the code space. -/
def ofNat (n : Nat) : CodePoint := Fin.ofNat 0x110000 n

def isSurrogate (c : CodePoint) : Bool := 0xD800 ≤ c.val && c.val ≤ 0xDFFF

/-- Lower case for the letters A to Z, and every other code point as it is. -/
def asciiLower (c : CodePoint) : CodePoint :=
  if 0x41 ≤ c.val ∧ c.val ≤ 0x5A then ofNat (c.val + 32) else c

/-- Upper case for the letters a to z, and every other code point as it is. -/
def asciiUpper (c : CodePoint) : CodePoint :=
  if 0x61 ≤ c.val ∧ c.val ≤ 0x7A then ofNat (c.val - 32) else c

theorem val_ofChar (c : Char) : (ofChar c).val = c.toNat := rfl

end CodePoint

namespace Text

def ofString (s : String) : Text := s.toList.map CodePoint.ofChar

/-- The text as a string; a surrogate has no character and becomes NUL. -/
def asString (t : Text) : String := String.ofList (t.map fun c => Char.ofNat c.val)

/-- `n` consecutive code points from that of `first` on. -/
def run (first : Char) (n : Nat) : Text :=
  (List.range n).map fun i => CodePoint.ofNat (first.toNat + i)

/-- The text with its letters A to Z in lower case. -/
def asciiLower (t : Text) : Text := t.map CodePoint.asciiLower

/-- The text with its letters a to z in upper case. -/
def asciiUpper (t : Text) : Text := t.map CodePoint.asciiUpper

/-- Whether the code point lies in one of the closed ranges. -/
def inRanges (ranges : List (Nat × Nat)) (c : CodePoint) : Bool :=
  ranges.any fun r => r.1 ≤ c.val && c.val ≤ r.2

/-- The text without the code points of a class at its two ends. -/
def trimBy (p : CodePoint → Bool) (t : Text) : Text :=
  ((t.dropWhile p).reverse.dropWhile p).reverse

/-- The text without the occurrences of a word, taken from the left; the number says
how many code points of one are still to be passed over. -/
def without (word : Text) : Nat → Text → Text
  | _, [] => []
  | k + 1, _ :: t => without word k t
  | 0, c :: t =>
    if !word.isEmpty && word.isPrefixOf (c :: t) then without word (word.length - 1) t
    else c :: without word 0 t

end Text
end Octets
