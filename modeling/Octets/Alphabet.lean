import Octets.Fault
import Octets.Text.Case
/-!
Digit alphabets: position `i` holds the symbol of digit `i`. Reading a digit is
a lookup among the keys of all symbols; a symbol's keys are itself and, where
case is ignored, its lower and its upper form. The keys are entered into a table
one after the other, and an alphabet is refused at the first symbol with a key
that stands for another digit there. Core Lean only.
-/
namespace Octets

structure Alphabet where
  symbols : Text
  ignoresCase : Bool
  /-- Each key with its digit. -/
  table : List (Text × Nat)
  deriving DecidableEq

namespace Alphabet

/-- The keys under which a symbol is found. -/
def keys (cases : CaseMap) (ignoresCase : Bool) (c : CodePoint) : List Text :=
  if ignoresCase then [[c], cases.lower c, cases.upper c] else [[c]]

/-- The table of the symbols, the first of which is digit `d`. -/
def tableFrom (keysOf : CodePoint → List Text) (d : Nat) : Text → List (Text × Nat)
  | [] => []
  | c :: cs => (keysOf c).map (·, d) ++ tableFrom keysOf (d + 1) cs

/-- The table with the keys entered for digit `d`, unless one of them stands for
another digit. -/
def enterKeys (d : Nat) : List Text → List (Text × Nat) → Option (List (Text × Nat))
  | [], table => some table
  | k :: ks, table =>
    if (table.lookup k).any (· != d) then none else enterKeys d ks (table ++ [(k, d)])

/-- The table with the keys of the symbols entered, the first of which is digit `d`, or
the first symbol that has a key of another digit. -/
def enterSymbols (keysOf : CodePoint → List Text) (d : Nat) :
    Text → List (Text × Nat) → Except CodePoint (List (Text × Nat))
  | [], table => .ok table
  | c :: cs, table =>
    match enterKeys d (keysOf c) table with
    | none => .error c
    | some entered => enterSymbols keysOf (d + 1) cs entered

/-- The alphabet of the symbols, with no check. -/
def tabulated (cases : CaseMap) (symbols : Text) (ignoresCase : Bool) : Alphabet :=
  ⟨symbols, ignoresCase, tableFrom (keys cases ignoresCase) 0 symbols⟩

/-- The alphabet of at least two symbols whose keys, gone through as they are listed, can
all be entered. -/
def assemble (keysOf : CodePoint → List Text) (symbols : Text) (ignoresCase : Bool) :
    Outcome Alphabet :=
  if symbols.length < 2 then .error (.fewSymbols symbols.length)
  else match enterSymbols keysOf 0 symbols [] with
    | .error c => .error (.ambiguousSymbol c symbols)
    | .ok table => .ok ⟨symbols, ignoresCase, table⟩

/-- The alphabet of at least two symbols that share no key. -/
def build (cases : CaseMap) (symbols : Text) (ignoresCase : Bool) : Outcome Alphabet :=
  assemble (keys cases ignoresCase) symbols ignoresCase

def radix (a : Alphabet) : Nat := a.symbols.length

/-- The symbol of a digit; a negative digit counts from the end. -/
def encode (a : Alphabet) (digit : Int) : Outcome CodePoint :=
  let i := if digit < 0 then digit + a.radix else digit
  if i < 0 then .error .indexOutside
  else (a.symbols[i.toNat]?).elim (.error .indexOutside) .ok

/-- The digit of a key; `position` says where the key stood. -/
def decode (a : Alphabet) (key : Text) (position : Int) : Outcome Nat :=
  (a.table.lookup key).elim (.error (.notADigit key a.radix position)) .ok

def contains (a : Alphabet) (key : Text) : Bool := (a.table.lookup key).isSome

/-- The symbols for the digits, each of which is below the radix. -/
def spell (a : Alphabet) (digits : List Nat) : Text :=
  digits.map fun d => a.symbols.getD d 0

/-- The digits of the symbols, the first of which stands at index `i`. -/
def readFrom (a : Alphabet) (i : Nat) : Text → Outcome (List Nat)
  | [] => .ok []
  | c :: cs => do
    let d ← a.decode [c] i
    let ds ← readFrom a (i + 1) cs
    return d :: ds

/-- The description of an alphabet: radix, case and its first symbols. -/
def description (a : Alphabet) : String :=
  let case := if a.ignoresCase then "ci" else "cs"
  s!"<Alphabet base-{a.radix} {case} {Text.quoted (a.symbols.take 8)}...>"

/-- The digits 0 to 9. -/
def decimals : Text := Text.run '0' 10
def smallLetters : Text := Text.run 'a' 26
def capitalLetters : Text := Text.run 'A' 26

/-- The 36 digits of positional notation. -/
def digits : Text := decimals ++ smallLetters

def base32Symbols : Text := capitalLetters ++ Text.run '2' 6
def base64Stem : Text := capitalLetters ++ smallLetters ++ decimals
def base64Symbols : Text := base64Stem ++ ['+', '/'].map CodePoint.ofChar
def base64UrlSymbols : Text := base64Stem ++ ['-', '_'].map CodePoint.ofChar

/-- The sixteen digits of hexadecimal notation, in either case. -/
def hex : Alphabet := tabulated .ascii (digits.take 16) true

/-- Capital letters and the digits 2 to 7; either case is read. -/
def base32 : Alphabet := tabulated .ascii base32Symbols true

/-- Letters, digits, plus and slash. -/
def base64 : Alphabet := tabulated .ascii base64Symbols false

/-- Letters, digits, minus and underscore. -/
def base64Url : Alphabet := tabulated .ascii base64UrlSymbols false

/-- The alphabet of positional notation in a radix from 2 to 36. -/
def positional (radix : Int) (upperCase : Bool) : Outcome Alphabet :=
  if 2 ≤ radix ∧ radix ≤ 36 then
    let symbols := digits.take radix.toNat
    build .ascii (if upperCase then Text.asciiUpper symbols else symbols) true
  else .error (.alphabetRadix radix)

end Alphabet
end Octets
