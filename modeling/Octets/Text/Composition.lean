/-!
How letters and marks make up other code points, as a version of Unicode has it. Core Lean
only.
-/
namespace Octets.Text

/-- What normal forms are made by. It leaves out the Hangul syllables, which are computed. -/
structure Composition where
  /-- The code points that a code point is made up of, themselves not made up of any: in
  letters and marks that mean the same, -/
  canonical : Nat → List Nat
  /-- or in such as look alike. -/
  compatible : Nat → List Nat
  /-- What a letter and a mark join to. -/
  join? : Nat → Nat → Option Nat
  /-- The combining class: 0 for what is no mark. -/
  markClass : Nat → Nat

end Octets.Text
