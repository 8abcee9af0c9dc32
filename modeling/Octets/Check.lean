import Octets.Fault
/-!
The range checks that operations share: each passes or names its fault. Core
Lean only.
-/
namespace Octets.Check

/-- A sequence converts to a type of a fixed width only at that very length. -/
def exactLength (length expected : Int) (type : String) : Outcome Unit :=
  if length = expected then .ok () else .error (.wrongLength type expected length)

/-- A sequence splits into items only at a multiple of their width. -/
def evenLength (length divisor : Int) (subject : String) : Outcome Unit :=
  if divisor = 0 then .error .zeroModulus
  else if length % divisor = 0 then .ok ()
  else .error (.unevenLength subject divisor length)

/-- A read of `width` bytes at `index` has to lie inside the sequence. -/
def readInside (length index width : Int) (type : String) : Outcome Unit :=
  if index < 0 ∨ length < index + width then .error (.readOutside type index length)
  else .ok ()

def notNegative (value : Int) (name : String) : Outcome Unit :=
  if value < 0 then .error (.negative name value) else .ok ()

theorem exactLength_eq_ok {length expected : Int} {type : String} :
    exactLength length expected type = .ok () ↔ length = expected := by
  unfold exactLength; split <;> simp_all

theorem readInside_eq_ok {length index width : Int} {type : String} :
    readInside length index width type = .ok () ↔ 0 ≤ index ∧ index + width ≤ length := by
  unfold readInside; split <;> simp <;> omega

theorem notNegative_eq_ok {value : Int} {name : String} :
    notNegative value name = .ok () ↔ 0 ≤ value := by
  unfold notNegative; split <;> simp <;> omega

theorem notNegative_natCast (n : Nat) (name : String) : notNegative n name = .ok () :=
  notNegative_eq_ok.mpr (Int.natCast_nonneg n)

end Octets.Check
