import Octets.Bytes
import Octets.Fault
/-!
Predicates on byte content: tests of length and of content, combined by all, any
and not. Members may be foreign predicates, whose effects show: they are called
from left to right, and none after the one that decides. Core Lean only.
-/
namespace Octets

inductive LengthTest
  | atLeast
  | atMost
  | exactly
  deriving DecidableEq, Repr

inductive ContentTest
  | onlyOf
  | noneOf
  | notOnlyOf
  deriving DecidableEq, Repr

inductive Connective
  | all
  | any
  | negation
  deriving DecidableEq, Repr

/-- The connective of a name: every name but `or` and `not` stands for all. -/
def Connective.ofName (name : String) : Connective :=
  if name = "not" then .negation else if name = "or" then .any else .all

/-- A validator over foreign predicates from `π`. -/
inductive Validator (π : Type)
  | length (test : LengthTest) (n : Int)
  | content (test : ContentTest) (byte : Int)
  | logical (connective : Connective) (members : List (Validator π))
  | foreign (p : π)

namespace Validator

instance {π : Type} : Inhabited (Validator π) := ⟨.logical .all []⟩

def lengthHolds (test : LengthTest) (n : Int) (x : Bytes) : Bool :=
  match test with
  | .atLeast => n ≤ x.length
  | .atMost => x.length ≤ n
  | .exactly => x.length = n

/-- The reference byte is taken modulo 256. Empty content is only of any byte. -/
def contentHolds (test : ContentTest) (byte : Int) (x : Bytes) : Bool :=
  let r := Bytes.ofInt byte
  match test with
  | .onlyOf => x.all (· == r)
  | .noneOf => x.all (· != r)
  | .notOnlyOf => x.any (· != r)

section

variable {π : Type} {m : Type → Type} [Monad m] [MonadExcept Fault m]

mutual

/-- The outcome on `x`, foreign predicates being called through `call`. Negation
looks at its first member only, and needs one. -/
def evaluate (call : π → Bytes → m Bool) (x : Bytes) : Validator π → m Bool
  | length test n => pure (lengthHolds test n x)
  | content test byte => pure (contentHolds test byte x)
  | foreign p => call p x
  | logical .all members => evaluateAll call x members
  | logical .any members => evaluateAny call x members
  | logical .negation [] => throw Fault.indexOutside
  | logical .negation (v :: _) => do return !(← evaluate call x v)

/-- Whether all hold; the first that does not ends it. -/
def evaluateAll (call : π → Bytes → m Bool) (x : Bytes) : List (Validator π) → m Bool
  | [] => pure true
  | v :: vs => do if ← evaluate call x v then evaluateAll call x vs else pure false

/-- Whether any holds; the first that does ends it. -/
def evaluateAny (call : π → Bytes → m Bool) (x : Bytes) : List (Validator π) → m Bool
  | [] => pure false
  | v :: vs => do if ← evaluate call x v then pure true else evaluateAny call x vs

end

end

def atLeast {π : Type} (n : Int) : Validator π := .length .atLeast n
def atMost {π : Type} (n : Int) : Validator π := .length .atMost n
def exactLength {π : Type} (n : Int) : Validator π := .length .exactly n
def onlyOf {π : Type} (byte : Int) : Validator π := .content .onlyOf byte
def noneOf {π : Type} (byte : Int) : Validator π := .content .noneOf byte
def notOnlyOf {π : Type} (byte : Int) : Validator π := .content .notOnlyOf byte
def allOf {π : Type} (vs : List (Validator π)) : Validator π := .logical .all vs
def anyOf {π : Type} (vs : List (Validator π)) : Validator π := .logical .any vs
def notOf {π : Type} (v : Validator π) : Validator π := .logical .negation [v]

end Validator

/-- A foreign predicate on byte content. -/
abbrev Predicate := Bytes → Outcome Bool

/-- Whether content passes a validator. -/
def Validator.holds (v : Validator Predicate) (x : Bytes) : Outcome Bool :=
  v.evaluate (fun p => p) x

end Octets
