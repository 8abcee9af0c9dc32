import Octets.Bytes
import Octets.Fault
/-!
Sources of random numbers: seeded ones, that of the system, and those a caller brings.
What such a source answers is up to it, and it may refuse. Core Lean only.
-/
namespace Octets

/-- A source of random numbers in the state that it is in: what it answers to the one
thing it is asked for next. -/
structure Generator where
  /-- In a shuffle of `n` items, the draw for item `i` among itself and the items before
  it; it comes after the draws for the items behind. -/
  place : Nat → (i : Nat) → Outcome (Fin (i + 1))
  /-- So many bytes. -/
  bytes : (n : Nat) → Outcome { x : Bytes // x.length = n }

end Octets
