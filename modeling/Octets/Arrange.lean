import Octets.Random.Generator
/-!
Sorting and shuffling. A sort is stable in both directions: items with equal keys
keep their order. A shuffle is a list of swaps that depends on the generator and
the length alone, and it ends at the first draw that is refused. Core Lean only.
-/
namespace Octets.Arrange

/-- Stable sort by a key that is already at hand, ascending or descending. -/
def sortPairs {κ : Type} (le : κ → κ → Bool) (descending : Bool) (items : List (κ × UInt8)) :
    List (κ × UInt8) :=
  if descending then items.mergeSort fun a b => le b.1 a.1
  else items.mergeSort fun a b => le a.1 b.1

/-- Stable sort by the key of each byte. -/
def sortBy {κ : Type} (le : κ → κ → Bool) (key : UInt8 → κ) (descending : Bool)
    (x : Bytes) : Bytes :=
  (sortPairs le descending (x.map fun b => (key b, b))).map Prod.snd

/-- Sort the bytes as unsigned numbers. -/
def sort (descending : Bool) (x : Bytes) : Bytes :=
  sortBy (fun a b => decide (a ≤ b)) UInt8.toNat descending x

/-- Sort by a key that may be refused: the keys of all bytes are taken first. -/
def sortKeyed (key : UInt8 → Outcome Int) (descending : Bool) (x : Bytes) :
    Outcome Bytes := do
  let items ← x.mapM fun b => (key b).map (·, b)
  return (sortPairs (fun a b => decide (a ≤ b)) descending items).map Prod.snd

/-- The swaps of a shuffle of so many items: from the last item down to the second, each
with one drawn among itself and those before it, up to a draw that is refused. -/
def swaps (place : (i : Nat) → Outcome (Fin (i + 1))) :
    Nat → List (Nat × Nat) × Option Fault
  | 0 | 1 => ([], none)
  | i + 2 =>
    match place (i + 1) with
    | .error f => ([], some f)
    | .ok j =>
      let rest := swaps place (i + 1)
      ((i + 1, j.val) :: rest.1, rest.2)

/-- Swap the items at the given index pairs, one pair after another. -/
def applySwaps (pairs : List (Nat × Nat)) (x : Bytes) : Bytes :=
  (pairs.foldl (fun a p => a.swapIfInBounds p.1 p.2) x.toArray).toList

/-- What a shuffle comes to: the content then, and the refusal that has ended it early. -/
structure Shuffled where
  content : Bytes
  refusal : Option Fault
  deriving DecidableEq, Repr

/-- The content, unless the shuffle has ended early. -/
def Shuffled.outcome (s : Shuffled) : Outcome Bytes := s.refusal.elim (.ok s.content) .error

/-- Shuffle with the draws of a generator. -/
def shuffle (g : Generator) (x : Bytes) : Shuffled :=
  let s := swaps (g.place x.length) x.length
  ⟨applySwaps s.1 x, s.2⟩

@[simp] theorem length_sort (descending : Bool) (x : Bytes) :
    (sort descending x).length = x.length := by
  cases descending <;> simp [sort, sortBy, sortPairs]

@[simp] theorem length_applySwaps (pairs : List (Nat × Nat)) (x : Bytes) :
    (applySwaps pairs x).length = x.length := by
  have h (a : Array UInt8) :
      (pairs.foldl (fun a p => a.swapIfInBounds p.1 p.2) a).size = a.size := by
    induction pairs generalizing a with
    | nil => rfl
    | cons p ps ih => rw [List.foldl_cons, ih]; simp
  simp [applySwaps, h]

@[simp] theorem length_shuffle (g : Generator) (x : Bytes) :
    (shuffle g x).content.length = x.length := length_applySwaps _ x

end Octets.Arrange
