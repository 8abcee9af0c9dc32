import Octets.Fault
import Octets.Order
/-!
The store: arrays of bytes, the sequences that look at them, and the live views
that keep an array from changing its length. Sequences and arrays are known by
number; two sequences share storage when they name one array. Core Lean only.
-/
namespace Octets

abbrev BufferId := Nat
abbrev SequenceId := Nat
abbrev ViewId := Nat

/-- A byte sequence: how it treats its storage, how it is read, the array it looks
at, and the content and order its hash was taken of, once an immutable one has been
asked for it. -/
structure Sequence where
  variant : Variant
  order : ByteOrder
  buffer : BufferId
  hashed : Option (Bytes × ByteOrder)
  deriving DecidableEq, Repr

structure Store where
  buffers : List Bytes
  sequences : List Sequence
  /-- The array each view looks at; none once the view has been given up. -/
  views : List (Option BufferId)
  deriving DecidableEq, Repr

/-- A computation on the store. A fault leaves the store as it stands then. -/
abbrev StoreM := ExceptT Fault (StateM Store)

namespace Store

def empty : Store := ⟨[], [], []⟩

def buffer? (σ : Store) (b : BufferId) : Outcome Bytes :=
  (σ.buffers[b]?).elim (.error .unbound) .ok

def sequence? (σ : Store) (s : SequenceId) : Outcome Sequence :=
  (σ.sequences[s]?).elim (.error .unbound) .ok

def view? (σ : Store) (v : ViewId) : Outcome BufferId :=
  ((σ.views[v]?).bind id).elim (.error .unbound) .ok

/-- The content of a sequence. -/
def content? (σ : Store) (s : SequenceId) : Outcome Bytes := do
  let q ← σ.sequence? s
  σ.buffer? q.buffer

/-- Whether a live view looks at an array. -/
def isViewed (σ : Store) (b : BufferId) : Bool := σ.views.contains (some b)

end Store

namespace StoreM

/-- An answer that depends on the store and leaves it as it is. -/
def reading {α : Type} (f : Store → Outcome α) : StoreM α :=
  ExceptT.mk fun σ => (f σ, σ)

/-- A change of the store that cannot fail, and what it yields. -/
def changing {α : Type} (f : Store → α × Store) : StoreM α :=
  ExceptT.mk fun σ => (.ok (f σ).1, (f σ).2)

/-- A new array. -/
def allocate (x : Bytes) : StoreM BufferId :=
  changing fun σ => (σ.buffers.length, { σ with buffers := σ.buffers ++ [x] })

/-- New content for an array. -/
def write (b : BufferId) (x : Bytes) : StoreM Unit :=
  changing fun σ => ((), { σ with buffers := σ.buffers.set b x })

/-- A new sequence that looks at an array. -/
def adopt (v : Variant) (o : ByteOrder) (b : BufferId) : StoreM SequenceId :=
  changing fun σ =>
    (σ.sequences.length, { σ with sequences := σ.sequences ++ [⟨v, o, b, none⟩] })

/-- A new sequence with storage of its own. -/
def create (v : Variant) (o : ByteOrder) (x : Bytes) : StoreM SequenceId := do
  adopt v o (← allocate x)

/-- A new view of an array. -/
def watch (b : BufferId) : StoreM ViewId :=
  changing fun σ => (σ.views.length, { σ with views := σ.views ++ [some b] })

/-- Give up a view. -/
def release (v : ViewId) : StoreM Unit :=
  changing fun σ => ((), { σ with views := σ.views.set v none })

/-- Keep what the hash of a sequence was taken of. -/
def remember (s : SequenceId) (key : Bytes × ByteOrder) : StoreM Unit :=
  changing fun σ =>
    ((), { σ with sequences := σ.sequences.modify s fun q => { q with hashed := some key } })

end StoreM
end Octets
