import Octets.Numeric.Integer
/-!
Integers read from a stream. The stream is a service of another library, so its reader is
a parameter here: a view makes a stream of the whole string, seeks, and reads one integer
or as many as fill it. What the views rely on is that a reader is faithful. Core Lean only.
-/
namespace Octets

/-- A string that is being read, and how many of its bytes lie behind. -/
structure ByteStream where
  content : Bytes
  position : Nat
  deriving DecidableEq, Repr

/-- A service that reads the next integer of a kind. It is asked for an order where the kind
has more than one byte. -/
abbrev IntegerReader := IntegerKind → Option ByteOrder → ByteStream → Outcome (Int × ByteStream)

namespace IntegerReader

/-- The order that a reader is asked for. -/
def orderFor (k : IntegerKind) (o : ByteOrder) : Option ByteOrder :=
  if k.width = 1 then none else some o

/-- The next integer of a sequence with an order. -/
def next (r : IntegerReader) (k : IntegerKind) (o : ByteOrder) (s : ByteStream) :
    Outcome (Int × ByteStream) :=
  r k (orderFor k o) s

/-- The next `n` integers. -/
def take (r : IntegerReader) (k : IntegerKind) (o : ByteOrder) :
    Nat → ByteStream → Outcome (List Int)
  | 0, _ => .ok []
  | n + 1, s => do
    let (v, s) ← r.next k o s
    let vs ← r.take k o n s
    return v :: vs

/-- The number a sequence of exactly this width holds. -/
def exact (r : IntegerReader) (k : IntegerKind) (o : ByteOrder) (x : Bytes) : Outcome Int := do
  Check.exactLength x.length k.width k.name
  let (v, _) ← r.next k o ⟨x, 0⟩
  return v

/-- The number at an index. -/
def readAt (r : IntegerReader) (k : IntegerKind) (o : ByteOrder) (x : Bytes) (i : Int) :
    Outcome Int := do
  Check.readInside x.length i k.width k.name
  let (v, _) ← r.next k o ⟨x, i.toNat⟩
  return v

/-- The numbers that fill a sequence. -/
def array (r : IntegerReader) (k : IntegerKind) (o : ByteOrder) (x : Bytes) :
    Outcome (List Int) := do
  Check.evenLength x.length k.width s!"{k.name} array"
  r.take k o (x.length / k.width) ⟨x, 0⟩

/-- A reader that keeps its promise: it reads the bytes of the width that are next, in two's
complement or unsigned as the kind has it, and moves on past them. It promises nothing where
fewer bytes are left. -/
def Faithful (r : IntegerReader) : Prop :=
  ∀ (k : IntegerKind) (o : ByteOrder) (s : ByteStream),
    s.position + k.width ≤ s.content.length →
    r.next k o s =
      .ok (k.read o (s.content.window s.position k.width), ⟨s.content, s.position + k.width⟩)

/-- A reader that refuses where too few bytes are left. -/
def standard : IntegerReader := fun k o s =>
  if s.position + k.width ≤ s.content.length then
    .ok (k.read (o.getD .big) (s.content.window s.position k.width),
      ⟨s.content, s.position + k.width⟩)
  else .error (.readOutside k.name s.position s.content.length)

end IntegerReader
end Octets
