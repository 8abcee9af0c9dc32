import Octets.Store.Basic
/-!
Operands: what an operation takes its bytes from. Reading one yields its content at
that moment; a list of integers is checked item by item. Core Lean only.
-/
namespace Octets

inductive Operand
  | bytes (x : Bytes)
  | ints (vs : List Int)
  | sequence (s : SequenceId)
  | buffer (b : BufferId)
  | view (v : ViewId)
  /-- The range of a view's array from `offset` on. -/
  | part (v : ViewId) (offset length : Nat)
  /-- Anything that holds no bytes. -/
  | other
  deriving DecidableEq, Repr

/-- The bytes of integers, the first of which is item `i`. Each lies between the
least signed and the greatest unsigned byte. -/
def Bytes.ofInts (i : Nat) : List Int → Outcome Bytes
  | [] => .ok []
  | v :: vs =>
    if -128 ≤ v ∧ v ≤ 255 then (Bytes.ofInts (i + 1) vs).map (Bytes.ofInt v :: ·)
    else .error (.notAByte v i)

/-- The content of an operand. -/
def Store.read (σ : Store) : Operand → Outcome Bytes
  | .bytes x => .ok x
  | .ints vs => Bytes.ofInts 0 vs
  | .sequence s => σ.content? s
  | .buffer b => σ.buffer? b
  | .view v => σ.view? v >>= σ.buffer?
  | .part v offset length => do
    let b ← σ.view? v
    let x ← σ.buffer? b
    return x.window offset length
  | .other => .error .notBytes

/-- The contents of operands one after another; the first fault counts. -/
def Store.readAll (σ : Store) (parts : List Operand) : Outcome Bytes :=
  parts.foldr (fun p rest => do
    let x ← σ.read p
    let y ← rest
    return x ++ y) (.ok [])

/-- What a search looks for: a byte, taken modulo 256, or a pattern. -/
inductive Target
  | byte (v : Int)
  | pattern (o : Operand)
  deriving DecidableEq, Repr

def Store.pattern (σ : Store) : Target → Outcome Bytes
  | .byte v => .ok [Bytes.ofInt v]
  | .pattern o => σ.read o

/-- The pattern at an end of a string: for this an integer is no byte string. -/
def Store.affix (σ : Store) : Target → Outcome Bytes
  | .byte _ => .error .notBytes
  | .pattern o => σ.read o

end Octets
