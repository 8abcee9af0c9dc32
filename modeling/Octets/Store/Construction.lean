import Octets.Encoding.Basic
import Octets.Numeric.Integer
import Octets.Numeric.Real
import Octets.Random.Generator
import Octets.Source
import Octets.Store.Operand
import Octets.Text.Encoded
/-!
How sequences come into being. Only wrapping an array that the caller holds shares
it, and only with a sequence that is not immutable; everything else has storage of
its own. Core Lean only.
-/
namespace Octets

inductive Construction
  /-- Share an array where the variant allows it; a sequence lends its order. -/
  | wrap (data : Operand) (order : Option String)
  /-- Share an array where the variant allows it; the order is the one named. -/
  | plain (data : Operand) (order : Option String)
  | copyOf (data : Operand) (order : Option String)
  | allocate (length fill : Int) (order : Option String)
  | empty (order : Option String)
  | concat (parts : List Operand)
  | ofBool (b : Bool)
  | ofByte (v : Int)
  | ofChar (t : Text) (order : Option String)
  | ofInteger (k : IntegerKind) (v : Int) (order : Option String)
  | ofIntegers (k : IntegerKind) (vs : List Int) (order : Option String)
  | ofReal (k : RealKind) (r : Binary64) (order : Option String)
  | ofBigInteger (v : Int) (order : Option String)
  | ofUuid (x : Bytes)
  | ofText (t codec : Text) (n : Option Normalization)
  | ofSource (s : Source) (limit : Option Int)
  | ofFile (path : String) (content : Option Bytes) (offset : Int) (length : Option Int)
  | random (length : Int) (g : Generator)
  /-- Read a text; none stands for what is no text. -/
  | parse (t : Option Text) (e : Encoding) (order : Option String)
  | parseRadix (t : Option Text) (radix : Int) (order : Option String)

/-- The storage a sequence is given: an array there is, or a new one. -/
inductive Storage
  | shared (b : BufferId)
  | own (x : Bytes)
  deriving DecidableEq, Repr

namespace Construction

/-- What a variant looks at when it is made of an operand. -/
def storageOf (v : Variant) (σ : Store) : Operand → Outcome Storage
  | .buffer b =>
    if v = .immutable then (σ.buffer? b).map .own else (σ.buffer? b).map fun _ => .shared b
  | o => (σ.read o).map .own

/-- The code unit of a text that is one code point of sixteen bits. -/
def oneUnit (t : Text) : Outcome Nat :=
  match t with
  | [c] => if c.val ≤ 0xFFFF then .ok c.val else .error (.notOneUnit t)
  | _ => .error (.notOneUnit t)

/-- New storage under an order that is named, the order being looked at last. -/
def ownUnder (order : Option String) (x : Bytes) : Outcome (Storage × ByteOrder) := do
  let o ← ByteOrder.named order
  return (.own x, o)

/-- New storage that depends on the order, which is looked at first. -/
def ownBy (order : Option String) (f : ByteOrder → Outcome Bytes) :
    Outcome (Storage × ByteOrder) := do
  let o ← ByteOrder.named order
  let x ← f o
  return (.own x, o)

/-- New storage under the standard order. -/
def ownStandard (x : Outcome Bytes) : Outcome (Storage × ByteOrder) :=
  x.map fun x => (.own x, ByteOrder.standard)

/-- The order a sequence is wrapped under: its own unless another one is named. -/
def lentOrder (q : Sequence) : Option String → Outcome ByteOrder
  | none | some "" => .ok q.order
  | some name => ByteOrder.named (some name)

/-- The storage and the order of the sequence to be. -/
def plan (v : Variant) (σ : Store) : Construction → Outcome (Storage × ByteOrder)
  | wrap (.sequence s) order => do
    let q ← σ.sequence? s
    let x ← σ.buffer? q.buffer
    let o ← lentOrder q order
    return (.own x, o)
  | wrap data order | plain data order => do
    let storage ← storageOf v σ data
    let o ← ByteOrder.named order
    return (storage, o)
  | copyOf data order => σ.read data >>= ownUnder order
  | allocate length fill order => do
    Check.notNegative length "length"
    ownUnder order (List.replicate length.toNat (Bytes.ofInt fill))
  | empty order => ownUnder order []
  | concat parts => ownStandard (σ.readAll parts)
  | ofBool b => ownStandard (.ok [if b then 1 else 0])
  | ofByte v => ownStandard (pack v 1 ByteOrder.standard)
  | ofChar t order => do
    let unit ← oneUnit t
    ownBy order (pack unit 2)
  | ofInteger k v order => ownBy order (pack v k.width)
  | ofIntegers k vs order => ownBy order fun o => packAll k.width o vs
  | ofReal k r order => ownBy order fun o => k.write o r
  | ofBigInteger v order => ownBy order fun o => .ok (minimalBytes v o)
  | ofUuid x => ownStandard (.ok x)
  | ofText t codec n => ownStandard (t.encoded codec n)
  | ofSource s limit => ownStandard ((s.readUpTo limit).map (·.data))
  | ofFile path content offset length => ownStandard (readRange path content offset length)
  | random length g => do
    Check.notNegative length "length"
    ownStandard ((g.bytes length.toNat).map (·.val))
  | parse t e order => ownBy order (e.decode? t)
  | parseRadix t radix order => do
    let e ← Encoding.ofRadix radix
    ownBy order (e.decode? t)

end Construction

/-- A new sequence of a variant. -/
def StoreM.construct (v : Variant) (c : Construction) : StoreM SequenceId := do
  let (storage, o) ← StoreM.reading (c.plan v)
  match storage with
  | .shared b => StoreM.adopt v o b
  | .own x => StoreM.create v o x

end Octets
