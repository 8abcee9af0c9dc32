import Octets.Store.Operand
import Octets.Text.Encoded
import Octets.Transform
/-!
Requests for a transform, and how it is dispatched. A request is first turned into a
transformer, the sequence lending its order and its length where they matter. The
variant then decides whether the transformer may write the storage: the result is the
sequence itself if it may, and did; else it is a new sequence of the same variant and
order with storage of its own. Core Lean only.
-/
namespace Octets

inductive Request
  | apply (t : Transformer)
  | append (parts : List Operand)
  | appendText (t codec : Text)
  | bitwise (op : Bits.Operation) (operand : Operand)
  | negate
  | shift (d : Bits.Direction) (count : Int)
  | switchBit (position : Int) (value : Option Bool)
  | copy (offset : Int) (length : Option Int)
  | reverse
  | resize (anchor : Layout.Anchor) (length : Int)
  | sort (key : Option SortKey) (descending : Bool)
  | shuffle (g : Generator)
  | hash (l : DigestLibrary) (algorithm : Option Text)
  | hmac (l : DigestLibrary) (key : Operand) (algorithm : Option Text)

namespace Request

/-- The generator that a request has been given, if it shuffles. -/
def generator? : Request → Option Generator
  | shuffle g => some g
  | _ => none

/-- The copy that is asked for; without a length it goes up to the end. -/
def copyOf (x : Bytes) (offset : Int) : Option Int → Outcome Transform
  | some length => Transform.copyRange offset length
  | none => do
    Check.notNegative offset "offset"
    Transform.copyRange offset (x.length - offset.toNat : Nat)

/-- The library transformer for a request on a sequence with an order and content. -/
def transform? (σ : Store) (o : ByteOrder) (x : Bytes) : Request → Outcome Transformer
  | apply t => .ok t
  | append parts => (σ.readAll parts).map fun y => (Transform.concat y).toTransformer
  | appendText t codec =>
    (t.encoded codec none).map fun y => (Transform.concat y).toTransformer
  | bitwise op operand =>
    (σ.read operand).map fun y => (Transform.bitwise op y).toTransformer
  | negate => .ok Transform.negate.toTransformer
  | shift d count => (Transform.shiftBy d count o).map Transform.toTransformer
  | switchBit position value => .ok (Transform.switchBit position value o).toTransformer
  | copy offset length => (copyOf x offset length).map Transform.toTransformer
  | reverse => .ok Transform.reverse.toTransformer
  | resize anchor length => (Transform.resizeTo anchor length).map Transform.toTransformer
  | sort key descending => .ok (Transform.sort key descending).toTransformer
  | shuffle g => .ok (Transform.shuffle g).toTransformer
  | hash l algorithm => do
    let d ← l.resolveOr algorithm
    return (Transform.digest d).toTransformer
  | hmac l key algorithm => do
    let k ← σ.read key
    let d ← l.resolveOr algorithm
    return (Transform.hmac d k).toTransformer

end Request

namespace StoreM

/-- Apply a transformer to a sequence under the discipline of its variant. -/
def dispatch (s : SequenceId) (t : Transformer) : StoreM SequenceId := do
  let q ← reading (·.sequence? s)
  let x ← reading (·.buffer? q.buffer)
  let inPlace := q.variant.writesInPlace && t.supportsInPlace
  let e := t.apply inPlace x
  write q.buffer e.current
  match ← reading fun _ => e.reply with
  | .given => if inPlace then pure s else create q.variant q.order e.current
  | .fresh y => create q.variant q.order y

/-- Answer a request on a sequence. -/
def request (s : SequenceId) (r : Request) : StoreM SequenceId := do
  let q ← reading (·.sequence? s)
  let t ← reading fun σ => do r.transform? σ q.order (← σ.buffer? q.buffer)
  dispatch s t

end StoreM
end Octets
