import Octets.Encoding.Basic
import Octets.Entropy
import Octets.Layout
import Octets.Numeric.Integer
import Octets.Numeric.Real
import Octets.Numeric.Uuid
import Octets.Bits
import Octets.Search
import Octets.Store.Operand
import Octets.Text.Encoded
import Octets.Validator
/-!
Questions about a sequence: its properties, searches, readings as numbers and as
text, and comparisons. None of them changes the store. Core Lean only.
-/
namespace Octets

/-- What an operation yields. -/
inductive Value
  | bool (b : Bool)
  | int (v : Int)
  | ints (vs : List Int)
  /-- A code unit of sixteen bits. -/
  | unit (v : Int)
  | real (r : Binary64)
  | reals (rs : List Binary64)
  | measure (f : Float)
  | order (o : ByteOrder)
  | label (s : String)
  | text (t : Text)
  | bytes (x : Bytes)
  | sequence (s : SequenceId)
  | sequences (ss : List SequenceId)
  | buffer (b : BufferId)
  | view (v : ViewId)
  | entered (same : Bool) (x : Bytes)
  | done

/-- The relations that compare contents. -/
inductive Relation
  | less
  | lessEqual
  | greater
  | greaterEqual
  deriving DecidableEq, Repr

/-- Whether a comparison of -1, 0 or 1 satisfies a relation. -/
def Relation.holds : Relation → Int → Bool
  | less, c => c < 0
  | lessEqual, c => c ≤ 0
  | greater, c => 0 < c
  | greaterEqual, c => 0 ≤ c

inductive Query
  | order
  | length
  | bitLength
  | isEmpty
  | isMutable
  | isReadOnly
  | contains (t : Target)
  | indexOf (t : Target) (start : Int)
  | lastIndexOf (t : Target)
  | startsWith (t : Target)
  | endsWith (t : Target)
  | count (t : Target)
  | entropy
  | validate (vs : List (Validator Predicate))
  | integer (k : IntegerKind)
  | integerAt (k : IntegerKind) (i : Int)
  | integers (k : IntegerKind)
  | real (k : RealKind)
  | reals (k : RealKind)
  | bigInteger
  | uuid
  | bitAt (p : Int)
  | encode (e : Encoding)
  | encodeRadix (radix : Int)
  | encodeText (codec : Text)
  | bytes
  | list
  | item (i : Int)
  | equalsContent (s : SequenceId)
  | equalsBytes (o : Operand)
  | compare (o : Operand)
  | relate (r : Relation) (o : Operand)
  | equals (o : Operand)
  | description

namespace Query

/-- A number of a kind as a value. -/
def numbered (k : IntegerKind) (v : Int) : Value := if k = .char then .unit v else .int v

private def hexText (x : Bytes) : String := Text.asString (Hex.encode false x)

/-- The description of a sequence: variant, length, content or its two ends, order. -/
def describe (v : Variant) (o : ByteOrder) (x : Bytes) : String :=
  let body := s!"<{v.title}: {x.length} bytes"
  let shown :=
    if x.isEmpty then ""
    else if x.length ≤ 8 then s!" (0x{hexText x})"
    else s!" (0x{hexText (x.take 4)}...{hexText (x.drop (x.length - 4))})"
  body ++ shown ++ s!" {o.name}>"

/-- Equality of sequences: order and content. Nothing else equals a sequence. -/
def equal (σ : Store) (o : ByteOrder) (x : Bytes) : Operand → Outcome Bool
  | .sequence s => do
    let q ← σ.sequence? s
    let y ← σ.buffer? q.buffer
    return o = q.order && x = y
  | _ => .ok false

/-- The answer for a sequence with a variant, an order and content. -/
def answer (σ : Store) (v : Variant) (o : ByteOrder) (x : Bytes) : Query → Outcome Value
  | order => .ok (.order o)
  | length => .ok (.int x.length)
  | bitLength => .ok (.int (8 * x.length))
  | isEmpty => .ok (.bool x.isEmpty)
  | isMutable => .ok (.bool (v = .mutable))
  | isReadOnly => .ok (.bool (v = .readOnly))
  | contains t => (σ.pattern t).map fun p => .bool (Search.contains p x)
  | indexOf t start => (σ.pattern t).map fun p => .int (Search.indexOf p start x)
  | lastIndexOf t => (σ.pattern t).map fun p => .int (Search.lastIndexOf p x)
  | startsWith t => (σ.affix t).map fun p => .bool (Search.startsWith p x)
  | endsWith t => (σ.affix t).map fun p => .bool (Search.endsWith p x)
  | count t => (σ.pattern t).map fun p => .int (Search.count p x)
  | entropy => .ok (.measure (Entropy.entropy x))
  | validate vs => ((Validator.allOf vs).holds x).map .bool
  | integer k => (k.exact o x).map (numbered k)
  | integerAt k i => (k.readAt o x i).map (numbered k)
  | integers k => (k.array o x).map .ints
  | real k => (k.exact o x).map .real
  | reals k => (k.array o x).map .reals
  | bigInteger => .ok (.int (signedValue o x))
  | uuid => (Uuid.ofBytes o x).map .label
  | bitAt p => (Bits.bitAt o x p).map .bool
  | encode e => .ok (.text (e.encode x o))
  | encodeRadix radix => (Encoding.ofRadix radix).map fun e => .text (e.encode x o)
  | encodeText codec => (Text.ofEncoded x codec).map .text
  | bytes => .ok (.bytes x)
  | list => .ok (.ints (x.map fun b => (b.toNat : Int)))
  | item i => (Layout.item i x).map fun b => .int b.toNat
  | equalsContent s => (σ.content? s).map fun y => .bool (x = y)
  | equalsBytes d => (σ.read d).map fun y => .bool (x = y)
  | compare d => (σ.read d).map fun y => .int (Search.compare x y)
  | relate r d => (σ.read d).map fun y => .bool (r.holds (Search.compare x y))
  | equals d => (equal σ o x d).map .bool
  | description => .ok (.label (describe v o x))

end Query

/-- The answer to a question about a sequence. -/
def Store.query (σ : Store) (s : SequenceId) (q : Query) : Outcome Value := do
  let r ← σ.sequence? s
  let x ← σ.buffer? r.buffer
  q.answer σ r.variant r.order x

/-- The sequences in ascending order of content; equal ones keep their order. -/
def Store.rank (σ : Store) (ss : List SequenceId) : Outcome (List SequenceId) := do
  let items ← ss.mapM fun s => (σ.content? s).map (·, s)
  return (items.mergeSort fun a b => Search.compare a.1 b.1 ≤ 0).map Prod.snd

end Octets
