import Octets.Arrange
import Octets.Bits
import Octets.Check
import Octets.Checksum
import Octets.Deflate.Container
import Octets.Digest.Basic
import Octets.Layout
/-!
Transformers: single operations on an array of bytes. Asked to work in place, a
transformer may write into the array it is given and answer with that very array;
otherwise it answers with a new one. The library's own transformers check all they
need before they write, but for a shuffle, which draws as it writes. Core Lean only.
-/
namespace Octets

/-- What a transformer answers with: the array it was given, or a new one. -/
inductive Reply
  | given
  | fresh (x : Bytes)
  deriving DecidableEq, Repr

/-- What an application leaves behind: the content of the array it was given, and
its answer. -/
structure Effect where
  current : Bytes
  reply : Outcome Reply

/-- The content of the array answered with. -/
def Effect.content (e : Effect) : Outcome Bytes :=
  e.reply.map fun
    | .given => e.current
    | .fresh x => x

/-- An operation on an array, the library's own or a caller's. -/
structure Transformer where
  supportsInPlace : Bool
  apply : Bool → Bytes → Effect

/-- A sort key, which may be refused. -/
abbrev SortKey := UInt8 → Outcome Int

/-- The library's transformers, with parameters that have been checked. -/
inductive Transform
  | bitwise (op : Bits.Operation) (operand : Bytes)
  | negate
  | shift (d : Bits.Direction) (count : Nat) (o : ByteOrder)
  | switchBit (position : Int) (value : Option Bool) (o : ByteOrder)
  | reverse
  | copy (offset length : Nat)
  | resize (anchor : Layout.Anchor) (length : Nat)
  | concat (suffix : Bytes)
  | sort (key : Option SortKey) (descending : Bool)
  | shuffle (g : Generator)
  | digest (d : Digest)
  | hmac (d : Digest) (key : Bytes)
  | checksum (rule : ChecksumRule) (append : Bool)
  | compress {c : Deflate.Container} (p : c.Packer)
  | decompress (c : Deflate.Container)

namespace Transform

/-- A shift by a count that is not negative. -/
def shiftBy (d : Bits.Direction) (count : Int) (o : ByteOrder) : Outcome Transform := do
  Check.notNegative count "shift count"
  return shift d count.toNat o

/-- A copy of a range whose offset and length are not negative. -/
def copyRange (offset length : Int) : Outcome Transform := do
  Check.notNegative offset "offset"
  Check.notNegative length "length"
  return copy offset.toNat length.toNat

/-- A resize to a length that is not negative. -/
def resizeTo (anchor : Layout.Anchor) (length : Int) : Outcome Transform := do
  Check.notNegative length "new length"
  return resize anchor length.toNat

/-- Whether the transformer can work without a new array. -/
def supportsInPlace : Transform → Bool
  | bitwise .. | negate | shift .. | switchBit .. | reverse | shuffle _ => true
  | sort key _ => key.isNone
  | copy .. | resize .. | concat _ | digest _ | hmac .. | checksum .. | compress _
  | decompress _ => false

/-- The generator that a transformer draws from, if it does. -/
def generator? : Transform → Option Generator
  | shuffle g => some g
  | _ => none

/-- Write the new content into the array itself or into a copy of it. -/
def written (inPlace : Bool) (x y : Bytes) : Effect :=
  if inPlace then ⟨y, .ok .given⟩ else ⟨x, .ok (.fresh y)⟩

/-- Write content that may be refused; nothing is written if it is. -/
def writtenIf (inPlace : Bool) (x : Bytes) : Outcome Bytes → Effect
  | .ok y => written inPlace x y
  | .error f => ⟨x, .error f⟩

/-- Write what a shuffle comes to, also where it has ended early. -/
def writtenUpTo (inPlace : Bool) (x : Bytes) (s : Arrange.Shuffled) : Effect :=
  match s.refusal with
  | none => written inPlace x s.content
  | some f => ⟨if inPlace then s.content else x, .error f⟩

/-- Answer with a new array that may be refused. -/
def made (x : Bytes) (y : Outcome Bytes) : Effect := ⟨x, y.map .fresh⟩

/-- Apply a transformer to an array with the content `x`. -/
def apply (t : Transform) (inPlace : Bool) (x : Bytes) : Effect :=
  match t with
  | bitwise op operand => writtenIf inPlace x (Bits.combine op x operand)
  | negate => written inPlace x (Bits.negate x)
  | shift d count o => written inPlace x (Bits.shift d count o x)
  | switchBit position value o => writtenIf inPlace x (Bits.switchBit o position value x)
  | reverse => written inPlace x x.reverse
  | copy offset length => made x (Layout.copy offset length x)
  | resize anchor length => made x (.ok (Layout.resize anchor length x))
  | concat suffix => made x (.ok (x ++ suffix))
  | sort none descending => written inPlace x (Arrange.sort descending x)
  | sort (some key) descending => made x (Arrange.sortKeyed key descending x)
  | shuffle g => writtenUpTo inPlace x (Arrange.shuffle g x)
  | digest d => made x (.ok (d.hash x))
  | hmac d key => made x (.ok (d.hmac key x))
  | checksum rule append =>
    made x (.ok (if append then x ++ rule.apply x else rule.apply x))
  | compress p => made x (.ok (p.pack x))
  | decompress c => made x (c.unpack x)

/-- The transformer as any other one. -/
def toTransformer (t : Transform) : Transformer := ⟨t.supportsInPlace, t.apply⟩

def name : Transform → String
  | bitwise .. => "Bitwise"
  | negate => "Negate"
  | shift .. => "Shift"
  | switchBit .. => "BitSwitch"
  | reverse => "Reverse"
  | copy .. => "Copy"
  | resize .. => "Resize"
  | concat _ => "Concat"
  | sort .. => "Sort"
  | shuffle _ => "Shuffle"
  | digest _ => "Digest"
  | hmac .. => "Hmac"
  | checksum .. => "Checksum"
  | compress _ | decompress _ => "Compression"

/-- The description of a transformer: its name and how it works. -/
def description (t : Transform) : String :=
  let mode := if t.supportsInPlace then "in-place" else "copying"
  s!"<{t.name}Transformer {mode}>"

end Transform
end Octets
