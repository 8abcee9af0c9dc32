import Octets.Bytes
import Octets.Fault
/-!
Byte orders. The order of a sequence is a way of reading its storage: a little
sequence is read as the reversal of what is stored. Core Lean only.
-/
namespace Octets

inductive ByteOrder
  | big
  | little
  deriving DecidableEq, Repr, Inhabited

namespace ByteOrder

/-- The order that holds where none is named. -/
def standard : ByteOrder := .big

def name : ByteOrder → String
  | .big => "big"
  | .little => "little"

/-- An order from its name, in either letter case. -/
def ofName? (name : String) : Option ByteOrder :=
  if name.toLower = "big" then some .big
  else if name.toLower = "little" then some .little
  else none

/-- The order an argument names; the standard one where none is given. -/
def named : Option String → Outcome ByteOrder
  | none => .ok standard
  | some name => (ofName? name).elim (.error .unknownOrder) .ok

/-- The bytes most significant first: reversed for a little order. -/
def logical : ByteOrder → Bytes → Bytes
  | .big, x => x
  | .little, x => x.reverse

@[simp] theorem length_logical (o : ByteOrder) (x : Bytes) :
    (o.logical x).length = x.length := by
  cases o <;> simp [logical]

@[simp] theorem logical_logical (o : ByteOrder) (x : Bytes) :
    o.logical (o.logical x) = x := by
  cases o <;> simp [logical]

end ByteOrder
end Octets
