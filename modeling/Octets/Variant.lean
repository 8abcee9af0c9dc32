/-!
The three kinds of byte sequence, which differ in how they treat their storage:
a mutable one may be written in place, an immutable one owns a private copy that
never changes, a read-only one looks at storage it never writes. Core Lean only.
-/
namespace Octets

inductive Variant
  | mutable
  | immutable
  | readOnly
  deriving DecidableEq, Repr, Inhabited

namespace Variant

def name : Variant → String
  | .mutable => "Mutable"
  | .immutable => "Immutable"
  | .readOnly => "ReadOnly"

/-- The name of a sequence of this variant, as descriptions and messages give it. -/
def title (v : Variant) : String := v.name ++ "Bytes"

/-- Whether transforms may write the storage of the sequence they are applied to. -/
def writesInPlace : Variant → Bool
  | .mutable => true
  | _ => false

end Variant
end Octets
