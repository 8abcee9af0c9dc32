import Octets.Bytes
import Octets.Fault
import Octets.Text.Blank
/-!
Digests, how they are found by name, and the keyed digest HMAC over any of them. Which
digests there are is up to the system, so that its collection of them is a parameter here.
Core Lean only.
-/
namespace Octets

/-- A digest under its canonical name. -/
structure Digest where
  name : Text
  /-- The block a message is taken in, in bytes. -/
  blockSize : Nat
  hash : Bytes → Bytes

namespace Digest

/-- Whether the output is as long as one asks for: there is none of a length of its own. -/
def isVariable (d : Digest) : Bool := (Text.ofString "shake").isPrefixOf d.name

/-- The key in a whole block: hashed if it is longer, filled with zeros. -/
def blockKey (d : Digest) (key : Bytes) : Bytes :=
  let k := if d.blockSize < key.length then d.hash key else key
  k ++ Bytes.zeros (d.blockSize - k.length)

/-- The keyed digest of a message. -/
def hmac (d : Digest) (key x : Bytes) : Bytes :=
  let k := d.blockKey key
  let inner := d.hash (k.map (· ^^^ 0x36) ++ x)
  d.hash (k.map (· ^^^ 0x5C) ++ inner)

end Digest

/-- The digests that a system has. What it promises is that a canonical name is in lower
case, with no blanks at its ends, and a name of its digest. -/
structure DigestLibrary where
  /-- A name in lower case. -/
  lower : Text → Text
  find? : Text → Option Digest
  lower_name : ∀ {name : Text} {d : Digest}, find? name = some d →
    lower (Text.trim d.name) = d.name
  find?_name : ∀ {name : Text} {d : Digest}, find? name = some d → find? d.name = some d

namespace DigestLibrary

/-- The spellings tried for a name: in lower case without blanks at its ends, and
then without its dashes, and with underscores for them. -/
def candidates (l : DigestLibrary) (name : Text) : List Text :=
  let lowered := l.lower (Text.trim name)
  let dash := CodePoint.ofChar '-'
  [lowered, lowered.filter (· ≠ dash),
    lowered.map fun c => if c = dash then CodePoint.ofChar '_' else c]

/-- The digest of a name, the output of which has a length of its own. -/
def resolve (l : DigestLibrary) (name : Text) : Outcome Digest :=
  ((l.candidates name).findSome? fun spelling =>
    (l.find? spelling).filter fun d => !d.isVariable).elim (.error (.unknownDigest name)) .ok

/-- The name of the digest that holds where none is named. -/
def standardName : Text := Text.ofString "sha256"

/-- The digest that an optional name stands for. -/
def resolveOr (l : DigestLibrary) (name : Option Text) : Outcome Digest :=
  l.resolve (name.getD standardName)

end DigestLibrary
end Octets
