import Octets.Text.Codec
import Octets.Text.NormalForm
/-!
Texts to bytes and back under a codec that is named. The name of the codec is
looked up first, then that of the normal form, before the text is looked at. Core
Lean only.
-/
namespace Octets.Text

/-- The bytes of a text in a codec, after normalization if a form is named. -/
def encoded (t : Text) (codec : Text) (n : Option Normalization) : Outcome Bytes := do
  let c ← TextCodec.lookup codec
  let normal ← n.elim (.ok t) (·.apply t)
  c.encode normal

/-- The text of bytes in a codec. -/
def ofEncoded (x : Bytes) (codec : Text) : Outcome Text := do
  let c ← TextCodec.lookup codec
  c.decode x

end Octets.Text
