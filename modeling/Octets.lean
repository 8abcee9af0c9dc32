import Octets.Store.Call
import Octets.Proofs.Tabulation
import Octets.Proofs.Alphabet
import Octets.Proofs.Encoding.Base64
import Octets.Proofs.Encoding.Hex
import Octets.Proofs.Magnitude
import Octets.Proofs.Encoding.Base32
import Octets.Proofs.Encoding.Radix
import Octets.Proofs.Encoding.RoundTrip
import Octets.Proofs.Store.Changes
import Octets.Proofs.Store.Execution
import Octets.Proofs.Store.Run
import Octets.Proofs.Store.Isolation
import Octets.Proofs.Store.Dispatch
import Octets.Proofs.Store.Chain
import Octets.Proofs.BitString
import Octets.Proofs.Encoding.Base32Grammar
import Octets.Proofs.Encoding.Base64Grammar
import Octets.Proofs.Store.Step
import Octets.Proofs.Store.Frame
import Octets.Proofs.Store.Handles
import Octets.Proofs.Store.Sharing
import Octets.Proofs.Store.Closure
import Octets.Proofs.Chunks
import Octets.Proofs.Reversal
import Octets.Proofs.Store.Mirror
import Octets.Proofs.Encoding.BitText
import Octets.Proofs.Encoding.Canonical
import Octets.Proofs.Bits
import Octets.Proofs.Text.Codec
import Octets.Proofs.Deflate.Container
import Octets.Proofs.Setup
import Octets.Proofs.Encoding.HexGrammar
import Octets.Proofs.Shift
import Octets.Numeric.Stream
import Octets.Proofs.Encoding.Digits
import Octets.Proofs.IntegerViews
import Octets.Proofs.Packing
import Octets.Proofs.Bitwise
import Octets.Proofs.Source
import Octets.Proofs.Search
import Octets.Proofs.Arrange
import Octets.Proofs.Resize
import Octets.Proofs.Store.Overwrite
import Octets.Proofs.Arithmetic
import Octets.Proofs.Numerals
import Octets.Proofs.Validator
import Octets.Proofs.Store.Comparison
import Octets.Digest.Standard
import Octets.Random.Twister
import Octets.Proofs.Deflate.Stored
import Octets.Proofs.Random
