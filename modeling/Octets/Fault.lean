import Octets.Text.Quoted
import Octets.Variant
/-!
What can go wrong, by cause. A cause fixes its kind, its message and, for input
that could not be decoded, the index where it went wrong. Core Lean only.
-/
namespace Octets

/-- What a fault is about: how something was set up, the form of encoded input,
the shape of a sequence, what a variant allows, a range; and the faults of
single arguments, which carry no message of their own. -/
inductive FaultKind
  | configuration
  | format
  | state
  | capability
  | bounds
  | badValue
  | badIndex
  | badType
  | badName
  | overflow
  | pinned
  | noFile
  | interrupted
  | unbound
  | zeroDivision
  /-- A computation that does not come to an end. -/
  | endless
  deriving DecidableEq, Repr

inductive Fault
  | fewSymbols (count : Nat)
  | ambiguousSymbol (symbol : CodePoint) (symbols : Text)
  | alphabetRadix (radix : Int)
  | encodingRadix (radix : Int)
  | unknownDigest (name : Text)
  | unknownChecksum (name : Text)
  | checksumWidth (width : Int)
  | unknownCodec (name : Text)
  | unknownForm (name : Text)
  | notADigit (key : Text) (radix : Nat) (position : Int)
  | oddHexLength (length : Nat)
  | base32Length (length : Nat)
  | afterPadding (position : Nat)
  | notBase64 (symbol : CodePoint) (position : Nat)
  | danglingSymbol (count : Nat)
  | notDeflated
  | notGzip
  | unencodable (codec reason : String) (position : Nat)
  | undecodable (codec reason : String) (position : Nat)
  | wrongLength (type : String) (expected actual : Int)
  | unevenLength (subject : String) (divisor actual : Int)
  | readOutside (type : String) (index length : Int)
  | operandLength (operation : String) (length operand : Nat)
  | bitOutside (position : Int) (bits : Nat)
  | byteOutside (index : Int) (length : Nat)
  | unsupported (operation : String) (variant : Variant)
  | negative (name : String) (value : Int)
  | divisorNotPositive (divisor : Int)
  | notAByte (value : Int) (index : Nat)
  | tooWide (value : Int) (width : Nat)
  | notOneUnit (text : Text)
  | copyOutside (offset stop : Int) (length : Nat)
  | overwriteOutside (offset stop : Int) (length : Nat)
  | fileOutside (offset stop : Int) (path : String) (length : Nat)
  | unknownOrder
  | zeroStep
  | byteValue
  | malformedUuid
  | nulInName
  | surrogateInName
  | zeroModulus
  | indexOutside
  | notWritable
  | notText
  | notBytes
  | realOverflow
  | viewed
  | fileMissing
  | interrupted
  | unbound
  | endless
  deriving DecidableEq, Repr

namespace Fault

def kind : Fault → FaultKind
  | fewSymbols .. | ambiguousSymbol .. | alphabetRadix .. | encodingRadix ..
  | unknownDigest .. | unknownChecksum .. | checksumWidth .. | unknownCodec ..
  | unknownForm .. => .configuration
  | notADigit .. | oddHexLength .. | base32Length .. | afterPadding .. | notBase64 ..
  | danglingSymbol .. | notDeflated | notGzip | unencodable .. | undecodable .. => .format
  | wrongLength .. | unevenLength .. | readOutside .. | operandLength .. | bitOutside ..
  | byteOutside .. => .state
  | unsupported .. => .capability
  | negative .. | divisorNotPositive .. | notAByte .. | tooWide .. | notOneUnit ..
  | copyOutside .. | overwriteOutside .. | fileOutside .. => .bounds
  | unknownOrder | zeroStep | byteValue | malformedUuid | nulInName => .badValue
  | surrogateInName => .badName
  | zeroModulus => .zeroDivision
  | indexOutside => .badIndex
  | notWritable | notText | notBytes => .badType
  | realOverflow => .overflow
  | viewed => .pinned
  | fileMissing => .noFile
  | interrupted => .interrupted
  | unbound => .unbound
  | endless => .endless

/-- Where encoded input went wrong; negative where no index is known. -/
def position : Fault → Int
  | notADigit _ _ position => position
  | afterPadding position | notBase64 _ position | unencodable _ _ position
  | undecodable _ _ position => position
  | _ => -1

/-- The cause in words, without the index. -/
def cause : Fault → String
  | fewSymbols count => s!"alphabet needs at least 2 symbols, got {count}"
  | ambiguousSymbol symbol symbols =>
    s!"symbol {Text.quoted [symbol]} is ambiguous in alphabet {Text.quoted symbols}"
  | alphabetRadix radix => s!"supported radix is between 2 and 36, got {radix}"
  | encodingRadix radix => s!"supported radix is between 2 and 36, or 64; got {radix}"
  | unknownDigest name => s!"could not get message digest algorithm {Text.quoted name}"
  | unknownChecksum name =>
    s!"unknown checksum {Text.quoted name}, supported: ['adler32', 'crc32']"
  | checksumWidth width => s!"checksum length must be between 1 and 4 bytes, got {width}"
  | unknownCodec name => s!"unknown text encoding {Text.quoted name}"
  | unknownForm name => s!"unknown normalization form {Text.quoted name}"
  | notADigit key radix _ => s!"character {Text.quoted key} is not a base-{radix} digit"
  | oddHexLength length => s!"invalid hex string of length {length}, must be even"
  | base32Length length => s!"invalid base32 length {length}"
  | afterPadding _ => "base64 data after '=' padding"
  | notBase64 symbol _ => s!"character {Text.quoted [symbol]} is not base64"
  | danglingSymbol count => s!"invalid base64 length: {count} symbols leave a dangling 6 bits"
  | notDeflated => "could not inflate data"
  | notGzip => "could not decompress gzip"
  | unencodable codec reason _ => s!"text is not representable in {codec}: {reason}"
  | undecodable codec reason _ => s!"bytes are not valid {codec}: {reason}"
  | wrongLength type expected actual =>
    s!"cannot convert to {type} if length != {expected} bytes (was {actual})"
  | unevenLength subject divisor actual =>
    s!"illegal length for {subject}: byte length must be a multiple of {divisor}, was {actual}"
  | readOutside type index length =>
    s!"cannot read {type} at index {index}: out of bounds for length {length}"
  | operandLength operation length operand =>
    "all byte arrays must be of same length doing bitwise " ++
      s!"{operation} ({length} != {operand})"
  | bitOutside position bits => s!"bit index {position} out of bounds for {bits} bits"
  | byteOutside index length => s!"byte index {index} out of bounds for length {length}"
  | unsupported operation variant => s!"{operation} is not supported by {variant.title}"
  | negative name value => s!"{name} must not be negative (was {value})"
  | divisorNotPositive divisor => s!"divisor must be positive (was {divisor})"
  | notAByte value index => s!"value {value} at index {index} does not fit in a byte"
  | tooWide value width => s!"value {value} does not fit in {width} bytes"
  | notOneUnit text => s!"{Text.quoted text} is not a single 16 bit character"
  | copyOutside offset stop length =>
    s!"cannot copy [{offset}:{stop}] from array of length {length}"
  | overwriteOutside offset stop length =>
    s!"cannot overwrite [{offset}:{stop}] of array with length {length}"
  | fileOutside offset stop path length =>
    s!"cannot read [{offset}:{stop}] from {path} ({length} bytes)"
  | unknownOrder => "no such byte order"
  | zeroStep => "slice step cannot be zero"
  | byteValue => "byte must be in the range 0 to 255"
  | malformedUuid => "not an identifier of 32 hexadecimal digits"
  | nulInName => "a name cannot hold NUL"
  | surrogateInName => "a name cannot hold a surrogate"
  | zeroModulus => "division by zero"
  | indexOutside => "index out of range"
  | notWritable => "view cannot be written"
  | notText => "not a text"
  | notBytes => "not a byte string"
  | realOverflow => "real does not fit in 4 bytes"
  | viewed => "array with live views cannot be resized"
  | fileMissing => "no such file"
  | interrupted => "interrupted"
  | unbound => "no such object"
  | endless => "does not come to an end"

/-- The whole message: the cause, and the index if there is one. -/
def message (f : Fault) : String :=
  if 0 ≤ f.position then s!"{f.cause} at index {f.position}" else f.cause

end Fault

/-- The outcome of an operation that may be refused. -/
abbrev Outcome := Except Fault

end Octets
