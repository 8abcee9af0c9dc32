import Octets.Order
/-!
Text codecs: how a text is written as bytes. Writing refuses the first code point
that a codec cannot represent, reading the first place where the bytes are not
what writing produces. No byte order mark is added or removed. Core Lean only.
-/
namespace Octets

inductive TextCodec
  | utf8
  | ascii
  | latin1
  | utf16 (o : ByteOrder)
  | utf32 (o : ByteOrder)
  deriving DecidableEq, Repr

namespace TextCodec

def name : TextCodec → String
  | utf8 => "utf-8"
  | ascii => "ascii"
  | latin1 => "iso8859-1"
  | utf16 .little => "utf-16-le"
  | utf16 .big => "utf-16-be"
  | utf32 .little => "utf-32-le"
  | utf32 .big => "utf-32-be"

/-- The other names of each codec, in the spelling below. -/
def aliases : List (String × TextCodec) :=
  ["u8", "utf", "utf8", "utf8_ucs2", "utf8_ucs4", "cp65001"].map (·, utf8) ++
  ["646", "ansi_x3.4_1968", "ansi_x3_4_1968", "ansi_x3.4_1986", "cp367", "csascii", "ibm367",
    "iso646_us", "iso_646.irv_1991", "iso_ir_6", "us", "us_ascii"].map (·, ascii) ++
  ["8859", "cp819", "csisolatin1", "ibm819", "iso8859", "iso8859_1", "iso_8859_1",
    "iso_8859_1_1987", "iso_ir_100", "l1", "latin", "latin1"].map (·, latin1) ++
  ["unicodelittleunmarked", "utf_16le"].map (·, utf16 .little) ++
  ["unicodebigunmarked", "utf_16be"].map (·, utf16 .big) ++
  [("utf_32le", utf32 .little), ("utf_32be", utf32 .big)]

/-- The name that each codec is kept under. -/
def keptNames : List (String × TextCodec) :=
  [("utf_8", utf8), ("ascii", ascii), ("latin_1", latin1), ("utf_16_le", utf16 .little),
   ("utf_16_be", utf16 .big), ("utf_32_le", utf32 .little), ("utf_32_be", utf32 .big)]

private def isNameSymbol (c : CodePoint) : Bool :=
  Text.inRanges [(0x2E, 0x2E), (0x30, 0x39), (0x41, 0x5A), (0x61, 0x7A)] c

/-- The words of a codec name, in lower case and joined by an underscore: whatever
is no ASCII letter, digit or point parts two words. `gap` says whether such a thing
has been met since the last word, `begun` whether there is one. -/
def spelling (begun gap : Bool) : Text → Text
  | [] => []
  | c :: t =>
    if isNameSymbol c then
      (if begun && gap then [CodePoint.ofChar '_'] else []) ++
        c.asciiLower :: spelling true false t
    else spelling begun true t

/-- The codec of a name. An alias may also have underscores for points. -/
def ofName? (name : Text) : Option TextCodec :=
  let words := Text.asString (spelling false false name)
  let pointless := words.map fun c => if c = '.' then '_' else c
  (aliases.lookup words).orElse fun _ =>
    (aliases.lookup pointless).orElse fun _ => keptNames.lookup words

/-- A point may stand for an underscore in an alias, but not in the name a codec is kept under. -/
example : ofName? (Text.ofString "utf.16le") = some (.utf16 .little) ∧
    ofName? (Text.ofString "utf.16.le") = none := by
  decide +kernel

/-- The codec of a name, which is a string that has neither surrogates nor NUL. -/
def lookup (name : Text) : Outcome TextCodec :=
  if name.any CodePoint.isSurrogate then .error .surrogateInName
  else if name.any (·.val == 0) then .error .nulInName
  else (ofName? name).elim (.error (.unknownCodec name)) .ok

/-- The bytes of a code point in UTF-8. -/
def utf8Bytes (c : Nat) : Bytes :=
  let tail (n : Nat) : UInt8 := UInt8.ofNat (0x80 + c / 64 ^ n % 64)
  if c < 0x80 then [UInt8.ofNat c]
  else if c < 0x800 then [UInt8.ofNat (0xC0 + c / 64), tail 0]
  else if c < 0x10000 then [UInt8.ofNat (0xE0 + c / 64 ^ 2), tail 1, tail 0]
  else [UInt8.ofNat (0xF0 + c / 64 ^ 3), tail 2, tail 1, tail 0]

/-- The bytes of a code point in UTF-16: one unit, or a pair of surrogates. -/
def utf16Bytes (o : ByteOrder) (c : Nat) : Bytes :=
  let unit (n : Nat) : Bytes := o.logical (Bytes.ofNat 2 n)
  if c < 0x10000 then unit c
  else unit (0xD800 + (c - 0x10000) / 0x400) ++ unit (0xDC00 + (c - 0x10000) % 0x400)

/-- The bytes of a code point, if the codec has it. -/
def point? (codec : TextCodec) (c : CodePoint) : Option Bytes :=
  match codec with
  | ascii => if c.val < 0x80 then some [UInt8.ofNat c.val] else none
  | latin1 => if c.val < 0x100 then some [UInt8.ofNat c.val] else none
  | utf8 => if c.isSurrogate then none else some (utf8Bytes c.val)
  | utf16 o => if c.isSurrogate then none else some (utf16Bytes o c.val)
  | utf32 o => if c.isSurrogate then none else some (o.logical (Bytes.ofNat 4 c.val))

/-- Why a codec does not have a code point. -/
def gapReason : TextCodec → String
  | ascii => "ordinal not in range(128)"
  | latin1 => "ordinal not in range(256)"
  | _ => "surrogates not allowed"

/-- The bytes of a text whose first code point stands at index `i`. -/
def encodeFrom (codec : TextCodec) (i : Nat) : Text → Outcome Bytes
  | [] => .ok []
  | c :: t => match codec.point? c with
    | none => .error (.unencodable codec.name codec.gapReason i)
    | some x => (encodeFrom codec (i + 1) t).map (x ++ ·)

def encode (codec : TextCodec) (t : Text) : Outcome Bytes := encodeFrom codec 0 t

/-- One code point at the front of some bytes: it, and how many bytes it takes after
the first; or what is wrong. -/
abbrev Step := UInt8 → Bytes → Except String (Nat × Nat)

/-- The tail bytes that a lead byte of UTF-8 asks for, the bits it carries, and the
range of the first tail byte, which leaves out long forms and surrogates. -/
def utf8Lead? (b : UInt8) : Option (Nat × Nat × UInt8 × UInt8) :=
  if b < 0x80 then some (0, b.toNat, 0x80, 0xBF)
  else if b < 0xC2 then none
  else if b < 0xE0 then some (1, b.toNat - 0xC0, 0x80, 0xBF)
  else if b < 0xF0 then
    some (2, b.toNat - 0xE0, if b = 0xE0 then 0xA0 else 0x80, if b = 0xED then 0x9F else 0xBF)
  else if b < 0xF5 then
    some (3, b.toNat - 0xF0, if b = 0xF0 then 0x90 else 0x80, if b = 0xF4 then 0x8F else 0xBF)
  else none

/-- Take `n` tail bytes, the first of them in the range, to the bits `v`. -/
def utf8Tail : Nat → Nat → UInt8 → UInt8 → Bytes → Except String Nat
  | 0, v, _, _, _ => .ok v
  | _ + 1, _, _, _, [] => .error "unexpected end of data"
  | n + 1, v, low, high, b :: x =>
    if low ≤ b ∧ b ≤ high then utf8Tail n (v * 64 + b.toNat % 64) 0x80 0xBF x
    else .error "invalid continuation byte"

def utf8Step : Step := fun b x =>
  match utf8Lead? b with
  | none => .error "invalid start byte"
  | some (n, v, low, high) => (utf8Tail n v low high x).map (·, n)

def asciiStep : Step := fun b _ =>
  if b < 0x80 then .ok (b.toNat, 0) else .error "ordinal not in range(128)"

def latin1Step : Step := fun b _ => .ok (b.toNat, 0)

def utf16Step (o : ByteOrder) : Step := fun b x =>
  match x with
  | [] => .error "truncated data"
  | c :: x =>
    let unit := (o.logical [b, c]).value
    if unit < 0xD800 ∨ 0xE000 ≤ unit then .ok (unit, 1)
    else if 0xDC00 ≤ unit then .error "illegal encoding"
    else match x with
      | d :: e :: _ =>
        let low := (o.logical [d, e]).value
        if 0xDC00 ≤ low ∧ low < 0xE000 then
          .ok (0x10000 + (unit - 0xD800) * 0x400 + (low - 0xDC00), 3)
        else .error "illegal UTF-16 surrogate"
      | _ => .error "unexpected end of data"

def utf32Step (o : ByteOrder) : Step := fun b x =>
  match x with
  | c :: d :: e :: _ =>
    let point := (o.logical [b, c, d, e]).value
    if 0x110000 ≤ point then .error "code point not in range(0x110000)"
    else if 0xD800 ≤ point ∧ point < 0xE000 then
      .error "code point in surrogate code point range(0xd800, 0xe000)"
    else .ok (point, 3)
  | _ => .error "truncated data"

def step : TextCodec → Step
  | utf8 => utf8Step
  | ascii => asciiStep
  | latin1 => latin1Step
  | utf16 o => utf16Step o
  | utf32 o => utf32Step o

/-- The text of bytes the first of which stands at index `i`. -/
def decodeFrom (codec : TextCodec) (i : Nat) : Bytes → Outcome Text
  | [] => .ok []
  | b :: x => match codec.step b x with
    | .error reason => .error (.undecodable codec.name reason i)
    | .ok (c, n) => (decodeFrom codec (i + n + 1) (x.drop n)).map (CodePoint.ofNat c :: ·)
termination_by x => x.length
decreasing_by simp only [List.length_drop, List.length_cons]; omega

def decode (codec : TextCodec) (x : Bytes) : Outcome Text := decodeFrom codec 0 x

end TextCodec
end Octets
