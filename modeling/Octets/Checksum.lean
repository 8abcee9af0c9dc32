import Octets.Bytes
import Octets.Fault
import Octets.Text.Blank
/-!
Checksums of 32 bits, and rules that name one and keep its low bytes. Core Lean
only.
-/
namespace Octets

inductive Checksum
  | crc32
  | adler32
  deriving DecidableEq, Repr

namespace Checksum

/-- Eight steps of division by the reflected polynomial. -/
def crcByte (crc : UInt32) (b : UInt8) : UInt32 :=
  (List.range 8).foldl (fun c _ =>
    if c &&& 1 = 1 then (c >>> 1) ^^^ 0xEDB88320 else c >>> 1) (crc ^^^ b.toUInt32)

def crc (x : Bytes) : UInt32 := ~~~(x.foldl crcByte 0xFFFFFFFF)

/-- One step of two sums modulo 65521: of the bytes, and of the sums on the way. -/
def adlerByte (s : Nat × Nat) (b : UInt8) : Nat × Nat :=
  let a := (s.1 + b.toNat) % 65521
  (a, (s.2 + a) % 65521)

def adler (x : Bytes) : Nat :=
  let s := x.foldl adlerByte (1, 0)
  s.2 * 65536 + s.1

def value : Checksum → Bytes → Nat
  | crc32, x => (crc x).toNat
  | adler32, x => adler x

/-- The checksum of a name: case, blanks at the ends and dashes do not matter. -/
def ofName? (name : Text) : Option Checksum :=
  let bare := (Text.asciiLower (Text.trim name)).filter (· ≠ CodePoint.ofChar '-')
  if bare = Text.ofString "crc32" then some crc32
  else if bare = Text.ofString "adler32" then some adler32
  else none

end Checksum

/-- A checksum of which the low one to four bytes are kept. -/
structure ChecksumRule where
  algorithm : Checksum
  width : Nat
  width_le : width ≤ 4

namespace ChecksumRule

/-- The rule of a name and a width; the name is looked up first. -/
def build (name : Text) (width : Int) : Outcome ChecksumRule :=
  match Checksum.ofName? name with
  | none => .error (.unknownChecksum name)
  | some c =>
    if h : 1 ≤ width ∧ width ≤ 4 then .ok ⟨c, width.toNat, by omega⟩
    else .error (.checksumWidth width)

/-- The whole CRC-32. -/
def crc32 : ChecksumRule := ⟨.crc32, 4, by decide⟩

/-- The checksum, most significant byte first. -/
def apply (r : ChecksumRule) (x : Bytes) : Bytes :=
  (Bytes.ofNat 4 (r.algorithm.value x)).drop (4 - r.width)

@[simp] theorem length_apply (r : ChecksumRule) (x : Bytes) :
    (r.apply x).length = r.width := by
  have := r.width_le
  simp [apply]
  omega

end ChecksumRule
end Octets
