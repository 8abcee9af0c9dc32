import Octets.Checksum
import Octets.Deflate.Inflate
/-!
The two containers of deflate data. The zlib one has a two-byte header and ends
with an Adler-32; what follows it is ignored. The gzip one is a sequence of members,
each with a header of its own and closed with a CRC-32 and the length; zero bytes
may follow a member, and nothing else may. Core Lean only.
-/
namespace Octets.Deflate

/-- The method is deflate, the window at most 32 KiB, no dictionary is preset, and
the two bytes are a multiple of 31. -/
def zlibHeaderHolds (method flags : UInt8) : Bool :=
  method.toNat % 16 == 8 && method.toNat / 16 ≤ 7 && flags.toNat / 32 % 2 == 0 &&
    (method.toNat * 256 + flags.toNat) % 31 == 0

def zlibDecode? : Bytes → Option Bytes
  | method :: flags :: x => do
    if zlibHeaderHolds method flags then
      let (out, rest) ← inflate? x
      if 4 ≤ rest.length ∧ Bytes.value (rest.take 4) = Checksum.adler out then some out else none
    else none
  | _ => none

def skip (n : Nat) (x : Bytes) : Option Bytes :=
  if n ≤ x.length then some (x.drop n) else none

/-- What follows the next zero byte. -/
def afterZero (x : Bytes) : Bytes := (x.dropWhile (· != 0)).drop 1

/-- What follows the header of a member. -/
def afterHeader : Bytes → Option Bytes
  | 0x1F :: 0x8B :: 8 :: flags :: x => do
    let has (bit : Nat) : Bool := flags.toNat.testBit bit
    let x ← skip 6 x
    let x ← if has 2 then do
        let y ← skip 2 x
        skip (Bytes.littleValue (x.take 2)) y
      else pure x
    let x := if has 3 then afterZero x else x
    let x := if has 4 then afterZero x else x
    if has 1 then skip 2 x else pure x
  | _ => none

/-- The content of a member and what follows it. -/
def member? (x : Bytes) : Option (Bytes × Bytes) := do
  let data ← afterHeader x
  let (out, rest) ← inflate? data
  if 8 ≤ rest.length ∧ Bytes.littleValue (rest.take 4) = (Checksum.crc out).toNat ∧
      Bytes.littleValue (Bytes.window rest 4 4) = out.length % 2 ^ 32 then
    some (out, (rest.drop 8).dropWhile (· == 0))
  else none

/-- The members one after another; `count` bounds their number. -/
def members? : Nat → Bytes → Option Bytes
  | _, [] => some []
  | 0, _ :: _ => none
  | count + 1, b :: x => do
    let (out, rest) ← member? (b :: x)
    let more ← members? count rest
    return out ++ more

def gzipDecode? (x : Bytes) : Option Bytes := members? x.length x

/-- The two containers by name. -/
inductive Container
  | zlib
  | gzip
  deriving DecidableEq, Repr

def Container.unpack : Container → Bytes → Outcome Bytes
  | .zlib, x => (zlibDecode? x).elim (.error .notDeflated) .ok
  | .gzip, x => (gzipDecode? x).elim (.error .notGzip) .ok

/-- A service that packs content into a container. It may go about it as it likes; what it
promises is that unpacking brings the content back. -/
structure Container.Packer (c : Container) where
  pack : Bytes → Bytes
  unpack_pack : ∀ x, c.unpack (pack x) = .ok x

end Octets.Deflate
