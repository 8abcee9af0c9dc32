import Octets.Deflate.Container
/-!
The plainest way to pack: content that is stored as it is. Core Lean only.
-/
namespace Octets.Deflate

/-- A stored block of at most 65535 bytes, the last one or not. -/
def storedBlock (last : Bool) (piece : Bytes) : Bytes :=
  (if last then 1 else 0) :: Bytes.littleOfNat 2 piece.length ++
    Bytes.littleOfNat 2 (65535 - piece.length) ++ piece

/-- Content in stored blocks; `pieces` bounds their number. -/
def storeIn : Nat → Bytes → Bytes
  | 0, _ => []
  | pieces + 1, x =>
    let rest := x.drop 65535
    if rest.isEmpty then storedBlock true x
    else storedBlock false (x.take 65535) ++ storeIn pieces rest

/-- Deflate data with the content stored as it is. -/
def store (x : Bytes) : Bytes := storeIn (x.length / 65535 + 1) x

def zlibEncode (x : Bytes) : Bytes :=
  0x78 :: 0x01 :: store x ++ Bytes.ofNat 4 (Checksum.adler x)

def gzipEncode (x : Bytes) : Bytes :=
  [0x1F, 0x8B, 8, 0, 0, 0, 0, 0, 0, 0xFF] ++ store x ++
    Bytes.littleOfNat 4 (Checksum.crc x).toNat ++ Bytes.littleOfNat 4 x.length

/-- The content in a container, stored. -/
def Container.store : Container → Bytes → Bytes
  | .zlib => zlibEncode
  | .gzip => gzipEncode

end Octets.Deflate
