import Octets.Digest.Basic
import Octets.Digest.Md5
import Octets.Digest.Sha1
import Octets.Digest.Sha2
import Octets.Digest.Sha3
/-!
Ten digests of fixed length, and a library of them. Core Lean only.
-/
namespace Octets

inductive StandardDigest
  | md5
  | sha1
  | sha224
  | sha256
  | sha384
  | sha512
  | sha3of224
  | sha3of256
  | sha3of384
  | sha3of512
  deriving DecidableEq, Repr

namespace StandardDigest

def all : List StandardDigest :=
  [md5, sha1, sha224, sha256, sha384, sha512, sha3of224, sha3of256, sha3of384, sha3of512]

/-- The canonical name. -/
def name : StandardDigest → String
  | md5 => "md5"
  | sha1 => "sha1"
  | sha224 => "sha224"
  | sha256 => "sha256"
  | sha384 => "sha384"
  | sha512 => "sha512"
  | sha3of224 => "sha3_224"
  | sha3of256 => "sha3_256"
  | sha3of384 => "sha3_384"
  | sha3of512 => "sha3_512"

def hash : StandardDigest → Bytes → Bytes
  | md5 => Digest.Md5.hash
  | sha1 => Digest.Sha1.hash
  | sha224 => Digest.Sha2.hash224
  | sha256 => Digest.Sha2.hash256
  | sha384 => Digest.Sha2.hash384
  | sha512 => Digest.Sha2.hash512
  | sha3of224 => Digest.Sha3.hash 28
  | sha3of256 => Digest.Sha3.hash 32
  | sha3of384 => Digest.Sha3.hash 48
  | sha3of512 => Digest.Sha3.hash 64

def blockSize : StandardDigest → Nat
  | md5 | sha1 | sha224 | sha256 => 64
  | sha384 | sha512 => 128
  | sha3of224 => 144
  | sha3of256 => 136
  | sha3of384 => 104
  | sha3of512 => 72

def toDigest (d : StandardDigest) : Digest := ⟨Text.ofString d.name, d.blockSize, d.hash⟩

/-- The digest of a canonical name; those of the third family may also be written
with a dash. -/
def ofName? (name : Text) : Option StandardDigest :=
  all.find? fun d => name = Text.ofString d.name || name = Text.ofString (dashed d)
where
  dashed (d : StandardDigest) : String := d.name.map fun c => if c = '_' then '-' else c

theorem lower_name (d : StandardDigest) :
    Text.asciiLower (Text.trim (Text.ofString d.name)) = Text.ofString d.name := by
  cases d <;> decide +kernel

theorem ofName?_name (d : StandardDigest) : ofName? (Text.ofString d.name) = some d := by
  cases d <;> decide +kernel

end StandardDigest

/-- The library of the ten digests, which have no names but in ASCII. -/
def DigestLibrary.standard : DigestLibrary where
  lower := Text.asciiLower
  find? name := (StandardDigest.ofName? name).map StandardDigest.toDigest
  lower_name h := by
    obtain ⟨d, -, rfl⟩ := Option.map_eq_some_iff.mp h
    exact d.lower_name
  find?_name h := by
    obtain ⟨d, -, rfl⟩ := Option.map_eq_some_iff.mp h
    exact Option.map_eq_some_iff.mpr ⟨d, d.ofName?_name, rfl⟩

end Octets
