import Octets.Chunks
import Octets.Order
/-!
What the iterated digests share: a message is closed with a one bit, zeros and its
length in bits, cut into blocks, and each block into words. Core Lean only.
-/
namespace Octets.Digest

/-- The message closed to whole blocks: `block` is their size and `field` that of
the length, in bytes. -/
def padded (o : ByteOrder) (block field : Nat) (x : Bytes) : Bytes :=
  let zeros := (block - (x.length + 1 + field) % block) % block
  x ++ 0x80 :: Bytes.zeros zeros ++ o.logical (Bytes.ofNat field (8 * x.length))

/-- The words of `n + 1` bytes each. -/
def wordsOf (w : Nat) (o : ByteOrder) (n : Nat) (x : Bytes) : List (BitVec w) :=
  (chunks n x).map fun c => BitVec.ofNat w (o.logical c).value

/-- The bytes of words of `n` bytes each. -/
def bytesOf {w : Nat} (o : ByteOrder) (n : Nat) (words : List (BitVec w)) : Bytes :=
  words.flatMap fun v => o.logical (Bytes.ofNat n v.toNat)

theorem length_bytesOf {w : Nat} (o : ByteOrder) (n : Nat) (words : List (BitVec w)) :
    (bytesOf o n words).length = n * words.length := by
  induction words with
  | nil => rfl
  | cons v words ih =>
    simp only [bytesOf, List.flatMap_cons, List.length_append] at ih ⊢
    rw [ih]
    simp only [ByteOrder.length_logical, Bytes.length_ofNat, List.length_cons, Nat.mul_add]
    omega

end Octets.Digest
