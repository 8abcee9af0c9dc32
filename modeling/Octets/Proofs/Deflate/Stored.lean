import Octets.Deflate.Stored
import Octets.Proofs.Deflate.Container
/-!
# Stored content

Content that is stored in a container comes out of it again: every block is one of the format,
with its bytes as they are, and the checks at the end are those of the content. So there is a
packer for each container (`Container.storing`).
-/

namespace Octets.Deflate

/-! ## Bits of bytes -/

theorem takeBits_testBit (n v : Nat) (s : BitStream) :
    takeBits n ((List.range n).map v.testBit ++ s) = some (v % 2 ^ n, s) := by
  induction n generalizing v with
  | zero => simp [takeBits, Nat.mod_one]
  | succ n ih =>
    have hrest : (List.range n).map (v.testBit ∘ Nat.succ) =
        (List.range n).map (v / 2).testBit :=
      List.map_congr_left fun i _ => Nat.testBit_succ v i
    have hlow : (v.testBit 0).toNat = v % 2 := by
      rw [Nat.testBit_zero]
      rcases Nat.mod_two_eq_zero_or_one v with h | h <;> simp [h]
    rw [List.range_succ_eq_map, List.map_cons, List.map_map, hrest, List.cons_append, takeBits, ih,
      Option.map_some, hlow, Nat.pow_succ', Nat.mod_mul]

@[simp] theorem bitsOf_nil : bitsOf [] = [] := rfl

theorem bitsOf_cons (b : UInt8) (x : Bytes) :
    bitsOf (b :: x) = (List.range 8).map b.toNat.testBit ++ bitsOf x := rfl

@[simp] theorem length_bitsOf (x : Bytes) : (bitsOf x).length = 8 * x.length := by
  induction x with
  | nil => rfl
  | cons b x ih =>
    rw [bitsOf_cons, List.length_append, ih, List.length_map, List.length_range, List.length_cons]
    omega

theorem takeBits_byte (b : UInt8) (x : Bytes) :
    takeBits 8 (bitsOf (b :: x)) = some (b.toNat, bitsOf x) := by
  rw [bitsOf_cons, takeBits_testBit, Nat.mod_eq_of_lt b.toNat_lt]

theorem takeBits_add (m n : Nat) (s : BitStream) :
    takeBits (m + n) s = (takeBits m s).bind fun r =>
      (takeBits n r.2).map fun q => (r.1 + 2 ^ m * q.1, q.2) := by
  induction m generalizing s with
  | zero =>
    rw [Nat.zero_add]
    simp [takeBits]
  | succ m ih =>
    rw [Nat.succ_add]
    cases s with
    | nil => rfl
    | cons b s =>
      rw [takeBits, takeBits, ih]
      cases takeBits m s with
      | none => rfl
      | some r =>
        simp only [Option.bind_some, Option.map_some, Option.map_map]
        congr 1
        funext q
        simp only [Function.comp_apply, Nat.pow_succ']
        rw [Nat.mul_add, Nat.mul_assoc, Nat.add_assoc]

/-- Two bytes are a number with the lesser one first. -/
theorem takeBits_word {n : Nat} (hn : n < 65536) (x : Bytes) :
    takeBits 16 (bitsOf (Bytes.littleOfNat 2 n ++ x)) = some (n, bitsOf x) := by
  have hlow : (UInt8.ofNat n).toNat = n % 256 := UInt8.toNat_ofNat'
  have hhigh : (UInt8.ofNat (n / 256)).toNat = n / 256 % 256 := UInt8.toNat_ofNat'
  have hbytes : Bytes.littleOfNat 2 n ++ x = UInt8.ofNat n :: UInt8.ofNat (n / 256) :: x := rfl
  rw [hbytes, takeBits_add 8 8, takeBits_byte, Option.bind_some, takeBits_byte, Option.map_some,
    hlow, hhigh]
  congr 2
  omega

theorem takeBytes_bitsOf (x y : Bytes) :
    takeBytes x.length (bitsOf (x ++ y)) = some (x, bitsOf y) := by
  induction x with
  | nil => rfl
  | cons b x ih =>
    rw [List.cons_append, List.length_cons, takeBytes, takeBits_byte]
    simp [ih]

/-! ## Blocks -/

/-- A stored block as the format has it: a mark and a kind, what is left of the byte, a length
and its complement, and the bytes. -/
theorem storedBlock_block (out : Array UInt8) (last : Bool) {piece : Bytes}
    (hpiece : piece.length ≤ 65535) (y : Bytes) :
    ∃ s, takeBits 1 (bitsOf (storedBlock last piece ++ y)) = some (last.toNat, s) ∧
      Block out s (out ++ piece) (bitsOf y) := by
  have hfirst (b : Bool) : (List.range 8).map (if b then 1 else 0 : UInt8).toNat.testBit =
      b :: false :: false :: List.replicate 5 false := by
    cases b <;> rfl
  obtain ⟨z, hz⟩ : ∃ z, z = Bytes.littleOfNat 2 piece.length ++
    (Bytes.littleOfNat 2 (65535 - piece.length) ++ (piece ++ y)) := ⟨_, rfl⟩
  have hbits : bitsOf (storedBlock last piece ++ y) =
      last :: false :: false :: (List.replicate 5 false ++ bitsOf z) := by
    rw [storedBlock, List.cons_append, List.cons_append, List.cons_append, bitsOf_cons, hfirst, hz]
    simp [List.append_assoc]
  have halign : align (List.replicate 5 false ++ bitsOf z) = bitsOf z := by
    have hlength : (List.replicate 5 false ++ bitsOf z).length % 8 = 5 := by
      rw [List.length_append, List.length_replicate, length_bitsOf]
      omega
    rw [align, hlength]
    rfl
  refine ⟨false :: false :: (List.replicate 5 false ++ bitsOf z), ?_, ?_⟩
  · rw [hbits]
    rfl
  · have hcomplement : 65535 - piece.length < 65536 := by omega
    refine .stored rfl ?_ (takeBits_word hcomplement _) (Nat.add_sub_cancel' hpiece)
      (takeBytes_bitsOf piece y)
    rw [halign, hz]
    exact takeBits_word (by omega) _

/-- The blocks of a content that fits in so many pieces. -/
theorem blocks_storeIn {pieces : Nat} {x : Bytes} (hx : x.length < 65535 * pieces)
    (out : Array UInt8) (y : Bytes) :
    Blocks out (bitsOf (storeIn pieces x ++ y)) (out ++ x) (bitsOf y) := by
  induction pieces generalizing x out with
  | zero => exact absurd hx (Nat.not_lt_zero _)
  | succ pieces ih =>
    by_cases hrest : (x.drop 65535).isEmpty = true
    · have hlength : x.length ≤ 65535 := by
        rw [List.isEmpty_iff_length_eq_zero, List.length_drop] at hrest
        omega
      obtain ⟨s, hmark, hblock⟩ := storedBlock_block out true hlength y
      rw [storeIn, if_pos hrest]
      exact .last hmark hblock
    · have hlength : (x.take 65535).length ≤ 65535 := List.length_take_le ..
      obtain ⟨s, hmark, hblock⟩ := storedBlock_block out false hlength
        (storeIn pieces (x.drop 65535) ++ y)
      have hlonger : 65535 < x.length := by
        rw [List.isEmpty_iff_length_eq_zero, List.length_drop] at hrest
        omega
      have hmore := @ih (x.drop 65535) (by rw [List.length_drop]; omega) (out ++ x.take 65535)
      have hpieces : out ++ x.take 65535 ++ x.drop 65535 = out ++ x := by
        rw [← Array.toList_inj]
        simp [List.append_assoc]
      rw [hpieces] at hmore
      rw [storeIn, if_neg hrest, List.append_assoc]
      exact .more hmark nofun hblock hmore

theorem inflates_store (x y : Bytes) : Inflates (store x ++ y) x y := by
  have hx : x.length < 65535 * (x.length / 65535 + 1) := Nat.lt_mul_div_succ _ (by decide)
  have hblocks := blocks_storeIn hx #[] y
  refine ⟨bitsOf y, ?_, ?_⟩
  · simpa [store] using hblocks
  · have hlength : (store x ++ y).length - (bitsOf y).length / 8 = (store x).length := by
      rw [List.length_append, length_bitsOf]
      omega
    rw [hlength, List.drop_left]

/-! ## Containers -/

/-- Both sums of an Adler-32 stay below 65521. -/
theorem foldl_adlerByte_lt (x : Bytes) {s : Nat × Nat} (hs : s.1 < 65521 ∧ s.2 < 65521) :
    (x.foldl Checksum.adlerByte s).1 < 65521 ∧ (x.foldl Checksum.adlerByte s).2 < 65521 := by
  induction x generalizing s with
  | nil => exact hs
  | cons b x ih => exact ih ⟨Nat.mod_lt _ (by decide), Nat.mod_lt _ (by decide)⟩

theorem adler_lt (x : Bytes) : Checksum.adler x < 256 ^ 4 := by
  obtain ⟨hlow, hhigh⟩ := foldl_adlerByte_lt x (s := (1, 0)) ⟨by decide, by decide⟩
  rw [Checksum.adler]
  omega

theorem zlib_zlibEncode (x : Bytes) : Zlib (zlibEncode x) x := by
  have hheader : zlibHeaderHolds 0x78 0x01 = true := by decide
  have hcheck : Bytes.value ((Bytes.ofNat 4 (Checksum.adler x)).take 4) = Checksum.adler x := by
    rw [List.take_of_length_le (by simp), Bytes.value_ofNat, Nat.mod_eq_of_lt (adler_lt x)]
  exact .intro hheader (inflates_store x _) (by simp) hcheck

theorem member_gzipEncode (x : Bytes) : Member (gzipEncode x) x [] := by
  obtain ⟨tail, htail⟩ : ∃ tail, tail = Bytes.littleOfNat 4 (Checksum.crc x).toNat ++
    Bytes.littleOfNat 4 x.length := ⟨_, rfl⟩
  have hheader : afterHeader (gzipEncode x) = some (store x ++ tail) := by
    rw [htail, gzipEncode, List.append_assoc, List.append_assoc]
    rfl
  have hcrc : Bytes.littleValue (tail.take 4) = (Checksum.crc x).toNat := by
    rw [htail, List.take_left' (by simp), Bytes.littleValue_littleOfNat,
      Nat.mod_eq_of_lt (Checksum.crc x).toNat_lt]
  have hsize : Bytes.littleValue (Bytes.window tail 4 4) = x.length % 2 ^ 32 := by
    rw [htail, Bytes.window, List.drop_left' (by simp), List.take_of_length_le (by simp),
      Bytes.littleValue_littleOfNat]
  have hlength : tail.length = 8 := by simp [htail]
  have hmember := Member.intro hheader (inflates_store x tail) (Nat.le_of_eq hlength.symm) hcrc hsize
  rwa [List.drop_of_length_le (Nat.le_of_eq hlength)] at hmember

theorem gzip_gzipEncode (x : Bytes) : Gzip (gzipEncode x) x := by
  have h := Gzip.cons (member_gzipEncode x) .nil
  rwa [List.append_nil] at h

namespace Container

/-- What is stored in a container is what it holds. -/
theorem holds_store (c : Container) (x : Bytes) : c.Holds (c.store x) x := by
  cases c with
  | zlib => exact zlib_zlibEncode x
  | gzip => exact gzip_gzipEncode x

/-- The packer that stores content as it is. -/
def storing (c : Container) : c.Packer := ⟨c.store, fun x => unpack_eq_ok_iff.mpr (c.holds_store x)⟩

end Container

end Octets.Deflate
