import Octets.Encoding.Base32
import Octets.Proofs.Alphabet
import Octets.Proofs.Runs
/-!
# Base32 text read back

The text is the digits of all blocks followed by the padding of the last one
(`encode_eq`); without the padding it is read digit by digit, and each block comes
back from its digits (`decodeBlock_blockDigits`).
-/

namespace Octets.Base32

open Alphabet

/-! ## Symbols -/

theorem radix_base32 : Alphabet.base32.radix = 32 := by decide

theorem reads_base32 : Alphabet.base32.Reads Alphabet.base32 := by
  intro d hd
  rw [radix_base32] at hd
  have h : ∀ d < 32, Alphabet.base32.digitOf? (Alphabet.base32.symbols.getD d 0) = some d := by
    decide
  exact h d hd

theorem padSymbol_not_mem : padSymbol ∉ Alphabet.base32.symbols := by decide

/-! ## Blocks -/

/-- The digits of a block of at most five bytes. -/
def blockDigits (block : Bytes) : List Nat :=
  (List.range (digitCount block.length)).map fun i => pack block / 32 ^ (7 - i) % 32

/-- The digits of the blocks of a string. -/
def digits (x : Bytes) : List Nat := (chunks 4 x).flatMap blockDigits

/-- How many digits a string of `n` bytes is short of whole blocks. -/
def missing (n : Nat) : Nat := if n % 5 = 0 then 0 else 8 - digitCount (n % 5)

theorem blockDigits_lt (block : Bytes) : ∀ d ∈ blockDigits block, d < 32 := by
  intro d hd
  obtain ⟨i, -, rfl⟩ := List.mem_map.mp hd
  exact Nat.mod_lt _ (by decide)

theorem digits_lt (x : Bytes) : ∀ d ∈ digits x, d < 32 := by
  intro d hd
  obtain ⟨block, -, hd⟩ := List.mem_flatMap.mp hd
  exact blockDigits_lt block d hd

theorem length_blockDigits (block : Bytes) :
    (blockDigits block).length = digitCount block.length := by
  simp [blockDigits]

theorem pack_lt {block : Bytes} (h : block.length ≤ 5) : pack block < 32 ^ 8 := by
  have hv := Bytes.value_lt block
  calc pack block
      < 256 ^ block.length * 256 ^ (5 - block.length) :=
        Nat.mul_lt_mul_of_pos_right hv (Nat.pow_pos (by decide))
    _ = 256 ^ 5 := by rw [← Nat.pow_add, Nat.add_sub_of_le h]
    _ = 32 ^ 8 := by decide

/-- The first `k` of the eight digits of `v` write its high part. -/
theorem foldl_digits {v : Nat} (hv : v < 32 ^ 8) {k : Nat} (hk : k ≤ 8) :
    ((List.range k).map fun i => v / 32 ^ (7 - i) % 32).foldl (fun w d => w * 32 + d) 0 =
      v / 32 ^ (8 - k) := by
  induction k with
  | zero => simpa using (Nat.div_eq_of_lt hv).symm
  | succ k ih =>
    have hstep : v / 32 ^ (8 - k) = v / 32 ^ (7 - k) / 32 := by
      rw [Nat.div_div_eq_div_mul, ← Nat.pow_succ, show (7 - k).succ = 8 - k by omega]
    rw [List.range_succ, List.map_append, List.foldl_append, ih (by omega), hstep]
    simp only [List.map_cons, List.map_nil, List.foldl_cons, List.foldl_nil]
    rw [show 8 - (k + 1) = 7 - k by omega]
    exact Nat.div_add_mod' _ 32

/-- The bits below the last digit of a block are the zeros that filled it up. -/
theorem pack_high (block : Bytes) (h : block.length ≤ 5) :
    pack block / 32 ^ (8 - digitCount block.length) * 32 ^ (8 - digitCount block.length) =
      pack block := by
  apply Nat.div_mul_cancel
  have hdvd : 32 ^ (8 - digitCount block.length) ∣ 256 ^ (5 - block.length) := by
    have hpow : (32 : Nat) ^ (8 - digitCount block.length) =
        2 ^ (5 * (8 - digitCount block.length)) := by
      rw [show (32 : Nat) = 2 ^ 5 by decide, ← Nat.pow_mul]
    have hpow' : (256 : Nat) ^ (5 - block.length) = 2 ^ (8 * (5 - block.length)) := by
      rw [show (256 : Nat) = 2 ^ 8 by decide, ← Nat.pow_mul]
    rw [hpow, hpow']
    apply Nat.pow_dvd_pow
    unfold digitCount
    omega
  exact Nat.dvd_mul_left_of_dvd hdvd _

theorem ofNat_pack {block : Bytes} (h : block.length ≤ 5) :
    Bytes.ofNat 5 (pack block) = block ++ Bytes.zeros (5 - block.length) := by
  have hz (n : Nat) : (Bytes.zeros n).value = 0 := by
    induction n with
    | zero => rfl
    | succ n ih =>
      rw [Bytes.zeros, List.replicate_succ, Bytes.value_cons]
      simpa [Bytes.zeros] using ih
  have hlen : (block ++ Bytes.zeros (5 - block.length)).length = 5 := by
    simp [Bytes.zeros]
    omega
  have hval : (block ++ Bytes.zeros (5 - block.length)).value = pack block := by
    rw [Bytes.value_append, hz, pack]
    simp [Bytes.zeros]
  have h5 := Bytes.ofNat_value (block ++ Bytes.zeros (5 - block.length))
  rwa [hlen, hval] at h5

theorem decodeBlock_blockDigits {block : Bytes} (h : block.length ≤ 5) :
    decodeBlock (blockDigits block) = block := by
  have hk : digitCount block.length ≤ 8 := by unfold digitCount; omega
  have hcount : digitCount block.length * 5 / 8 = block.length := by unfold digitCount; omega
  rw [decodeBlock, length_blockDigits, blockDigits, foldl_digits (pack_lt h) hk, pack_high _ h,
    ofNat_pack h, hcount]
  simp

/-! ## Whole texts -/

theorem chunks_of_length_le {α : Type} {k : Nat} {l : List α} (h0 : l ≠ [])
    (h : l.length ≤ k + 1) : chunks k l = [l] := by
  cases l with
  | nil => exact absurd rfl h0
  | cons a l =>
    have hl : l.length ≤ k := by simpa using h
    rw [chunks, List.take_of_length_le hl, List.drop_eq_nil_of_le hl, chunks_nil]

theorem encodeBlock_eq (padding : Bool) (block : Bytes) :
    encodeBlock padding block = Alphabet.base32.spell (blockDigits block) ++
      if padding then List.replicate (8 - digitCount block.length) padSymbol else [] := rfl

theorem encode_eq (padding : Bool) (x : Bytes) :
    encode padding x = Alphabet.base32.spell (digits x) ++
      if padding then List.replicate (missing x.length) padSymbol else [] := by
  unfold encode digits
  fun_induction chunks 4 x with
  | case1 => cases padding <;> rfl
  | case2 a l ih =>
    rw [List.flatMap_cons, List.flatMap_cons, ih, encodeBlock_eq, spell, spell, spell,
      List.map_append]
    by_cases hl : 4 ≤ l.length
    · have hblock : (a :: l.take 4).length = 5 := by simp [hl]
      have hmissing : missing (a :: l).length = missing (l.drop 4).length := by
        simp only [missing, List.length_cons, List.length_drop]
        rw [show (l.length + 1) % 5 = (l.length - 4) % 5 by omega]
      rw [hblock, hmissing]
      simp [digitCount]
    · have htake : l.take 4 = l := List.take_of_length_le (by omega)
      have hdrop : l.drop 4 = [] := List.drop_eq_nil_of_le (by omega)
      have hmissing : missing (a :: l).length = 8 - digitCount (a :: l).length := by
        simp only [missing, List.length_cons]
        rw [if_neg (by omega), Nat.mod_eq_of_lt (by omega)]
      have h0 : missing 0 = 0 := rfl
      rw [htake, hdrop, hmissing, chunks_nil]
      simp [h0]

theorem length_digits (x : Bytes) :
    (digits x).length = 8 * (x.length / 5) + digitCount (x.length % 5) := by
  unfold digits
  fun_induction chunks 4 x with
  | case1 => rfl
  | case2 a l ih =>
    rw [List.flatMap_cons, List.length_append, ih, length_blockDigits]
    simp only [digitCount, List.length_cons, List.length_take, List.length_drop]
    omega

theorem length_digits_valid (x : Bytes) :
    validTails.contains ((digits x).length % 8) = true := by
  have hmod : (digits x).length % 8 = digitCount (x.length % 5) := by
    rw [length_digits]
    unfold digitCount
    omega
  have hall : ∀ n < 5, validTails.contains (digitCount n) = true := by decide
  rw [hmod]
  exact hall _ (Nat.mod_lt _ (by decide))

theorem decodeBlocks_digits (x : Bytes) : (chunks 7 (digits x)).flatMap decodeBlock = x := by
  unfold digits
  fun_induction chunks 4 x with
  | case1 => rw [List.flatMap_nil, chunks_nil, List.flatMap_nil]
  | case2 a l ih =>
    have hle : (a :: l.take 4).length ≤ 5 := by
      rw [List.length_cons, List.length_take]
      omega
    by_cases hl : 4 ≤ l.length
    · have hlen : (blockDigits (a :: l.take 4)).length = 7 + 1 := by
        simp [length_blockDigits, digitCount, hl]
      rw [List.flatMap_cons, chunks_append 7 _ _ hlen, List.flatMap_cons, ih,
        decodeBlock_blockDigits hle, List.cons_append, List.take_append_drop]
    · have hdrop : l.drop 4 = [] := List.drop_eq_nil_of_le (by omega)
      have hlen : (blockDigits (a :: l.take 4)).length ≤ 7 + 1 := by
        rw [length_blockDigits]
        unfold digitCount
        omega
      have hne : blockDigits (a :: l.take 4) ≠ [] := by
        intro h0
        have := length_blockDigits (a :: l.take 4)
        rw [h0] at this
        simp only [List.length_nil, digitCount, List.length_cons] at this
        omega
      rw [hdrop, chunks_nil, List.flatMap_cons, List.flatMap_nil, List.append_nil,
        chunks_of_length_le hne hlen, List.flatMap_cons, List.flatMap_nil, List.append_nil,
        decodeBlock_blockDigits hle, List.take_of_length_le (by omega)]

/-- Only the padding at the end is taken off. -/
theorem unpad_append {t : Text} (ht : t.getLast? ≠ some padSymbol) (n : Nat) :
    unpad (t ++ List.replicate n padSymbol) = t :=
  dropWhile_reverse_append_replicate ht n

theorem unpad_encode (padding : Bool) (x : Bytes) :
    unpad (encode padding x) = Alphabet.base32.spell (digits x) := by
  have hmem : padSymbol ∉ Alphabet.base32.spell (digits x) := by
    intro h
    refine padSymbol_not_mem (spell_mem ?_ h)
    rw [radix_base32]
    exact digits_lt x
  have hlast : (Alphabet.base32.spell (digits x)).getLast? ≠ some padSymbol :=
    fun h => hmem (List.mem_of_getLast? h)
  rw [encode_eq]
  cases padding with
  | true => exact unpad_append hlast _
  | false => exact unpad_append hlast 0

theorem decode_encode (padding : Bool) (x : Bytes) : decode (encode padding x) = .ok x := by
  have hd : ∀ d ∈ digits x, d < Alphabet.base32.radix := by
    rw [radix_base32]
    exact digits_lt x
  have hlen : (Alphabet.base32.spell (digits x)).length = (digits x).length := by simp [spell]
  rw [decode, unpad_encode, hlen, if_pos (length_digits_valid x), readFrom_spell reads_base32 hd]
  exact congrArg Except.ok (decodeBlocks_digits x)

theorem encode_mem (padding : Bool) (x : Bytes) : ∀ c ∈ encode padding x,
    c ∈ Alphabet.base32.symbols ∨ padding = true ∧ c = padSymbol := by
  intro c hc
  have hd : ∀ d ∈ digits x, d < Alphabet.base32.radix := by
    rw [radix_base32]
    exact digits_lt x
  rw [encode_eq] at hc
  rcases List.mem_append.mp hc with hc | hc
  · exact Or.inl (spell_mem hd hc)
  · cases padding with
    | true => exact Or.inr ⟨rfl, List.eq_of_mem_replicate hc⟩
    | false => simp at hc

end Octets.Base32
