import Octets.Proofs.Bits
import Octets.Proofs.Magnitude
import Octets.Proofs.Setup
import Octets.Proofs.Store.Mirror
/-!
# Shifts

A shift multiplies or divides the number of a sequence by a power of two, within its length
(`unsignedValue_shift_left`, `unsignedValue_shift_right`). So each bit of the result is the
bit so many positions away, or false where there is none (`testBit_shift_left`,
`testBit_shift_right`), and shifts one after another are one shift by the sum. A shift by
whole bytes moves the bytes (`logical_shift_left`, `logical_shift_right`). All in one:
`Bits.movesBits`.
-/

namespace Octets

namespace Bytes

theorem value_injective {x y : Bytes} (hlength : x.length = y.length) (h : x.value = y.value) :
    x = y := by
  rw [← ofNat_value x, hlength, h, ofNat_value]

theorem value_drop (x : Bytes) (n : Nat) : value (x.drop n) = value x % 256 ^ (x.length - n) := by
  have hlt := value_lt (x.drop n)
  have hsplit := value_append (x.take n) (x.drop n)
  rw [List.take_append_drop, List.length_drop] at hsplit
  rw [List.length_drop] at hlt
  rw [hsplit, Nat.mul_comm, Nat.mul_add_mod, Nat.mod_eq_of_lt hlt]

theorem value_take (x : Bytes) (n : Nat) : value (x.take n) = value x / 256 ^ (x.length - n) := by
  have hlt := value_lt (x.drop n)
  have hsplit := value_append (x.take n) (x.drop n)
  rw [List.take_append_drop, List.length_drop] at hsplit
  rw [List.length_drop] at hlt
  rw [hsplit, Nat.mul_comm, Nat.mul_add_div (Nat.pow_pos (by decide)), Nat.div_eq_of_lt hlt,
    Nat.add_zero]

end Bytes

namespace Bits

variable {o : ByteOrder} {x : Bytes}

/-! ## The number -/

theorem unsignedValue_logical (o : ByteOrder) (x : Bytes) :
    unsignedValue o (o.logical x) = x.value := by
  rw [unsignedValue, ByteOrder.logical_logical]

theorem unsignedValue_shift_left (n : Nat) (o : ByteOrder) (x : Bytes) :
    unsignedValue o (shift .left n o x) = unsignedValue o x * 2 ^ n % 2 ^ (8 * x.length) := by
  rw [shift, unsignedValue_logical, Bytes.value_ofNat, Bytes.two_pow_eq]
  by_cases hn : n ≤ 8 * x.length
  · rw [Nat.min_eq_left hn]
    rfl
  · have hle : 8 * x.length ≤ n := Nat.le_of_not_le hn
    have hgone := Nat.mod_eq_zero_of_dvd
      (Nat.dvd_mul_left_of_dvd (Nat.pow_dvd_pow 2 hle) (unsignedValue o x))
    rw [Nat.min_eq_right hle, hgone]
    exact Nat.mul_mod_left _ _

theorem unsignedValue_shift_right (n : Nat) (o : ByteOrder) (x : Bytes) :
    unsignedValue o (shift .right n o x) = unsignedValue o x / 2 ^ n := by
  have hlt := unsignedValue_lt o x
  have hdiv (k : Nat) : unsignedValue o x / 2 ^ k < 2 ^ (8 * x.length) :=
    Nat.lt_of_le_of_lt (Nat.div_le_self _ _) hlt
  have hclipped : unsignedValue o x / 2 ^ min n (8 * x.length) = unsignedValue o x / 2 ^ n := by
    by_cases hn : n ≤ 8 * x.length
    · rw [Nat.min_eq_left hn]
    · have hle : 8 * x.length ≤ n := Nat.le_of_not_le hn
      have hgone := Nat.lt_of_lt_of_le hlt (Nat.pow_le_pow_right (by decide) hle)
      rw [Nat.min_eq_right hle, Nat.div_eq_of_lt hlt, Nat.div_eq_of_lt hgone]
  rw [shift, unsignedValue_logical, Bytes.value_ofNat, Bytes.two_pow_eq]
  show unsignedValue o x / 2 ^ min n (8 * x.length) % 2 ^ (8 * x.length) = _
  rw [hclipped, Nat.mod_eq_of_lt (hdiv n)]

/-! ## The bits -/

theorem testBit_shift_left (n : Nat) (o : ByteOrder) (x : Bytes) (p : Nat) :
    (unsignedValue o (shift .left n o x)).testBit p =
      (decide (p < 8 * x.length) && (decide (n ≤ p) && (unsignedValue o x).testBit (p - n))) := by
  rw [unsignedValue_shift_left, Nat.testBit_mod_two_pow, ← Nat.shiftLeft_eq, Nat.testBit_shiftLeft]

theorem testBit_shift_right (n : Nat) (o : ByteOrder) (x : Bytes) (p : Nat) :
    (unsignedValue o (shift .right n o x)).testBit p = (unsignedValue o x).testBit (p + n) := by
  rw [unsignedValue_shift_right, ← Nat.shiftRight_eq_div_pow, Nat.testBit_shiftRight,
    Nat.add_comm]

theorem bitAt_shift_left {n : Nat} {p : Int} (h0 : 0 ≤ p) (h : p < 8 * x.length) :
    bitAt o (shift .left n o x) p = if n ≤ p then bitAt o x (p - n) else .ok false := by
  have hp : p.toNat < 8 * x.length := by omega
  rw [bitAt_of_lt h0 (by rwa [length_shift]), testBit_shift_left, decide_eq_true hp, Bool.true_and]
  by_cases hn : n ≤ p
  · have hle : n ≤ p.toNat := by omega
    have hindex : (p - n : Int).toNat = p.toNat - n := by omega
    rw [if_pos hn, decide_eq_true hle, Bool.true_and, bitAt_of_lt (by omega) (by omega), hindex]
  · have hlt : ¬ n ≤ p.toNat := by omega
    rw [if_neg hn, decide_eq_false hlt, Bool.false_and]

theorem bitAt_shift_right {n : Nat} {p : Int} (h0 : 0 ≤ p) (h : p < 8 * x.length) :
    bitAt o (shift .right n o x) p =
      if p + n < 8 * x.length then bitAt o x (p + n) else .ok false := by
  rw [bitAt_of_lt h0 (by rwa [length_shift]), testBit_shift_right]
  by_cases hn : p + n < 8 * x.length
  · have hindex : (p + n : Int).toNat = p.toNat + n := by omega
    rw [if_pos hn, bitAt_of_lt (by omega) hn, hindex]
  · rw [if_neg hn, testBit_unsignedValue_of_le (by omega)]

/-! ## Shifts one after another -/

theorem shift_shift (d : Direction) (m n : Nat) (o : ByteOrder) (x : Bytes) :
    shift d m o (shift d n o x) = shift d (m + n) o x := by
  refine eq_of_unsignedValue (o := o) (by simp only [length_shift]) ?_
  cases d with
  | left =>
    rw [unsignedValue_shift_left, unsignedValue_shift_left, unsignedValue_shift_left, length_shift,
      Nat.mod_mul_mod, Nat.mul_assoc, ← Nat.pow_add, Nat.add_comm n m]
  | right =>
    rw [unsignedValue_shift_right, unsignedValue_shift_right, unsignedValue_shift_right,
      Nat.div_div_eq_div_mul, ← Nat.pow_add, Nat.add_comm n m]

/-! ## Whole bytes -/

theorem logical_shift_left (k : Nat) (o : ByteOrder) (x : Bytes) :
    o.logical (shift .left (8 * k) o x) = (o.logical x ++ Bytes.zeros k).drop k := by
  apply Bytes.value_injective
  · simp
  · show unsignedValue o (shift .left (8 * k) o x) = _
    rw [unsignedValue_shift_left, Bytes.value_drop, Bytes.value_append, Bytes.value_zeros,
      Nat.add_zero, List.length_append, Bytes.length_zeros, Nat.add_sub_cancel,
      ByteOrder.length_logical, Bytes.two_pow_eq, Bytes.two_pow_eq]
    rfl

theorem logical_shift_right (k : Nat) (o : ByteOrder) (x : Bytes) :
    o.logical (shift .right (8 * k) o x) = (Bytes.zeros k ++ o.logical x).take x.length := by
  apply Bytes.value_injective
  · simp
  · show unsignedValue o (shift .right (8 * k) o x) = _
    rw [unsignedValue_shift_right, Bytes.value_take, Bytes.value_append, Bytes.value_zeros,
      Nat.zero_mul, Nat.zero_add, List.length_append, Bytes.length_zeros,
      ByteOrder.length_logical, Nat.add_sub_cancel, Bytes.two_pow_eq]
    rfl

/-! ## All of it -/

/-- What the shifts of a string `x` do, its bits being read in the order in which it is
shifted. -/
structure MovesBits (o : ByteOrder) (x : Bytes) : Prop where
  /-- A transformer is constructed with every count, and a call of it shifts. -/
  called : ∀ (d : Direction) (n : Nat),
    (Transform.Setup.shift n d o).construct = .ok (.shift n d o) ∧
      (Transform.Setup.shift n d o).call x = .ok (shift d n o x)
  /-- A sequence with this content is shifted in its own order, and keeps it. -/
  requested : ∀ (σ : Store) (s : SequenceId) (q : Sequence), σ.Holds s q x → q.order = o →
    ∀ (d : Direction) (n : Nat), σ.outcome s (.shift d n) = .ok (shift d n o x, o)
  length : ∀ (d : Direction) (n : Nat), (shift d n o x).length = x.length
  left : ∀ (n : Nat) (p : Int), 0 ≤ p → p < 8 * x.length →
    bitAt o (shift .left n o x) p = if n ≤ p then bitAt o x (p - n) else .ok false
  right : ∀ (n : Nat) (p : Int), 0 ≤ p → p < 8 * x.length → bitAt o (shift .right n o x) p =
    if p + n < 8 * x.length then bitAt o x (p + n) else .ok false
  /-- Shifts in one direction add up. -/
  twice : ∀ (d : Direction) (m n : Nat), shift d m o (shift d n o x) = shift d (m + n) o x
  /-- There and back again, the `n` most significant bits are false, and all others as before. -/
  back : ∀ (n : Nat) (p : Int), 0 ≤ p → p < 8 * x.length →
    bitAt o (shift .right n o (shift .left n o x)) p =
      if p + n < 8 * x.length then bitAt o x p else .ok false
  /-- Whole bytes move, most significant byte first, towards the front. -/
  left_bytes : ∀ k : Nat,
    o.logical (shift .left (8 * k) o x) = (o.logical x ++ Bytes.zeros k).drop k
  /-- Whole bytes move towards the back. -/
  right_bytes : ∀ k : Nat,
    o.logical (shift .right (8 * k) o x) = (Bytes.zeros k ++ o.logical x).take x.length

theorem movesBits (o : ByteOrder) (x : Bytes) : MovesBits o x where
  called d n := by
    refine ⟨?_, Transform.Setup.call_shift (Int.natCast_nonneg n) d o x⟩
    rw [Transform.Setup.construct, Check.notNegative_eq_ok.mpr (Int.natCast_nonneg n)]
    rfl
  requested σ s q hs ho d n := by
    rw [Store.outcome_shift hs, Check.notNegative_eq_ok.mpr (Int.natCast_nonneg n), ho]
    rfl
  length d n := length_shift d n o x
  left n p h0 h := bitAt_shift_left h0 h
  right n p h0 h := bitAt_shift_right h0 h
  twice d m n := shift_shift d m n o x
  back n p h0 h := by
    rw [bitAt_shift_right h0 (by rwa [length_shift]), length_shift]
    by_cases hn : p + n < 8 * x.length
    · rw [if_pos hn, if_pos hn, bitAt_shift_left (by omega) hn, if_pos (by omega),
        Int.add_sub_cancel]
    · rw [if_neg hn, if_neg hn]
  left_bytes k := logical_shift_left k o x
  right_bytes k := logical_shift_right k o x

end Bits
end Octets
