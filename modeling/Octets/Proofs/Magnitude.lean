import Mathlib.Data.Nat.Digits.Lemmas
import Octets.Magnitude
import Octets.Proofs.Runs
/-!
# The numbers that magnitudes stand for

* `strip_eq_ofNat`: a magnitude without its leading zeros is the one shortest way
  to write its value (`shortest_ofNat`);
* `digitsFrom_eq_digits`: long division yields the digits of the value;
* `fromDigits_natCast`: Horner accumulation yields the shortest magnitude of the
  number that the digits write.
-/

namespace Octets

namespace Bytes

/-- `m` writes `n`, and no byte string that writes `n` is shorter. -/
def Shortest (n : Nat) (m : Bytes) : Prop :=
  m.value = n ∧ ∀ y : Bytes, y.value = n → m.length ≤ y.length

@[simp] theorem length_zeros (n : Nat) : (zeros n).length = n := List.length_replicate

@[simp] theorem value_zeros (n : Nat) : value (zeros n) = 0 :=
  Magnitude.value_eq_zero_of_isZero (by simp [Magnitude.isZero, zeros])

theorem value_zeros_append (n : Nat) (m : Bytes) : value (zeros n ++ m) = value m := by
  rw [value_append, value_zeros, Nat.zero_mul, Nat.zero_add]

end Bytes

namespace Magnitude

/-! ## Shortest magnitudes -/

/-- No zero byte stands in front. -/
def Bare (m : Bytes) : Prop := m.head? ≠ some 0

theorem value_eq_zero_iff {m : Bytes} : m.value = 0 ↔ strip m = [] := by
  induction m with
  | nil => simp [strip, Bytes.value]
  | cons b m ih =>
    rw [Bytes.value_cons]
    by_cases hb : b = 0
    · subst hb
      simpa [strip] using ih
    · have hpos : 0 < b.toNat := by
        apply Nat.pos_of_ne_zero
        intro h0
        exact hb (UInt8.toNat_inj.mp h0)
      have := Nat.mul_pos hpos (Nat.pow_pos (n := m.length) (show 0 < 256 by decide))
      simp [strip, hb]
      omega

theorem bare_strip (m : Bytes) : Bare (strip m) := head?_dropWhile_ne 0 m

theorem zeros_append_strip (m : Bytes) : Bytes.zeros (leadingZeros m) ++ strip m = m :=
  replicate_append_dropWhile 0 m

theorem leadingZeros_zeros_append {m : Bytes} (h : Bare m) (n : Nat) :
    leadingZeros (Bytes.zeros n ++ m) = n := by
  rw [leadingZeros, Bytes.zeros, takeWhile_replicate_append h]
  simp

theorem drop_leadingZeros (m : Bytes) : m.drop (leadingZeros m) = strip m :=
  drop_length_takeWhile _ m

theorem ofNat_eq (n : Nat) :
    ofNat n = if n = 0 then [] else ofNat (n / 256) ++ [UInt8.ofNat n] := by
  rw [ofNat]

@[simp] theorem value_ofNat (n : Nat) : (ofNat n).value = n := by
  fun_induction ofNat n with
  | case1 => rfl
  | case2 n hn ih =>
    have hb : (UInt8.ofNat n).toNat = n % 256 := UInt8.toNat_ofNat'
    rw [Bytes.value_append, ih]
    simp [Bytes.value, hb]
    omega

theorem ofNat_value_append (m : Bytes) (b : UInt8) (h : (m ++ [b]).value ≠ 0) :
    ofNat (m ++ [b]).value = ofNat m.value ++ [b] := by
  have hb : b.toNat < 256 := b.toNat_lt
  have hv : (m ++ [b]).value = m.value * 256 + b.toNat := by
    rw [Bytes.value_append]
    simp [Bytes.value]
  have hdiv : (m.value * 256 + b.toNat) / 256 = m.value := by omega
  have hbyte : UInt8.ofNat (m.value * 256 + b.toNat) = b := by
    apply UInt8.toNat_inj.mp
    rw [UInt8.toNat_ofNat']
    omega
  rw [ofNat_eq, if_neg h, hv, hdiv, hbyte]

/-- The induction runs over the last byte, as `ofNat` puts its digits together. -/
theorem strip_eq_ofNat (m : Bytes) : strip m = ofNat m.value := by
  induction m using List.reverseRecOn with
  | nil => rw [ofNat_eq]; rfl
  | append_singleton m b ih =>
    by_cases h0 : Bytes.value (m ++ [b]) = 0
    · rw [value_eq_zero_iff.mp h0, h0, ofNat_eq, if_pos rfl]
    · rw [ofNat_value_append m b h0, ← ih]
      unfold strip at ih ⊢
      rw [List.dropWhile_append]
      cases hm : m.dropWhile (· == 0) with
      | cons a rest => simp
      | nil =>
        have hb : b ≠ 0 := by
          rintro rfl
          apply h0
          rw [Bytes.value_append, value_eq_zero_iff.mpr hm]
          rfl
        simp [hb]

theorem bare_ofNat (n : Nat) : Bare (ofNat n) := by
  have h := bare_strip (ofNat n)
  rwa [strip_eq_ofNat, value_ofNat] at h

theorem length_strip_le (m : Bytes) : (strip m).length ≤ m.length :=
  (List.dropWhile_sublist _).length_le

theorem shortest_ofNat (n : Nat) : Bytes.Shortest n (ofNat n) := by
  refine ⟨value_ofNat n, fun y hy => ?_⟩
  rw [← hy, ← strip_eq_ofNat]
  exact length_strip_le y

/-! ## Carrying arithmetic -/

private theorem toNat_ofNat (v : Nat) : (UInt8.ofNat v).toNat = v % 256 :=
  UInt8.toNat_ofNat'

theorem value_mulCarry (factor carry : Nat) (m : Bytes) :
    (mulCarry factor carry m).2 * 256 ^ m.length + (mulCarry factor carry m).1.value =
      m.value * factor + carry := by
  induction m with
  | nil => simp [mulCarry, Bytes.value]
  | cons b m ih =>
    have hd := Nat.div_add_mod' (b.toNat * factor + (mulCarry factor carry m).2) 256
    simp only [mulCarry, Bytes.value_cons, length_mulCarry, toNat_ofNat, List.length_cons]
    generalize (b.toNat * factor + (mulCarry factor carry m).2) / 256 = q at hd ⊢
    generalize (b.toNat * factor + (mulCarry factor carry m).2) % 256 = r at hd ⊢
    calc q * 256 ^ (m.length + 1) + (r * 256 ^ m.length + (mulCarry factor carry m).1.value)
        = (q * 256 + r) * 256 ^ m.length + (mulCarry factor carry m).1.value := by ring
      _ = b.toNat * 256 ^ m.length * factor +
            ((mulCarry factor carry m).2 * 256 ^ m.length +
              (mulCarry factor carry m).1.value) := by rw [hd]; ring
      _ = (b.toNat * 256 ^ m.length + Bytes.value m) * factor + carry := by rw [ih]; ring

theorem value_addCarry (carry : Nat) (m : Bytes) :
    (addCarry carry m).2 * 256 ^ m.length + (addCarry carry m).1.value = m.value + carry := by
  induction m with
  | nil => simp [addCarry, Bytes.value]
  | cons b m ih =>
    have hd := Nat.div_add_mod' (b.toNat + (addCarry carry m).2) 256
    simp only [addCarry, Bytes.value_cons, length_addCarry, toNat_ofNat, List.length_cons]
    generalize (b.toNat + (addCarry carry m).2) / 256 = q at hd ⊢
    generalize (b.toNat + (addCarry carry m).2) % 256 = r at hd ⊢
    calc q * 256 ^ (m.length + 1) + (r * 256 ^ m.length + (addCarry carry m).1.value)
        = (q * 256 + r) * 256 ^ m.length + (addCarry carry m).1.value := by ring
      _ = b.toNat * 256 ^ m.length +
            ((addCarry carry m).2 * 256 ^ m.length + (addCarry carry m).1.value) := by
        rw [hd]; ring
      _ = b.toNat * 256 ^ m.length + Bytes.value m + carry := by rw [ih]; ring

theorem multiply_natCast (m : Bytes) (factor : Nat) :
    ∃ y, multiply m factor = .ok y ∧ y.value = m.value * factor := by
  refine ⟨_, by simp only [multiply, Int.natCast_nonneg, Int.not_lt.mpr, ↓reduceIte]; rfl, ?_⟩
  rw [Bytes.value_append, value_ofNat, length_mulCarry, value_mulCarry]
  simp

theorem add_natCast (m : Bytes) (addend : Nat) :
    ∃ y, add m addend = .ok y ∧ y.value = m.value + addend := by
  refine ⟨_, by simp only [add, Int.natCast_nonneg, Int.not_lt.mpr, ↓reduceIte]; rfl, ?_⟩
  rw [Bytes.value_append, value_ofNat, length_addCarry, value_addCarry]
  simp

/-! ## Digits -/

/-- The number that digits write in a radix, most significant digit first. -/
def numeral (radix : Nat) (digits : List Nat) : Nat :=
  digits.foldl (fun v d => v * radix + d) 0

theorem numeral_eq_ofDigits (radix : Nat) (digits : List Nat) :
    numeral radix digits = Nat.ofDigits radix digits.reverse := by
  rw [numeral, Nat.ofDigits_eq_foldr, List.foldr_reverse]
  congr 1
  funext v d
  simp [Nat.mul_comm, Nat.add_comm]

theorem horner_natCast (radix : Nat) (m : Bytes) (digits : List Nat) :
    ∃ y, horner radix m (digits.map Int.ofNat) = .ok y ∧
      y.value = digits.foldl (fun v d => v * radix + d) m.value := by
  induction digits generalizing m with
  | nil => exact ⟨m, rfl, rfl⟩
  | cons d ds ih =>
    obtain ⟨a, ha, hav⟩ := multiply_natCast m radix
    obtain ⟨b, hb, hbv⟩ := add_natCast a d
    obtain ⟨y, hy, hyv⟩ := ih b
    refine ⟨y, ?_, ?_⟩
    · have hb' : add a (Int.ofNat d) = .ok b := hb
      simp only [List.map_cons, horner, ha, hb', bind, Except.bind]
      exact hy
    · rw [hyv, hbv, hav, List.foldl_cons]

theorem fromDigits_natCast (radix : Nat) (digits : List Nat) :
    fromDigits (digits.map Int.ofNat) radix = .ok (ofNat (numeral radix digits)) := by
  obtain ⟨y, hy, hyv⟩ := horner_natCast radix [] digits
  rw [fromDigits, hy]
  show Except.ok (strip y) = _
  rw [strip_eq_ofNat, hyv]
  rfl

theorem digitsFrom_eq_digits (radix : Nat) (h2 : 2 ≤ radix) (m : Bytes) :
    digitsFrom radix h2 m = Nat.digits radix m.value := by
  fun_induction digitsFrom radix h2 m with
  | case1 m h => rw [value_eq_zero_iff.mpr h, Nat.digits_zero]
  | case2 m h r ih =>
    have hpos : 0 < m.value := Nat.pos_of_ne_zero (fun h0 => h (value_eq_zero_iff.mp h0))
    obtain ⟨hv, hlt⟩ := divCarry_eq radix 0 (by omega) (strip m)
    rw [Nat.zero_mul, Nat.zero_add, value_strip] at hv
    have hmod : m.value % radix = r.2 := by
      rw [← hv, Nat.mul_comm, Nat.mul_add_mod, Nat.mod_eq_of_lt hlt]
    have hdiv : m.value / radix = r.1.value := by
      rw [← hv, Nat.mul_comm, Nat.mul_add_div (by omega), Nat.div_eq_of_lt hlt, Nat.add_zero]
    rw [ih, Nat.digits_def' (by omega) hpos, hmod, hdiv]

end Magnitude
end Octets
