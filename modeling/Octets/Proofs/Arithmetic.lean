import Octets.Proofs.Magnitude
/-!
# Arithmetic on magnitudes

Multiplication and addition carry towards the front, and what is carried out of the front
is put there as digits of its own, however many it takes (`multiply_eq`, `add_eq`).
Division carries a remainder towards the back. The remainder is below the divisor at each
step, and so the quotient digit is a byte (`LongDivision.lt`): the quotient is what long
division yields, with no digit cut (`longDivision_divCarry`).

All in one: `calculates`.
-/

namespace Octets.Magnitude

/-! ## Carrying -/

/-- `y` has all the places of `m`, and further ones in front only if they are needed. -/
structure Extends (m y : Bytes) : Prop where
  length_le : m.length ≤ y.length
  bare : m.length < y.length → Bare y

theorem bare_append {c y : Bytes} (h : Bare c) (hne : c ≠ []) : Bare (c ++ y) := by
  rw [Bare, List.head?_append_of_ne_nil _ hne]
  exact h

theorem extends_carried {m low : Bytes} (h : low.length = m.length) (carry : Nat) :
    Extends m (ofNat carry ++ low) where
  length_le := by
    rw [List.length_append, h]
    exact Nat.le_add_left ..
  bare := by
    intro hlt
    apply bare_append (bare_ofNat carry)
    intro hnil
    rw [hnil, List.nil_append, h] at hlt
    exact Nat.lt_irrefl _ hlt

theorem multiply_eq (m : Bytes) {factor : Int} (h : 0 ≤ factor) :
    multiply m factor =
      .ok (ofNat (mulCarry factor.toNat 0 m).2 ++ (mulCarry factor.toNat 0 m).1) :=
  if_neg (Int.not_lt.mpr h)

theorem add_eq (m : Bytes) {addend : Int} (h : 0 ≤ addend) :
    add m addend = .ok (ofNat (addCarry addend.toNat m).2 ++ (addCarry addend.toNat m).1) :=
  if_neg (Int.not_lt.mpr h)

theorem divide_eq (m : Bytes) {divisor : Int} (h : 0 < divisor) :
    divide m divisor = .ok (divCarry divisor.toNat 0 m) :=
  if_neg (Int.not_le.mpr h)

/-! ## Long division -/

/-- Long division by `q`, most significant byte first: with the remainder `r` so far, the
bytes yield quotient digits, as numbers of any size, and leave a remainder. -/
inductive LongDivision (q : Nat) : Nat → Bytes → List Nat → Nat → Prop
  | done (r : Nat) : LongDivision q r [] [] r
  | step {r r' : Nat} {b : UInt8} {m : Bytes} {ds : List Nat}
      (rest : LongDivision q ((r * 256 + b.toNat) % q) m ds r') :
      LongDivision q r (b :: m) ((r * 256 + b.toNat) / q :: ds) r'

theorem quotient_digit_lt {q r : Nat} (hr : r < q) (b : UInt8) :
    (r * 256 + b.toNat) / q < 256 := by
  have hb : b.toNat < 256 := b.toNat_lt
  rw [Nat.div_lt_iff_lt_mul (Nat.zero_lt_of_lt hr)]
  have hle : (r + 1) * 256 ≤ q * 256 := Nat.mul_le_mul_right 256 hr
  omega

/-- The remainder stays below the divisor, so that no quotient digit is too large. -/
theorem LongDivision.lt {q r r' : Nat} {m : Bytes} {ds : List Nat}
    (h : LongDivision q r m ds r') (hr : r < q) : ∀ d ∈ ds, d < 256 := by
  induction h with
  | done r => exact fun _ => nofun
  | step rest ih =>
    intro d hd
    rcases List.mem_cons.mp hd with rfl | hd
    · exact quotient_digit_lt hr _
    · exact ih (Nat.mod_lt _ (Nat.zero_lt_of_lt hr)) d hd

/-- What is stored are the digits of long division, each as it is. -/
theorem longDivision_divCarry {q r : Nat} (hr : r < q) (m : Bytes) :
    LongDivision q r m ((divCarry q r m).1.map UInt8.toNat) (divCarry q r m).2 := by
  induction m generalizing r with
  | nil => exact .done r
  | cons b m ih =>
    have hbyte : (UInt8.ofNat ((r * 256 + b.toNat) / q)).toNat = (r * 256 + b.toNat) / q := by
      rw [UInt8.toNat_ofNat']
      exact Nat.mod_eq_of_lt (quotient_digit_lt hr b)
    rw [divCarry, List.map_cons, hbyte]
    exact .step (ih (Nat.mod_lt _ (Nat.zero_lt_of_lt hr)))

theorem divCarry_value {q : Nat} (hq : 0 < q) (m : Bytes) :
    (divCarry q 0 m).1.value = m.value / q ∧ (divCarry q 0 m).2 = m.value % q := by
  obtain ⟨hv, hlt⟩ := divCarry_eq q 0 hq m
  have hsum : (divCarry q 0 m).2 + q * (divCarry q 0 m).1.value = m.value := by
    rw [Nat.add_comm, Nat.mul_comm, hv, Nat.zero_mul, Nat.zero_add]
  obtain ⟨hquotient, hremainder⟩ := (Nat.div_mod_unique hq).mpr ⟨hsum, hlt⟩
  exact ⟨hquotient.symm, hremainder.symm⟩

/-! ## All sizes -/

/-- What the arithmetic does on a magnitude, the other operand being of any size. -/
structure Calculates (m : Bytes) : Prop where
  multiplied : ∀ factor : Int, 0 ≤ factor → ∃ y, multiply m factor = .ok y ∧
    (y.value : Int) = m.value * factor ∧ Extends m y
  added : ∀ addend : Int, 0 ≤ addend → ∃ y, add m addend = .ok y ∧
    (y.value : Int) = m.value + addend ∧ Extends m y
  /-- Every digit of the quotient is a byte before it is stored as one. -/
  divided : ∀ divisor : Int, 0 < divisor → ∃ y r, divide m divisor = .ok (y, r) ∧
    y.length = m.length ∧ (y.value : Int) = m.value / divisor ∧
    (r : Int) = m.value % divisor ∧
    ∃ ds, LongDivision divisor.toNat 0 m ds r ∧ (∀ d ∈ ds, d < 256) ∧ y.map UInt8.toNat = ds
  multiply_refused : ∀ factor : Int, factor < 0 →
    ∃ f, multiply m factor = .error f ∧ f.kind = .bounds
  add_refused : ∀ addend : Int, addend < 0 →
    ∃ f, add m addend = .error f ∧ f.kind = .bounds
  divide_refused : ∀ divisor : Int, divisor ≤ 0 →
    ∃ f, divide m divisor = .error f ∧ f.kind = .bounds

theorem calculates (m : Bytes) : Calculates m where
  multiplied := by
    intro factor h
    lift factor to Nat using h
    obtain ⟨y, hy, hv⟩ := multiply_natCast m factor
    refine ⟨y, hy, by rw [hv, Int.natCast_mul], ?_⟩
    rw [multiply_eq m (Int.natCast_nonneg factor)] at hy
    cases hy
    exact extends_carried (length_mulCarry ..) _
  added := by
    intro addend h
    lift addend to Nat using h
    obtain ⟨y, hy, hv⟩ := add_natCast m addend
    refine ⟨y, hy, by rw [hv, Int.natCast_add], ?_⟩
    rw [add_eq m (Int.natCast_nonneg addend)] at hy
    cases hy
    exact extends_carried (length_addCarry ..) _
  divided := by
    intro divisor h
    lift divisor to Nat using h.le
    have hpos : 0 < divisor := Int.natCast_pos.mp h
    have hlong := longDivision_divCarry hpos m
    obtain ⟨hquotient, hremainder⟩ := divCarry_value hpos m
    refine ⟨_, _, divide_eq m h, length_divCarry .., ?_, ?_, _, hlong, hlong.lt hpos, rfl⟩
    · rw [Int.toNat_natCast, hquotient, Int.natCast_ediv]
    · rw [Int.toNat_natCast, hremainder, Int.natCast_emod]
  multiply_refused := fun factor h => ⟨.negative "factor" factor, if_pos h, rfl⟩
  add_refused := fun addend h => ⟨.negative "addend" addend, if_pos h, rfl⟩
  divide_refused := fun divisor h => ⟨.divisorNotPositive divisor, if_pos h, rfl⟩

/-- A carry that takes three bytes, and a divisor that is larger than a byte. -/
example : multiply [255] 0x1000001 = .ok [0xff, 0, 0, 0xff] ∧
    divide [1, 2, 3] 300 = .ok ([0, 0, 220], 51) := by
  decide +kernel

end Octets.Magnitude
