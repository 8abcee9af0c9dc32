import Octets.Proofs.Arithmetic
import Octets.Proofs.Encoding.Radix
/-!
# Numerals

The digits of a magnitude in a radix are found by dividing until nothing is left
(`Divisions`). Each division makes the number smaller, though seldom the string shorter, so
that this comes to an end, with one list of digits (`divisions_iff`): the digits of the
number (`toDigits_eq`). Only the radix 1 makes nothing smaller (`toDigits_one`).

Put together again by Horner's rule the digits give the number back with no zero byte in
front, and digits below the radix are given back by the number they write, but for zeros in
front.

All in one: `numerals`.
-/

namespace Octets.Magnitude

/-! ## Division until nothing is left -/

/-- Division by the radix, and of the quotient again, until all of it is zero. The
remainders are listed least significant first. -/
inductive Divisions (radix : Int) : Bytes → List Nat → Prop
  | done {m : Bytes} (h : strip m = []) : Divisions radix m []
  | step {m q : Bytes} {d : Nat} {ds : List Nat} (h : strip m ≠ [])
      (hd : divide (strip m) radix = .ok (q, d)) (rest : Divisions radix q ds) :
      Divisions radix m (d :: ds)

theorem value_pos_of_strip {m : Bytes} (h : strip m ≠ []) : 0 < m.value :=
  Nat.pos_of_ne_zero (mt value_eq_zero_iff.mp h)

/-- Each division makes the number smaller. -/
theorem value_lt_of_divide {m q : Bytes} {d radix : Nat} (h2 : 2 ≤ radix) (h : strip m ≠ [])
    (hd : divide (strip m) radix = .ok (q, d)) : q.value < m.value := by
  have hpos : 0 < radix := by omega
  rw [divide_eq _ (Int.natCast_pos.mpr hpos), Int.toNat_natCast] at hd
  have hquotient := (divCarry_value hpos (strip m)).1
  rw [Except.ok.inj hd, value_strip] at hquotient
  rw [hquotient]
  exact Nat.div_lt_self (value_pos_of_strip h) h2

theorem divisions_digitsFrom {radix : Nat} (h2 : 2 ≤ radix) (m : Bytes) :
    Divisions radix m (digitsFrom radix h2 m) := by
  fun_induction digitsFrom radix h2 m with
  | case1 m h => exact .done h
  | case2 m h r ih => exact .step h (divide_eq _ (by omega)) ih

theorem Divisions.unique {radix : Int} {m : Bytes} {ds ds' : List Nat}
    (h : Divisions radix m ds) (h' : Divisions radix m ds') : ds = ds' := by
  induction h generalizing ds' with
  | done h =>
    cases h' with
    | done _ => rfl
    | step hne _ _ => exact absurd h hne
  | step hne hd rest ih =>
    cases h' with
    | done h => exact absurd h hne
    | step _ hd' rest' =>
      rw [hd] at hd'
      cases hd'
      rw [ih rest']

/-! ## Digits -/

theorem toDigits_natCast {radix : Nat} (h2 : 2 ≤ radix) (m : Bytes) :
    toDigits m radix = .ok (digitsFrom radix h2 m).reverse := by
  rw [toDigits]
  by_cases hm : strip m = []
  · rw [if_pos hm, digitsFrom, dif_pos hm]
    rfl
  · rw [if_neg hm, if_neg (by omega), dif_pos (by rwa [Int.toNat_natCast])]
    simp only [Int.toNat_natCast]

theorem toDigits_eq {radix : Nat} (h2 : 2 ≤ radix) (m : Bytes) :
    toDigits m radix = .ok (Nat.digits radix m.value).reverse := by
  rw [toDigits_natCast h2, digitsFrom_eq_digits]

/-- The divisions come to an end, and what is read off them is their remainders, the last
one first. -/
theorem divisions_iff {radix : Nat} (h2 : 2 ≤ radix) {m : Bytes} {ds : List Nat} :
    Divisions radix m ds ↔ toDigits m radix = .ok ds.reverse := by
  have hall := divisions_digitsFrom h2 m
  rw [toDigits_natCast h2]
  constructor
  · intro h
    rw [hall.unique h]
  · intro h
    rwa [← List.reverse_injective (Except.ok.inj h)]

/-- Division by 1 leaves the number as it was, so that only zero comes to an end. -/
theorem Divisions.value_eq_zero {m : Bytes} {ds : List Nat} (h : Divisions 1 m ds) :
    m.value = 0 := by
  induction h with
  | done h => exact value_eq_zero_iff.mpr h
  | @step m q d ds h hd rest ih =>
    have hquotient := (divCarry_value Nat.one_pos (strip m)).1
    rw [Nat.div_one, value_strip] at hquotient
    rw [divide_eq _ Int.one_pos] at hd
    have hq : divCarry 1 0 (strip m) = (q, d) := Except.ok.inj hd
    rw [← hquotient, hq]
    exact ih

/-- The divisions by 1 do not come to an end, which is what is said of them. -/
theorem toDigits_one {m : Bytes} (h : strip m ≠ []) :
    toDigits m 1 = .error .endless ∧ ∀ ds, ¬ Divisions 1 m ds := by
  refine ⟨?_, fun ds hds => h (value_eq_zero_iff.mp hds.value_eq_zero)⟩
  rw [toDigits, if_neg h]
  rfl

theorem numeral_dropWhile (radix : Nat) (ds : List Nat) :
    numeral radix (ds.dropWhile (· == 0)) = numeral radix ds := by
  induction ds with
  | nil => rfl
  | cons d ds ih =>
    by_cases hd : d = 0
    · subst hd
      simpa [numeral] using ih
    · simp [hd]

/-! ## Both ways -/

/-- How magnitudes and digits in a radix stand for each other. -/
structure Numerals : Prop where
  /-- The digits of a magnitude in a radix of at least two. -/
  digits : ∀ (m : Bytes) (radix : Nat), 2 ≤ radix → ∃ ds, toDigits m radix = .ok ds ∧
    Divisions radix m ds.reverse ∧ (∀ d ∈ ds, d < radix) ∧ ds.head? ≠ some 0 ∧
    numeral radix ds = m.value ∧ (ds = [] ↔ m.value = 0) ∧
    fromDigits (ds.map Int.ofNat) radix = .ok (strip m)
  /-- The magnitude of digits below the radix. -/
  magnitude : ∀ (ds : List Nat) (radix : Nat), 2 ≤ radix → (∀ d ∈ ds, d < radix) →
    ∃ m, fromDigits (ds.map Int.ofNat) radix = .ok m ∧ Bare m ∧ m.value = numeral radix ds ∧
    toDigits m radix = .ok (ds.dropWhile (· == 0))
  /-- Numbers that are no digits of the radix, or of any radix, are taken as they are. -/
  shortest : ∀ (ds : List Nat) (radix : Nat),
    ∃ m, fromDigits (ds.map Int.ofNat) radix = .ok m ∧ Bytes.Shortest (numeral radix ds) m
  /-- No division leaves the number as large as it was. -/
  smaller : ∀ (m q : Bytes) (d radix : Nat), 2 ≤ radix → strip m ≠ [] →
    divide (strip m) radix = .ok (q, d) → q.value < m.value

theorem numerals : Numerals where
  digits := by
    intro m radix h2
    have hvalue : numeral radix (Nat.digits radix m.value).reverse = m.value :=
      Radix.numeral_digits_reverse radix m.value
    refine ⟨_, toDigits_eq h2 m, ?_, ?_, Radix.head?_digits_reverse radix m.value, hvalue, ?_, ?_⟩
    · rw [divisions_iff h2, toDigits_eq h2, List.reverse_reverse]
    · intro d hd
      exact Nat.digits_lt_base h2 (List.mem_reverse.mp hd)
    · rw [List.reverse_eq_nil_iff, Nat.digits_eq_nil_iff_eq_zero]
    · rw [fromDigits_natCast, hvalue, strip_eq_ofNat]
  magnitude := by
    intro ds radix h2 hlt
    have hrest : ∀ d ∈ ds.dropWhile (· == 0), d < radix :=
      fun d hd => hlt d ((List.dropWhile_sublist _).subset hd)
    refine ⟨_, fromDigits_natCast radix ds, bare_ofNat _, value_ofNat _, ?_⟩
    rw [toDigits_eq h2, value_ofNat, ← numeral_dropWhile,
      Radix.digits_numeral h2 hrest (head?_dropWhile_ne 0 ds)]
  shortest := fun ds radix => ⟨_, fromDigits_natCast radix ds, shortest_ofNat _⟩
  smaller := fun _ _ _ _ h2 => value_lt_of_divide h2

/-- The second number is no digit in radix ten. -/
example : fromDigits [0, 7, 300] 10 = .ok [1, 0x72] ∧
    toDigits [0, 1, 0x72] 10 = .ok [3, 7, 0] := by
  decide +kernel

end Octets.Magnitude
