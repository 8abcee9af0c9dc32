import Octets.Bytes
import Octets.Fault
/-!
Unsigned numbers kept as base-256 digits, most significant first, and the
arithmetic that long division and positional notation need: multiply and add by
carrying towards the front, divide by carrying the remainder towards the back.
Second operands may be of any size. Core Lean only.
-/
namespace Octets.Magnitude

/-- A magnitude without its leading zero bytes. -/
def strip (m : Bytes) : Bytes := m.dropWhile (· == 0)

def leadingZeros (m : Bytes) : Nat := (m.takeWhile (· == 0)).length

def isZero (m : Bytes) : Bool := m.all (· == 0)

/-- The digits of `n` with no leading zero: none for zero. -/
def ofNat (n : Nat) : Bytes :=
  if n = 0 then [] else ofNat (n / 256) ++ [UInt8.ofNat n]
termination_by n

/-- `m * factor + carry` in as many digits as `m`, and what is carried out. -/
def mulCarry (factor carry : Nat) : Bytes → Bytes × Nat
  | [] => ([], carry)
  | b :: m =>
    let low := mulCarry factor carry m
    let v := b.toNat * factor + low.2
    (UInt8.ofNat v :: low.1, v / 256)

/-- `m + carry` in as many digits as `m`, and what is carried out. -/
def addCarry (carry : Nat) : Bytes → Bytes × Nat
  | [] => ([], carry)
  | b :: m =>
    let low := addCarry carry m
    let v := b.toNat + low.2
    (UInt8.ofNat v :: low.1, v / 256)

/-- Long division from the most significant digit, `r` being the remainder so
far: the quotient digits and the remainder. -/
def divCarry (divisor r : Nat) : Bytes → Bytes × Nat
  | [] => ([], r)
  | b :: m =>
    let v := r * 256 + b.toNat
    let rest := divCarry divisor (v % divisor) m
    (UInt8.ofNat (v / divisor) :: rest.1, rest.2)

/-- Multiply by a number that is not negative; the final carry goes in front. -/
def multiply (m : Bytes) (factor : Int) : Outcome Bytes :=
  if factor < 0 then .error (.negative "factor" factor)
  else
    let r := mulCarry factor.toNat 0 m
    .ok (ofNat r.2 ++ r.1)

/-- Add a number that is not negative; the final carry goes in front. -/
def add (m : Bytes) (addend : Int) : Outcome Bytes :=
  if addend < 0 then .error (.negative "addend" addend)
  else
    let r := addCarry addend.toNat m
    .ok (ofNat r.2 ++ r.1)

/-- Quotient, as long as `m`, and remainder by a positive number. -/
def divide (m : Bytes) (divisor : Int) : Outcome (Bytes × Nat) :=
  if divisor ≤ 0 then .error (.divisorNotPositive divisor)
  else .ok (divCarry divisor.toNat 0 m)

@[simp] theorem length_mulCarry (factor carry : Nat) (m : Bytes) :
    (mulCarry factor carry m).1.length = m.length := by
  induction m <;> simp_all [mulCarry]

@[simp] theorem length_addCarry (carry : Nat) (m : Bytes) :
    (addCarry carry m).1.length = m.length := by
  induction m <;> simp_all [addCarry]

@[simp] theorem length_divCarry (divisor r : Nat) (m : Bytes) :
    (divCarry divisor r m).1.length = m.length := by
  induction m generalizing r <;> simp_all [divCarry]

theorem value_strip (m : Bytes) : (strip m).value = m.value := by
  induction m with
  | nil => rfl
  | cons b m ih =>
    by_cases h : b = 0
    · subst h
      simpa [strip, Bytes.value_cons] using ih
    · simp [strip, h]

theorem value_eq_zero_of_isZero {m : Bytes} (h : isZero m = true) : m.value = 0 := by
  induction m with
  | nil => rfl
  | cons b m ih =>
    simp only [isZero, List.all_cons, Bool.and_eq_true, beq_iff_eq] at h
    rw [Bytes.value_cons, ih h.2, h.1]
    simp

private theorem carried_byte (v : Nat) (hv : v < 256) : (UInt8.ofNat v).toNat = v := by
  have h : (UInt8.ofNat v).toNat = v % 256 := UInt8.toNat_ofNat'
  rw [h, Nat.mod_eq_of_lt hv]

/-- Every quotient digit fits its byte, as the remainder stays below the divisor. -/
theorem divCarry_eq (divisor r : Nat) (hr : r < divisor) (m : Bytes) :
    (divCarry divisor r m).1.value * divisor + (divCarry divisor r m).2 =
        r * 256 ^ m.length + m.value ∧
      (divCarry divisor r m).2 < divisor := by
  induction m generalizing r with
  | nil => simpa [divCarry, Bytes.value] using hr
  | cons b m ih =>
    have hb : b.toNat < 256 := b.toNat_lt
    have hpos : 0 < divisor := Nat.lt_of_le_of_lt (Nat.zero_le r) hr
    have hq : (r * 256 + b.toNat) / divisor < 256 := by
      rw [Nat.div_lt_iff_lt_mul hpos]
      have : (r + 1) * 256 ≤ divisor * 256 := Nat.mul_le_mul_right 256 hr
      omega
    obtain ⟨hv, hlt⟩ := ih ((r * 256 + b.toNat) % divisor) (Nat.mod_lt _ hpos)
    refine ⟨?_, hlt⟩
    simp only [divCarry, Bytes.value_cons, length_divCarry, carried_byte _ hq, List.length_cons]
    rw [Nat.add_mul, Nat.add_assoc, hv, ← Nat.add_assoc, Nat.mul_right_comm, ← Nat.add_mul,
      Nat.div_add_mod', Nat.add_mul, Nat.pow_succ, Nat.mul_assoc, Nat.mul_comm 256, Nat.add_assoc]

private theorem value_quotient_lt {m : Bytes} {radix : Nat} (h2 : 2 ≤ radix)
    (hm : (strip m) ≠ []) : (divCarry radix 0 (strip m)).1.value < m.value := by
  have hpos : 0 < m.value := by
    rw [← value_strip]
    match hs : strip m with
    | [] => exact absurd hs hm
    | b :: rest =>
      have hb : b ≠ 0 := by
        have := List.head?_dropWhile_not (· == 0) m
        simp only [strip] at hs
        rw [hs] at this
        simpa using this
      have hb' : 0 < b.toNat := by
        apply Nat.pos_of_ne_zero
        intro h0
        exact hb (UInt8.toNat_inj.mp (by simpa using h0))
      rw [Bytes.value_cons]
      have := Nat.mul_pos hb' (Nat.pow_pos (n := rest.length) (show 0 < 256 by decide))
      omega
  have h := (divCarry_eq radix 0 (by omega) (strip m)).1
  rw [Nat.zero_mul, Nat.zero_add, value_strip] at h
  have hle : (divCarry radix 0 (strip m)).1.value * 2 ≤
      (divCarry radix 0 (strip m)).1.value * radix := Nat.mul_le_mul_left _ h2
  omega

/-- The digits of `m` in a radix of at least 2, least significant first: divide
and collect the remainders until nothing is left. -/
def digitsFrom (radix : Nat) (h2 : 2 ≤ radix) (m : Bytes) : List Nat :=
  if _h : strip m = [] then []
  else
    let r := divCarry radix 0 (strip m)
    r.2 :: digitsFrom radix h2 r.1
termination_by m.value
decreasing_by exact value_quotient_lt h2 _h

/-- The digits of `m` in a radix, most significant first: none for zero. The radix
matters only where there is something to divide, and division by 1 leaves as much to
divide as there was. -/
def toDigits (m : Bytes) (radix : Int) : Outcome (List Nat) :=
  if strip m = [] then .ok []
  else if radix ≤ 0 then .error (.divisorNotPositive radix)
  else if h : 2 ≤ radix.toNat then .ok (digitsFrom radix.toNat h m).reverse
  else .error .endless

/-- The magnitude of the digits in a radix, most significant first, each step
being "times the radix, plus the digit". -/
def horner (radix : Int) : Bytes → List Int → Outcome Bytes
  | m, [] => .ok m
  | m, d :: ds => do
    let scaled ← multiply m radix
    let sum ← add scaled d
    horner radix sum ds

/-- The magnitude of the digits in a radix, with no leading zero byte. -/
def fromDigits (digits : List Int) (radix : Int) : Outcome Bytes :=
  (horner radix [] digits).map strip

end Octets.Magnitude
