/-!
Byte strings and the numbers they write. A byte string is a list of bytes;
read most significant byte first it is a number in base 256, and every number
below `256 ^ w` is written by exactly one string of `w` bytes. Core Lean only.
-/
namespace Octets

-- Zero and powers are those of core, also where Mathlib is imported and has its own.
attribute [scoped instance (high)] Zero.ofOfNat0 instPowNat
attribute [default_instance 20000] instPowNat

/-- A byte string. -/
abbrev Bytes := List UInt8

namespace Bytes

/-- The number a byte string writes, most significant byte first. -/
def value (x : Bytes) : Nat := x.foldl (fun v b => v * 256 + b.toNat) 0

/-- The number a byte string writes, least significant byte first. -/
def littleValue : Bytes → Nat
  | [] => 0
  | b :: x => b.toNat + 256 * littleValue x

/-- The `w` lowest base-256 digits of `n`, least significant first. -/
def littleOfNat : Nat → Nat → Bytes
  | 0, _ => []
  | w + 1, n => UInt8.ofNat n :: littleOfNat w (n / 256)

/-- The `w` lowest base-256 digits of `n`, most significant first. -/
def ofNat (w n : Nat) : Bytes := (littleOfNat w n).reverse

/-- `n` zero bytes. -/
def zeros (n : Nat) : Bytes := List.replicate n 0

/-- The part of `x` from index `i` on, `n` bytes of it if there are so many. -/
def window (x : Bytes) (i n : Nat) : Bytes := (x.drop i).take n

/-- A byte from an integer: the residue modulo 256. -/
def ofInt (v : Int) : UInt8 := UInt8.ofNat (v % 256).toNat

theorem toNat_ofInt (v : Int) : ((ofInt v).toNat : Int) = v % 256 := by
  rw [ofInt, UInt8.toNat_ofNat']
  omega

private theorem foldl_value (v : Nat) (x : Bytes) :
    x.foldl (fun v b => v * 256 + b.toNat) v = v * 256 ^ x.length + value x := by
  induction x generalizing v with
  | nil => simp [value]
  | cons b x ih =>
    have h := ih (0 * 256 + b.toNat)
    simp only [value, List.foldl_cons, List.length_cons] at h ⊢
    rw [ih, h, Nat.add_mul, Nat.mul_assoc, Nat.pow_succ, Nat.mul_comm 256]
    simp only [Nat.zero_mul, Nat.zero_add, value]
    omega

theorem value_cons (b : UInt8) (x : Bytes) :
    value (b :: x) = b.toNat * 256 ^ x.length + value x := by
  have h := foldl_value b.toNat x
  simpa [value] using h

theorem value_append (x y : Bytes) :
    value (x ++ y) = value x * 256 ^ y.length + value y := by
  have h := foldl_value (value x) y
  simpa [value, List.foldl_append] using h

theorem value_reverse (x : Bytes) : value x.reverse = littleValue x := by
  induction x with
  | nil => rfl
  | cons b x ih =>
    rw [List.reverse_cons, value_append, ih]
    have h1 : value [b] = b.toNat := by simp [value]
    simp only [littleValue, h1, List.length_cons, List.length_nil]
    omega

theorem littleValue_reverse (x : Bytes) : littleValue x.reverse = value x := by
  rw [← value_reverse, List.reverse_reverse]

theorem littleValue_lt (x : Bytes) : littleValue x < 256 ^ x.length := by
  induction x with
  | nil => simp [littleValue]
  | cons b x ih =>
    have hb : b.toNat < 256 := b.toNat_lt
    simp only [littleValue, List.length_cons, Nat.pow_succ]
    omega

theorem value_lt (x : Bytes) : value x < 256 ^ x.length := by
  rw [← littleValue_reverse, ← List.length_reverse]
  exact littleValue_lt _

@[simp] theorem length_littleOfNat (w n : Nat) : (littleOfNat w n).length = w := by
  induction w generalizing n <;> simp_all [littleOfNat]

@[simp] theorem length_ofNat (w n : Nat) : (ofNat w n).length = w := by
  simp [ofNat]

theorem littleValue_littleOfNat (w n : Nat) :
    littleValue (littleOfNat w n) = n % 256 ^ w := by
  induction w generalizing n with
  | zero => simp [littleOfNat, littleValue, Nat.mod_one]
  | succ w ih =>
    have hb : (UInt8.ofNat n).toNat = n % 256 := UInt8.toNat_ofNat'
    rw [littleOfNat, littleValue, ih, hb, Nat.pow_succ 256 w, Nat.mul_comm (256 ^ w) 256,
      Nat.mod_mul]

theorem value_ofNat (w n : Nat) : value (ofNat w n) = n % 256 ^ w := by
  rw [ofNat, value_reverse, littleValue_littleOfNat]

theorem littleOfNat_littleValue (x : Bytes) :
    littleOfNat x.length (littleValue x) = x := by
  induction x with
  | nil => rfl
  | cons b x ih =>
    have hb : b.toNat < 256 := b.toNat_lt
    have hdiv : (b.toNat + 256 * littleValue x) / 256 = littleValue x := by omega
    have hbyte : UInt8.ofNat (b.toNat + 256 * littleValue x) = b := by
      apply UInt8.toNat_inj.mp
      rw [UInt8.toNat_ofNat']
      omega
    simp only [List.length_cons, littleOfNat, littleValue, hdiv, ih, hbyte]

theorem ofNat_value (x : Bytes) : ofNat x.length (value x) = x := by
  have h := littleOfNat_littleValue x.reverse
  rw [littleValue_reverse, List.length_reverse] at h
  rw [ofNat, h, List.reverse_reverse]

end Bytes
end Octets
