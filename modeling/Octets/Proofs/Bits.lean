import Mathlib.Algebra.BigOperators.Group.Finset.Basic
import Mathlib.Algebra.Ring.Nat
import Octets.Proofs.Reversal
import Octets.Proofs.Transform
/-!
# The bits of the logical value

Bit `p` of a sequence is bit `p` of the number that it writes in its order (`bitAt_eq`),
and switching it changes that bit of the number and no other (`testBit_switchBit`). A string
is known by its length and its bits (`eq_of_testBit`), so what holds of single bits holds of
strings: turning a bit twice changes nothing, and switches at two positions may be made in
either order. As a sum of powers of two, the bits are the two's complement number up to a
multiple of `2 ^ (8 * x.length)` (`signedValue_emod`). All in one: `Bits.addressed`.
-/

namespace Octets

/-! ## Bits of numbers -/

namespace Bytes

theorem testBit_littleValue (x : Bytes) (p : Nat) :
    x.littleValue.testBit p = (x.getD (p / 8) 0).toNat.testBit (p % 8) := by
  induction x generalizing p with
  | nil => simp [littleValue]
  | cons b x ih =>
    have hb : b.toNat < 2 ^ 8 := b.toNat_lt
    rw [littleValue, Nat.add_comm, Nat.testBit_two_pow_mul_add (littleValue x) hb p]
    by_cases hp : p < 8
    · simp [hp, Nat.div_eq_of_lt hp, Nat.mod_eq_of_lt hp]
    · obtain ⟨q, rfl⟩ := Nat.exists_eq_add_of_le' (Nat.le_of_not_lt hp)
      simp [ih]

theorem littleValue_injective {x y : Bytes} (hlength : x.length = y.length)
    (h : x.littleValue = y.littleValue) : x = y := by
  rw [← littleOfNat_littleValue x, hlength, h, littleOfNat_littleValue]

end Bytes

/-- The bits of a number below `2 ^ n`, each with its weight. -/
theorem sum_testBit (v n : Nat) :
    ∑ i ∈ Finset.range n, (v.testBit i).toNat * 2 ^ i = v % 2 ^ n := by
  induction n with
  | zero => simp [Nat.mod_one]
  | succ n ih =>
    rw [Finset.sum_range_succ, ih, Nat.toNat_testBit, Nat.mod_pow_succ, Nat.mul_comm]

/-- In either order, the number of a string is that of a string read from its first byte on. -/
theorem unsignedValue_eq (o : ByteOrder) (x : Bytes) :
    unsignedValue o x = Bytes.littleValue (o.logical x).reverse := by
  rw [unsignedValue, Bytes.littleValue_reverse]

theorem unsignedValue_little (x : Bytes) : unsignedValue .little x = x.littleValue :=
  Bytes.value_reverse x

theorem unsignedValue_big (x : Bytes) : unsignedValue .big x = unsignedValue .little x.reverse := by
  rw [unsignedValue_little, Bytes.littleValue_reverse]
  rfl

theorem unsignedValue_lt (o : ByteOrder) (x : Bytes) : unsignedValue o x < 2 ^ (8 * x.length) := by
  have h := Bytes.value_lt (o.logical x)
  rw [ByteOrder.length_logical] at h
  rwa [Nat.pow_mul]

/-- The two's complement number and the unsigned one have the same residue. -/
theorem signedValue_emod (o : ByteOrder) (x : Bytes) :
    signedValue o x % 2 ^ (8 * x.length) = unsignedValue o x := by
  have hlt : (unsignedValue o x : Int) < 2 ^ (8 * x.length) := by
    exact_mod_cast unsignedValue_lt o x
  have hsigned : signedValue o x = unsignedValue o x ∨
      signedValue o x = unsignedValue o x - 2 ^ (8 * x.length) := by
    have hlength := ByteOrder.length_logical o x
    unfold signedValue unsignedValue
    cases hx : o.logical x with
    | nil => exact Or.inl rfl
    | cons b rest =>
      rw [hx, List.length_cons] at hlength
      rw [← hlength, Int.pow_mul]
      by_cases hb : b < 128
      · exact Or.inl (if_pos hb)
      · exact Or.inr (if_neg hb)
  rcases hsigned with h | h
  · rw [h, Int.emod_eq_of_lt (Int.natCast_nonneg _) hlt]
  · rw [h, Int.sub_emod_right, Int.emod_eq_of_lt (Int.natCast_nonneg _) hlt]

namespace Bits

/-! ## Reading -/

variable {o : ByteOrder} {x y : Bytes} {p : Int} {value : Option Bool}

theorem inside_iff {n : Nat} : inside p n = true ↔ 0 ≤ p ∧ p < 8 * n := by
  simp [inside]

theorem bitAt_eq (o : ByteOrder) (x : Bytes) (p : Int) : bitAt o x p =
    if inside p x.length then .ok ((unsignedValue o x).testBit p.toNat)
    else .error (.bitOutside p (8 * x.length)) := by
  have hlittle (x : Bytes) : bitAt .little x p =
      if inside p x.length then .ok ((unsignedValue .little x).testBit p.toNat)
      else .error (.bitOutside p (8 * x.length)) := by
    rw [unsignedValue_little, Bytes.testBit_littleValue]
    rfl
  cases o with
  | little => exact hlittle x
  | big =>
    have hreverse := hlittle x.reverse
    rwa [bitAt_little, List.reverse_reverse, List.length_reverse, ← unsignedValue_big] at hreverse

/-- The bit at a position that the sequence has. -/
theorem bitAt_of_lt (h0 : 0 ≤ p) (h : p < 8 * x.length) :
    bitAt o x p = .ok ((unsignedValue o x).testBit p.toNat) := by
  rw [bitAt_eq, if_pos (inside_iff.mpr ⟨h0, h⟩)]

/-- There is no bit past the end of a sequence. -/
theorem testBit_unsignedValue_of_le {i : Nat} (h : 8 * x.length ≤ i) :
    (unsignedValue o x).testBit i = false :=
  Nat.testBit_lt_two_pow
    (Nat.lt_of_lt_of_le (unsignedValue_lt o x) (Nat.pow_le_pow_right (by decide) h))

/-- A string is known by its length and its number. -/
theorem eq_of_unsignedValue (hlength : y.length = x.length)
    (h : unsignedValue o y = unsignedValue o x) : y = x := by
  rw [unsignedValue_eq, unsignedValue_eq] at h
  have hlogical := Bytes.littleValue_injective (by simp [hlength]) h
  rw [← ByteOrder.logical_logical o y, List.reverse_injective hlogical, ByteOrder.logical_logical]

/-- A string is known by its length and its bits. -/
theorem eq_of_testBit (hlength : y.length = x.length)
    (h : ∀ i, (unsignedValue o y).testBit i = (unsignedValue o x).testBit i) : y = x :=
  eq_of_unsignedValue hlength (Nat.eq_of_testBit_eq h)

/-! ## Switching -/

theorem testBit_byte {b : UInt8} {j : Nat} (hj : ¬ j < 8) : b.toNat.testBit j = false :=
  Nat.testBit_lt_two_pow (Nat.lt_of_lt_of_le b.toNat_lt
    (Nat.pow_le_pow_right (by decide) (Nat.le_of_not_lt hj)))

/-- What becomes of a bit that is set, cleared, or turned where no value is given. -/
theorem testBit_switched (value : Option Bool) (b : UInt8) {k : Nat} (hk : k < 8) (j : Nat) :
    (switched (UInt8.ofNat (2 ^ k)) value b).toNat.testBit j =
      if j = k then value.getD !b.toNat.testBit j else b.toNat.testBit j := by
  have hmask : (UInt8.ofNat (2 ^ k)).toNat = 2 ^ k := by
    rw [UInt8.toNat_ofNat']
    exact Nat.mod_eq_of_lt (Nat.pow_lt_pow_of_lt (by decide) hk)
  have hlt : 2 ^ k < 2 ^ 8 := Nat.pow_lt_pow_of_lt (by decide) hk
  cases value with
  | none =>
    rw [switched, UInt8.toNat_xor, hmask, Nat.testBit_xor, Nat.testBit_two_pow]
    by_cases hj : j = k
    · simp [hj]
    · simp [hj, Ne.symm hj]
  | some v =>
    cases v with
    | true =>
      rw [switched, UInt8.toNat_or, hmask, Nat.testBit_or, Nat.testBit_two_pow]
      by_cases hj : j = k
      · simp [hj]
      · simp [hj, Ne.symm hj]
    | false =>
      have hnot : (~~~UInt8.ofNat (2 ^ k)).toNat = 2 ^ 8 - (2 ^ k + 1) := by
        rw [UInt8.toNat_not, hmask, Nat.add_comm, ← Nat.sub_sub]
      rw [switched, UInt8.toNat_and, hnot, Nat.testBit_and, Nat.testBit_two_pow_sub_succ hlt,
        Nat.testBit_two_pow]
      by_cases hj : j = k
      · simp [hj]
      · by_cases hj8 : j < 8
        · simp [hj, Ne.symm hj, hj8]
        · simp [hj, hj8, testBit_byte hj8]

theorem switchBit_eq_ok : switchBit o p value x = .ok y ↔ inside p x.length = true ∧
    x.modify (byteIndex o x.length p.toNat)
      (switched (UInt8.ofNat (2 ^ (p.toNat % 8))) value) = y := by
  by_cases hp : inside p x.length = true
  · simp [switchBit, hp]
  · simp [switchBit, hp]

/-- Switching changes one bit of the number, and no other. -/
theorem testBit_switchBit (h : switchBit o p value x = .ok y) (i : Nat) :
    (unsignedValue o y).testBit i =
      if i = p.toNat then value.getD !(unsignedValue o x).testBit i
      else (unsignedValue o x).testBit i := by
  have hlittle {x y : Bytes} (h : switchBit .little p value x = .ok y) :
      (unsignedValue .little y).testBit i =
        if i = p.toNat then value.getD !(unsignedValue .little x).testBit i
        else (unsignedValue .little x).testBit i := by
    obtain ⟨hp, rfl⟩ := switchBit_eq_ok.mp h
    have hbyte : p.toNat / 8 < x.length := inside_lt hp
    rw [unsignedValue_little, unsignedValue_little, Bytes.testBit_littleValue,
      Bytes.testBit_littleValue]
    by_cases hi : i / 8 = p.toNat / 8
    · have hbit : i % 8 = p.toNat % 8 ↔ i = p.toNat := by omega
      have hmodified : (x.modify (p.toNat / 8)
          (switched (UInt8.ofNat (2 ^ (p.toNat % 8))) value)).getD (p.toNat / 8) 0 =
            switched (UInt8.ofNat (2 ^ (p.toNat % 8))) value (x.getD (p.toNat / 8) 0) := by
        simp [List.getD_eq_getElem?_getD, hbyte]
      rw [byteIndex, hi, hmodified, testBit_switched value _ (Nat.mod_lt _ (by decide))]
      simp only [hbit]
    · have hne : i ≠ p.toNat := fun h => hi (congrArg (· / 8) h)
      simp [byteIndex, List.getD_eq_getElem?_getD, Ne.symm hi, hne]
  cases o with
  | little => exact hlittle h
  | big =>
    rw [unsignedValue_big, unsignedValue_big]
    apply hlittle
    rw [switchBit_little, List.reverse_reverse, h]
    rfl

theorem exists_switchBit (hp : inside p x.length = true) (o : ByteOrder) (value : Option Bool) :
    ∃ y, switchBit o p value x = .ok y := ⟨_, if_pos hp⟩

/-- What is read after a switch: the new bit in its place, and the old one anywhere else,
also where there is none. -/
theorem bitAt_switchBit (h : switchBit o p value x = .ok y) (q : Int) : bitAt o y q =
    if q = p then .ok (value.getD !(unsignedValue o x).testBit p.toNat) else bitAt o x q := by
  have hp := (switchBit_eq_ok.mp h).1
  rw [bitAt_eq, bitAt_eq, length_switchBit h, testBit_switchBit h]
  by_cases hq : q = p
  · simp [hq, hp]
  · by_cases hinside : inside q x.length = true
    · have hne : q.toNat ≠ p.toNat := by
        have := inside_iff.mp hp
        have := inside_iff.mp hinside
        omega
      simp [hq, hne]
    · simp [hq, hinside]

theorem switchBit_twice (hp : inside p x.length = true) (o : ByteOrder) :
    (switchBit o p none x >>= switchBit o p none) = .ok x := by
  obtain ⟨y, hy⟩ := exists_switchBit hp o none
  obtain ⟨z, hz⟩ := exists_switchBit (x := y) (length_switchBit hy ▸ hp) o none
  have hzx : z = x := by
    refine eq_of_testBit (o := o) ((length_switchBit hz).trans (length_switchBit hy)) ?_
    intro i
    rw [testBit_switchBit hz, testBit_switchBit hy]
    by_cases hi : i = p.toNat
    · simp [hi]
    · simp [hi]
  rw [hy]
  exact hz.trans (congrArg Except.ok hzx)

theorem switchBit_comm {q : Int} (hpq : p ≠ q) (hp : inside p x.length = true)
    (hq : inside q x.length = true) (o : ByteOrder) (value value' : Option Bool) :
    (switchBit o p value x >>= switchBit o q value') =
      (switchBit o q value' x >>= switchBit o p value) := by
  obtain ⟨y, hy⟩ := exists_switchBit hp o value
  obtain ⟨z, hz⟩ := exists_switchBit (x := y) (length_switchBit hy ▸ hq) o value'
  obtain ⟨y', hy'⟩ := exists_switchBit hq o value'
  obtain ⟨z', hz'⟩ := exists_switchBit (x := y') (length_switchBit hy' ▸ hp) o value
  have hne : p.toNat ≠ q.toNat := by
    have := inside_iff.mp hp
    have := inside_iff.mp hq
    omega
  have hzz' : z = z' := by
    have hlength : z.length = z'.length := by
      rw [length_switchBit hz, length_switchBit hy, length_switchBit hz', length_switchBit hy']
    refine eq_of_testBit (o := o) hlength fun i => ?_
    rw [testBit_switchBit hz, testBit_switchBit hy, testBit_switchBit hz', testBit_switchBit hy']
    by_cases hip : i = p.toNat
    · simp [hip, hne]
    · simp [hip]
  rw [hy, hy']
  exact hz.trans ((congrArg Except.ok hzz').trans hz'.symm)

/-! ## Positions -/

/-- What the positions of a string `x` mean, in an order. -/
structure Addressed (o : ByteOrder) (x : Bytes) : Prop where
  /-- Bits are read at all positions that the string has, and at no other. -/
  read_refused : ∀ p : Int, (∃ f, bitAt o x p = .error f ∧ f.kind = .state) ↔
    p < 0 ∨ 8 * x.length ≤ p
  /-- Bits are switched at the same positions. -/
  switch_refused : ∀ (p : Int) (value : Option Bool),
    (∃ f, switchBit o p value x = .error f ∧ f.kind = .state) ↔ p < 0 ∨ 8 * x.length ≤ p
  /-- A switched bit has its new value, and every other bit the one that it had. -/
  switched : ∀ (p : Int) (value : Option Bool), 0 ≤ p → p < 8 * x.length →
    ∃ b y, bitAt o x p = .ok b ∧ switchBit o p value x = .ok y ∧ y.length = x.length ∧
      bitAt o y p = .ok (value.getD !b) ∧ ∀ q, q ≠ p → bitAt o y q = bitAt o x q
  /-- In place or on a copy, the transformer answers with the switched string. -/
  answered : ∀ (inPlace : Bool) (p : Int) (value : Option Bool),
    ((Transform.switchBit p value o).apply inPlace x).content = switchBit o p value x
  /-- The bits sum up to the number of the string, each with the weight of its position. -/
  number : ∃ bit : Nat → Bool, (∀ i < 8 * x.length, bitAt o x i = .ok (bit i)) ∧
    (∑ i ∈ Finset.range (8 * x.length), (bit i).toNat * 2 ^ i : Nat) =
      signedValue o x % 2 ^ (8 * x.length)
  twice : ∀ p : Int, 0 ≤ p → p < 8 * x.length →
    (switchBit o p none x >>= switchBit o p none) = .ok x
  commute : ∀ (p q : Int) (value value' : Option Bool), p ≠ q → 0 ≤ p → p < 8 * x.length →
    0 ≤ q → q < 8 * x.length →
    (switchBit o p value x >>= switchBit o q value') =
      (switchBit o q value' x >>= switchBit o p value)

theorem not_inside_iff {n : Nat} : inside p n = false ↔ p < 0 ∨ 8 * n ≤ p := by
  rw [← Bool.not_eq_true, inside_iff]
  omega

theorem addressed (o : ByteOrder) (x : Bytes) : Addressed o x where
  read_refused p := by
    rw [← not_inside_iff]
    cases hp : inside p x.length with
    | true => simp [bitAt, hp]
    | false => simp [bitAt, hp, Fault.kind]
  switch_refused p value := by
    rw [← not_inside_iff]
    cases hp : inside p x.length with
    | true => simp [switchBit, hp]
    | false => simp [switchBit, hp, Fault.kind]
  switched p value h0 hlt := by
    have hp : inside p x.length = true := inside_iff.mpr ⟨h0, hlt⟩
    obtain ⟨y, hy⟩ := exists_switchBit hp o value
    refine ⟨_, y, (bitAt_eq o x p).trans (if_pos hp), hy, length_switchBit hy, ?_, ?_⟩
    · rw [bitAt_switchBit hy, if_pos rfl]
    · intro q hq
      rw [bitAt_switchBit hy, if_neg hq]
  answered inPlace p value := Transform.content_writtenIf inPlace x (switchBit o p value x)
  number := by
    refine ⟨(unsignedValue o x).testBit, ?_, ?_⟩
    · intro i hi
      rw [bitAt_eq, if_pos (inside_iff.mpr (by omega))]
      rfl
    · rw [sum_testBit, Nat.mod_eq_of_lt (unsignedValue_lt o x), signedValue_emod]
  twice p h0 hlt := switchBit_twice (inside_iff.mpr ⟨h0, hlt⟩) o
  commute p q value value' hpq hp0 hp hq0 hq :=
    switchBit_comm hpq (inside_iff.mpr ⟨hp0, hp⟩) (inside_iff.mpr ⟨hq0, hq⟩) o value value'

end Bits
end Octets
