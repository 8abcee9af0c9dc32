import Octets.Search
/-!
# Lexicographic comparison

A comparison says how two byte strings stand in the order that lists of bytes have,
which is linear (`compared`). Strings of equal length stand as the numbers that they
write do (`compare_eq_sign`), and a proper initial part is smaller (`compare_of_prefix`).
-/

namespace Octets.Search

variable {x y z : Bytes}

/-- What a comparison says of two strings. -/
inductive Compared (x y : Bytes) : Int → Prop
  | less (h : x < y) : Compared x y (-1)
  | same (h : x = y) : Compared x y 0
  | greater (h : y < x) : Compared x y 1

/-- The first bytes that differ decide, or the end that comes first. -/
theorem compared (x y : Bytes) : Compared x y (compare x y) := by
  induction x generalizing y with
  | nil =>
    cases y with
    | nil => exact .same rfl
    | cons b y => exact .less (List.nil_lt_cons b y)
  | cons a x ih =>
    cases y with
    | nil => exact .greater (List.nil_lt_cons a x)
    | cons b y =>
      rw [compare]
      rcases Std.lt_trichotomy a b with hab | rfl | hba
      · rw [if_pos hab]
        exact .less (List.cons_lt_cons_iff.mpr (.inl hab))
      · rw [if_neg Std.lt_irrefl, if_neg Std.lt_irrefl]
        have hrest := ih y
        generalize compare x y = v at hrest ⊢
        cases hrest with
        | less h => exact .less (List.cons_lt_cons_iff.mpr (.inr ⟨rfl, h⟩))
        | same h => exact .same (congrArg (a :: ·) h)
        | greater h => exact .greater (List.cons_lt_cons_iff.mpr (.inr ⟨rfl, h⟩))
      · have hab : ¬ a < b := fun h => Std.lt_irrefl (Std.lt_trans h hba)
        rw [if_neg hab, if_pos hba]
        exact .greater (List.cons_lt_cons_iff.mpr (.inl hba))

theorem Compared.eq_ite {v : Int} (h : Compared x y v) :
    v = if x < y then -1 else if y < x then 1 else 0 := by
  cases h with
  | less h => rw [if_pos h]
  | same h =>
    subst h
    rw [if_neg Std.lt_irrefl, if_neg Std.lt_irrefl]
  | greater h =>
    have hxy : ¬ x < y := fun h' => Std.lt_irrefl (Std.lt_trans h h')
    rw [if_neg hxy, if_pos h]

/-- No two of the three cases are ever the case together. -/
theorem Compared.unique {u v : Int} (hu : Compared x y u) (hv : Compared x y v) : u = v :=
  hu.eq_ite.trans hv.eq_ite.symm

theorem compare_iff {v : Int} : compare x y = v ↔ Compared x y v := by
  constructor
  · rintro rfl
    exact compared x y
  · exact (compared x y).unique

theorem compare_mem (x y : Bytes) : compare x y = -1 ∨ compare x y = 0 ∨ compare x y = 1 := by
  have h := compared x y
  generalize compare x y = v at h ⊢
  cases h with
  | less => exact .inl rfl
  | same => exact .inr (.inl rfl)
  | greater => exact .inr (.inr rfl)

theorem compare_swap (x y : Bytes) : compare y x = -compare x y := by
  rw [compare_iff]
  have h := compared x y
  generalize compare x y = v at h ⊢
  cases h with
  | less h => exact .greater h
  | same h => exact .same h.symm
  | greater h => exact .less h

theorem compare_eq_zero : compare x y = 0 ↔ x = y := by
  rw [compare_iff]
  constructor
  · intro h
    cases h with
    | same h => exact h
  · exact .same

theorem compare_le_zero : compare x y ≤ 0 ↔ x ≤ y := by
  have h := compared x y
  generalize compare x y = v at h ⊢
  cases h with
  | less h => exact iff_of_true (by decide) (Std.le_of_lt h)
  | same h => exact iff_of_true (by decide) (Std.le_of_eq h)
  | greater h => exact iff_of_false (by decide) (Std.not_le.mpr h)

theorem compare_trans (h : compare x y ≤ 0) (h' : compare y z ≤ 0) : compare x z ≤ 0 := by
  rw [compare_le_zero] at h h' ⊢
  exact Std.le_trans h h'

/-- A chain begins and ends with the same string only if all of it is that string. -/
theorem compare_trans_eq_zero (h : compare x y ≤ 0) (h' : compare y z ≤ 0) :
    compare x z = 0 ↔ compare x y = 0 ∧ compare y z = 0 := by
  rw [compare_le_zero] at h h'
  simp only [compare_eq_zero]
  constructor
  · rintro rfl
    exact ⟨Std.le_antisymm h h', Std.le_antisymm h' h⟩
  · rintro ⟨rfl, rfl⟩
    rfl

/-! ## Numbers and initial parts -/

/-- Among strings of one length the greater one writes the greater number: the first bytes
that differ weigh more than all that follow. -/
theorem value_lt_of_lt (hlength : x.length = y.length) (h : x < y) : x.value < y.value := by
  induction x generalizing y with
  | nil =>
    obtain rfl := List.length_eq_zero_iff.mp hlength.symm
    exact absurd h Std.lt_irrefl
  | cons a x ih =>
    cases y with
    | nil => cases hlength
    | cons b y =>
      have hxy : x.length = y.length := Nat.succ.inj hlength
      rw [Bytes.value_cons, Bytes.value_cons, hxy]
      rcases List.cons_lt_cons_iff.mp h with hab | ⟨rfl, hrest⟩
      · have hx : Bytes.value x < 256 ^ y.length := hxy ▸ Bytes.value_lt x
        calc a.toNat * 256 ^ y.length + Bytes.value x
            < a.toNat * 256 ^ y.length + 256 ^ y.length := Nat.add_lt_add_left hx _
          _ = (a.toNat + 1) * 256 ^ y.length := (Nat.succ_mul _ _).symm
          _ ≤ b.toNat * 256 ^ y.length :=
            Nat.mul_le_mul_right _ (UInt8.lt_iff_toNat_lt.mp hab)
          _ ≤ b.toNat * 256 ^ y.length + Bytes.value y := Nat.le_add_right _ _
      · exact Nat.add_lt_add_left (ih hxy hrest) _

theorem compare_eq_sign (hlength : x.length = y.length) :
    compare x y = ((x.value : Int) - y.value).sign := by
  rw [compare_iff]
  have h := compared x y
  generalize compare x y = v at h
  cases h with
  | less h =>
    have hvalue := value_lt_of_lt hlength h
    rw [Int.sign_eq_neg_one_of_neg (by omega)]
    exact .less h
  | same h =>
    rw [h, Int.sub_self]
    exact .same rfl
  | greater h =>
    have hvalue := value_lt_of_lt hlength.symm h
    rw [Int.sign_eq_one_of_pos (by omega)]
    exact .greater h

theorem compare_of_prefix (h : x <+: y) (hne : x ≠ y) : compare x y = -1 :=
  compare_iff.mpr (.less (Std.lt_of_le_of_ne h.le hne))

/-- Bytes are unsigned, and length counts only where one string is the front of the other. -/
example : compare [0x80] [0x7f] = 1 ∧ compare [2] [1, 9, 9] = 1 ∧ compare [1] [1, 0] = -1 := by
  decide

end Octets.Search
