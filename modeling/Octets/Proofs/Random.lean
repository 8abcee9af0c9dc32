import Mathlib.Data.Fintype.BigOperators
import Mathlib.Data.Fintype.Pigeonhole
import Octets.Random.Twister
/-!
# Draws that are made again

A draw below a bound is made again until it is below. The number of tries that `Twister.below`
allows is no limit: the state decides how things go on, and after as many tries as there are
states one of them has come back (`exists_recurrence`). So what has not come to an end by then
never does (`below_eq_none_iff`), and what comes to an end at all is what is drawn
(`below_eq_some_iff`).
-/

namespace Octets.Twister

/-- The state after one try at a draw below `m + 1`. -/
def tried (m : Nat) (g : Twister) : Twister := (g.bits (bitLength (m + 1))).2

/-- Whether the next try at a draw below `m + 1` is in vain. -/
def Vain (m : Nat) (g : Twister) : Prop := ¬ (g.bits (bitLength (m + 1))).1 < m + 1

/-- The words of a state and its place among them, as numbers. -/
def code (g : Twister) : (Fin size → Fin UInt32.size) × Fin (size + 1) :=
  (fun i => (g.words.get i).toFin, g.next)

theorem code_injective : Function.Injective code := by
  rintro ⟨v, i⟩ ⟨w, j⟩ h
  obtain ⟨hwords, rfl⟩ := Prod.mk.inj h
  have hvw : v = w := by
    refine Vector.ext fun k hk => ?_
    exact UInt32.toFin_inj.mp (congrFun hwords ⟨k, hk⟩)
  rw [hvw]

theorem card_codes (n : Nat) :
    Fintype.card ((Fin n → Fin UInt32.size) × Fin (n + 1)) = states n := by
  rw [Fintype.card_prod, Fintype.card_fun, Fintype.card_fin, Fintype.card_fin, Fintype.card_fin,
    states]

/-- However the states go on from one to the next, one has come back after so many steps. -/
theorem exists_recurrence (f : Twister → Twister) (g : Twister) :
    ∃ i j, i < j ∧ j ≤ states size ∧ f^[i] g = f^[j] g := by
  have hcard : Fintype.card ((Fin size → Fin UInt32.size) × Fin (size + 1)) <
      Fintype.card (Fin (states size + 1)) := by
    rw [Fintype.card_fin, card_codes]
    exact Nat.lt_succ_self _
  obtain ⟨i, j, hne, hij⟩ := Fintype.exists_ne_map_eq_of_card_lt
    (fun i : Fin (states size + 1) => code (f^[i] g)) hcard
  have heq : f^[i] g = f^[j] g := code_injective hij
  rcases Nat.lt_or_gt_of_ne (Fin.val_ne_of_ne hne) with h | h
  · exact ⟨i, j, h, Nat.le_of_lt_succ j.isLt, heq⟩
  · exact ⟨j, i, h, Nat.le_of_lt_succ i.isLt, heq.symm⟩

/-- What holds of so many states in a row holds of all that follow. -/
theorem forall_iterate {p : Twister → Prop} {f : Twister → Twister} {g : Twister}
    (h : ∀ i < states size, p (f^[i] g)) (n : Nat) : p (f^[n] g) := by
  obtain ⟨i, j, hlt, hj, hback⟩ := exists_recurrence f g
  induction n using Nat.strong_induction_on with
  | _ n ih =>
    by_cases hn : n < states size
    · exact h n hn
    · -- the state of step `n` is that of `j - i` steps before
      have hsame : f^[n] g = f^[n - j + i] g := by
        rw [Function.iterate_add_apply, hback, ← Function.iterate_add_apply]
        congr 1
        omega
      rw [hsame]
      exact ih _ (by omega)

theorem belowIn_eq_none_iff {m n : Nat} {g : Twister} :
    belowIn m n g = none ↔ ∀ i < n, Vain m ((tried m)^[i] g) := by
  induction n generalizing g with
  | zero => exact ⟨fun _ _ => nofun, fun _ => rfl⟩
  | succ n ih =>
    rw [belowIn, Nat.forall_lt_succ_left]
    by_cases hbelow : (g.bits (bitLength (m + 1))).1 < m + 1
    · rw [dif_pos hbelow]
      exact ⟨nofun, fun h => absurd hbelow h.1⟩
    · rw [dif_neg hbelow, ih]
      exact (and_iff_right hbelow).symm

/-- The draws of `below` that do not come to an end would not do so in any number of tries. -/
theorem below_eq_none_iff {m : Nat} {g : Twister} :
    below m g = none ↔ ∀ n, belowIn m n g = none := by
  constructor
  · intro h n
    rw [below, belowIn_eq_none_iff] at h
    exact belowIn_eq_none_iff.mpr fun i _ => forall_iterate h i
  · exact fun h => h (states size)

/-- More tries than it takes make no difference. -/
theorem belowIn_mono {m n k : Nat} {g : Twister} {r : Fin (m + 1) × Twister} (h : n ≤ k)
    (hr : belowIn m n g = some r) : belowIn m k g = some r := by
  induction n generalizing k g with
  | zero => cases hr
  | succ n ih =>
    obtain ⟨k, rfl⟩ := Nat.exists_eq_add_of_lt h
    rw [belowIn] at hr ⊢
    by_cases hbelow : (g.bits (bitLength (m + 1))).1 < m + 1
    · rw [dif_pos hbelow] at hr ⊢
      exact hr
    · rw [dif_neg hbelow] at hr ⊢
      exact ih (by omega) hr

/-- What is drawn is what comes of any number of tries that is enough. -/
theorem below_eq_some_iff {m : Nat} {g : Twister} {r : Fin (m + 1) × Twister} :
    below m g = some r ↔ ∃ n, belowIn m n g = some r := by
  constructor
  · exact fun h => ⟨states size, h⟩
  · rintro ⟨n, hn⟩
    cases hbelow : below m g with
    | none =>
      rw [below_eq_none_iff.mp hbelow n] at hn
      cases hn
    | some s =>
      have hs := belowIn_mono (Nat.le_max_right n (states size)) hbelow
      have hr := belowIn_mono (Nat.le_max_left n (states size)) hn
      exact hs.symm.trans hr

end Octets.Twister
