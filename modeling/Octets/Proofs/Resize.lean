import Octets.Proofs.Shift
/-!
# Lengths changed at either end

Cut or filled at its beginning, a string keeps the number that it writes most significant byte
first, modulo a power of 256 that goes by the new length (`Layout.value_resize_stop`). Cut or
filled at its end, it is the mirror image of that (`Layout.resize_start_reverse`), and keeps
the number that it writes least significant byte first. Lengths changed one after another take
residues one after another, and the last one is all that counts where the one before it has a
larger modulus, or has changed nothing (`Layout.resize_resize`).

All in one: `Layout.resizes`.
-/

namespace Octets

namespace Layout

variable {n m : Nat} {x : Bytes}

theorem value_resize_stop (n : Nat) (x : Bytes) :
    (resize .stop n x).value = x.value % 256 ^ n := by
  rw [resize]
  by_cases h : n ≤ x.length
  · rw [if_pos h, Bytes.value_drop, Nat.sub_sub_self h]
  · have hle : 256 ^ x.length ≤ 256 ^ n := Nat.pow_le_pow_right (by decide) (by omega)
    rw [if_neg h, Bytes.value_zeros_append,
      Nat.mod_eq_of_lt (Nat.lt_of_lt_of_le x.value_lt hle)]

theorem resize_start_reverse (n : Nat) (x : Bytes) :
    resize .start n x.reverse = (resize .stop n x).reverse := by
  rw [resize, resize, List.length_reverse]
  by_cases h : n ≤ x.length
  · rw [if_pos h, if_pos h, List.take_reverse]
  · rw [if_neg h, if_neg h, List.reverse_append, Bytes.zeros, List.reverse_replicate]

theorem littleValue_resize_start (n : Nat) (x : Bytes) :
    (resize .start n x).littleValue = x.littleValue % 256 ^ n := by
  have hmirror := resize_start_reverse n x.reverse
  rw [List.reverse_reverse] at hmirror
  rw [hmirror, Bytes.littleValue_reverse, value_resize_stop, Bytes.value_reverse]

/-- The other end. -/
def Anchor.opposite : Anchor → Anchor
  | start => stop
  | stop => start

theorem reverse_resize_reverse (anchor : Anchor) (n : Nat) (x : Bytes) :
    (resize anchor n x.reverse).reverse = resize anchor.opposite n x := by
  cases anchor with
  | start => rw [resize_start_reverse, List.reverse_reverse, Anchor.opposite]
  | stop => rw [← resize_start_reverse, List.reverse_reverse, Anchor.opposite]

theorem resize_stop_resize_stop (h : m ≤ n ∨ x.length ≤ n) :
    resize .stop m (resize .stop n x) = resize .stop m x := by
  apply Bytes.value_injective
  · rw [length_resize, length_resize]
  · rw [value_resize_stop, value_resize_stop, value_resize_stop]
    rcases h with hmn | hxn
    · exact Nat.mod_mod_of_dvd x.value (Nat.pow_dvd_pow 256 hmn)
    · have hle : 256 ^ x.length ≤ 256 ^ n := Nat.pow_le_pow_right (by decide) hxn
      rw [Nat.mod_eq_of_lt (Nat.lt_of_lt_of_le x.value_lt hle)]

/-- Of two changes of length at one end the second is enough, if the first has not cut more. -/
theorem resize_resize (anchor : Anchor) (h : m ≤ n ∨ x.length ≤ n) :
    resize anchor m (resize anchor n x) = resize anchor m x := by
  cases anchor with
  | stop => exact resize_stop_resize_stop h
  | start =>
    have hstop (k : Nat) (y : Bytes) : resize .start k y = (resize .stop k y.reverse).reverse :=
      (reverse_resize_reverse .stop k y).symm
    have hback : m ≤ n ∨ x.reverse.length ≤ n := by rwa [List.length_reverse]
    rw [hstop m, hstop n, List.reverse_reverse, resize_stop_resize_stop hback, ← hstop]

theorem resize_length (anchor : Anchor) (x : Bytes) : resize anchor x.length x = x := by
  cases anchor with
  | start => rw [resize, if_pos (Nat.le_refl _), List.take_length]
  | stop => rw [resize, if_pos (Nat.le_refl _), Nat.sub_self, List.drop_zero]

/-! ## Transformers and requests -/

/-- What a change of the length to `n` bytes does to `x`. -/
structure Resizes (n : Nat) (x : Bytes) : Prop where
  length : ∀ anchor, (resize anchor n x).length = n
  stop : (resize .stop n x).value = x.value % 256 ^ n
  start : (resize .start n x).littleValue = x.littleValue % 256 ^ n
  mirrored : ∀ anchor, (resize anchor n x.reverse).reverse = resize anchor.opposite n x
  resized : ∀ (anchor : Anchor) (m : Nat), m ≤ n ∨ x.length ≤ n →
    resize anchor m (resize anchor n x) = resize anchor m x
  restored : ∀ anchor, x.length ≤ n → resize anchor x.length (resize anchor n x) = x
  called : ∀ anchor, (Transform.Setup.resize n anchor).construct =
      .ok (Transform.Setup.resize n anchor) ∧
    (Transform.Setup.resize n anchor).call x = .ok (resize anchor n x)
  requested : ∀ {σ : Store} {s : SequenceId} {q : Sequence}, σ.Holds s q x → ∀ anchor,
    σ.outcome s (.resize anchor n) = .ok (resize anchor n x, q.order)

theorem resizes (n : Nat) (x : Bytes) : Resizes n x where
  length := fun anchor => length_resize anchor n x
  stop := value_resize_stop n x
  start := littleValue_resize_start n x
  mirrored := fun anchor => reverse_resize_reverse anchor n x
  resized := fun anchor _ => resize_resize anchor
  restored := fun anchor h => (resize_resize anchor (.inr h)).trans (resize_length anchor x)
  called := by
    intro anchor
    refine ⟨?_, Transform.Setup.call_resize n anchor x⟩
    rw [Transform.Setup.construct, Check.notNegative_natCast]
    rfl
  requested := by
    intro σ s q h anchor
    refine Store.outcome_library (u := .resize anchor n) h ?_
    rw [Request.transform?, Transform.resizeTo, Check.notNegative_natCast]
    rfl

/-- Cut to one byte on the way, a string does not come back. -/
example : resize .stop 3 (resize .stop 1 [1, 2, 3]) = [0, 0, 3] := by decide

end Layout
end Octets
