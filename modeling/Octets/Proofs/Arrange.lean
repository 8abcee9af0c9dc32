import Mathlib.Data.FinEnum
import Mathlib.Data.List.FinRange
import Octets.Proofs.Setup
import Octets.Proofs.Store.Mirror
/-!
# Sorting and shuffling

A sort by keys is a merge sort of the bytes (`Arrange.sortByKey_eq`). Where it descends, the
comparison is turned round and not the result: bytes with equal keys may precede each other
either way, so that in the string they are in order already, and a stable sort keeps them so
(`filter_sortByKey`). What is in order stays as it is, and the natural order leaves no choice
(`sort_eq_sort_iff`). As only comparisons matter, integers can take the place of keys from any
linear order (`rank_le_rank_iff`).

A swap is a permutation of the positions, so a series of swaps is one (`exists_applySwaps`).
Which one does not depend on the bytes, as a generator is asked for nothing but numbers below
bounds that the length gives (`exists_moves`). A generator may be seeded, the system's or a
caller's, and it may refuse a draw: then the shuffle ends with the swaps made by then.

All in one: `Arrange.arranges`.
-/

namespace Octets

namespace Arrange

/-! ## Sorting -/

section Keys

variable {κ : Type} [LinearOrder κ] {key : UInt8 → κ} {descending : Bool} {x y : Bytes}

/-- The bytes sorted by keys from a linear order. -/
def sortByKey (key : UInt8 → κ) (descending : Bool) (x : Bytes) : Bytes :=
  sortBy (fun a b => decide (a ≤ b)) key descending x

/-- Whether one byte may come before another one. -/
def mayPrecede (key : UInt8 → κ) (descending : Bool) (a b : UInt8) : Bool :=
  if descending then decide (key b ≤ key a) else decide (key a ≤ key b)

theorem mayPrecede_iff {a b : UInt8} : mayPrecede key descending a b = true ↔
    if descending then key b ≤ key a else key a ≤ key b := by
  cases descending with
  | false => exact decide_eq_true_iff
  | true => exact decide_eq_true_iff

theorem mayPrecede_trans (a b c : UInt8) (hab : mayPrecede key descending a b = true)
    (hbc : mayPrecede key descending b c = true) : mayPrecede key descending a c = true := by
  rw [mayPrecede_iff] at *
  cases descending with
  | false => exact le_trans hab hbc
  | true => exact le_trans hbc hab

theorem mayPrecede_total (a b : UInt8) :
    (mayPrecede key descending a b || mayPrecede key descending b a) = true := by
  rw [Bool.or_eq_true, mayPrecede_iff, mayPrecede_iff]
  cases descending with
  | false => exact le_total (key a) (key b)
  | true => exact le_total (key b) (key a)

theorem mayPrecede_of_eq {a b : UInt8} (h : key a = key b) :
    mayPrecede key descending a b = true := by
  rw [mayPrecede_iff, h]
  cases descending with
  | false => exact le_refl (key b)
  | true => exact le_refl (key b)

theorem sortByKey_eq (key : UInt8 → κ) (descending : Bool) (x : Bytes) :
    sortByKey key descending x = x.mergeSort (mayPrecede key descending) := by
  have hpairs : sortPairs (fun a b => decide (a ≤ b)) descending (x.map fun b => (key b, b)) =
      (x.mergeSort (mayPrecede key descending)).map fun b => (key b, b) := by
    cases descending with
    | false => exact (List.map_mergeSort (f := fun b => (key b, b)) fun _ _ _ _ => rfl).symm
    | true => exact (List.map_mergeSort (f := fun b => (key b, b)) fun _ _ _ _ => rfl).symm
  rw [sortByKey, sortBy, hpairs, List.map_map]
  exact List.map_id _

/-- Keys that compare alike sort alike. -/
theorem sortByKey_congr {ι : Type} [LinearOrder ι] {key' : UInt8 → ι}
    (h : ∀ a b, key a ≤ key b ↔ key' a ≤ key' b) (descending : Bool) (x : Bytes) :
    sortByKey key descending x = sortByKey key' descending x := by
  rw [sortByKey_eq, sortByKey_eq]
  congr 1
  funext a b
  simp only [mayPrecede, h]

/-- `y` is `x` in the order of the keys. -/
structure SortsBy (key : UInt8 → κ) (descending : Bool) (x y : Bytes) : Prop where
  perm : y.Perm x
  ordered : y.Pairwise fun a b => if descending then key b ≤ key a else key a ≤ key b
  /-- Bytes with equal keys keep their order. -/
  stable : ∀ k, (y.filter fun b => key b = k) = x.filter fun b => key b = k

theorem pairwise_sortByKey (key : UInt8 → κ) (descending : Bool) (x : Bytes) :
    (sortByKey key descending x).Pairwise fun a b => mayPrecede key descending a b = true := by
  rw [sortByKey_eq]
  exact List.pairwise_mergeSort mayPrecede_trans mayPrecede_total x

theorem sortByKey_perm (key : UInt8 → κ) (descending : Bool) (x : Bytes) :
    (sortByKey key descending x).Perm x := by
  rw [sortByKey_eq]
  exact List.mergeSort_perm x _

/-- The bytes with one key are in order already, and a stable sort keeps them so. -/
theorem filter_sortByKey (key : UInt8 → κ) (descending : Bool) (x : Bytes) (k : κ) :
    ((sortByKey key descending x).filter fun b => key b = k) = x.filter fun b => key b = k := by
  have hequal : (x.filter fun b => key b = k).Pairwise fun a b =>
      mayPrecede key descending a b = true := by
    refine List.pairwise_of_forall_mem_list fun a ha b hb => mayPrecede_of_eq ?_
    have hka : key a = k := of_decide_eq_true (List.mem_filter.mp ha).2
    have hkb : key b = k := of_decide_eq_true (List.mem_filter.mp hb).2
    rw [hka, hkb]
  have hkept : (x.filter fun b => key b = k).Sublist (sortByKey key descending x) := by
    rw [sortByKey_eq]
    exact List.sublist_mergeSort mayPrecede_trans mayPrecede_total hequal List.filter_sublist
  have hsub := hkept.filter fun b => key b = k
  simp only [List.filter_filter, Bool.and_self] at hsub
  exact (hsub.eq_of_length ((sortByKey_perm key descending x).filter _).length_eq.symm).symm

theorem sortsBy_sortByKey (key : UInt8 → κ) (descending : Bool) (x : Bytes) :
    SortsBy key descending x (sortByKey key descending x) where
  perm := sortByKey_perm key descending x
  ordered := (pairwise_sortByKey key descending x).imp mayPrecede_iff.mp
  stable := filter_sortByKey key descending x

theorem sortByKey_sortByKey (key : UInt8 → κ) (descending : Bool) (x : Bytes) :
    sortByKey key descending (sortByKey key descending x) = sortByKey key descending x := by
  rw [sortByKey_eq key descending (sortByKey key descending x)]
  exact List.mergeSort_of_pairwise (pairwise_sortByKey key descending x)

/-- How many bytes have a lesser key. -/
def rank (key : UInt8 → κ) (b : UInt8) : Int := (Finset.univ.filter fun c => key c < key b).card

/-- The ranks of keys compare as the keys do. -/
theorem rank_le_rank_iff {a b : UInt8} : rank key a ≤ rank key b ↔ key a ≤ key b := by
  constructor
  · contrapose!
    intro hlt
    refine Int.ofNat_lt.mpr (Finset.card_lt_card ⟨?_, fun hsub => ?_⟩)
    · intro c hc
      rw [Finset.mem_filter_univ] at *
      exact lt_trans hc hlt
    · have hself := hsub ((Finset.mem_filter_univ b).mpr hlt)
      rw [Finset.mem_filter_univ] at hself
      exact lt_irrefl _ hself
  · intro hle
    refine Int.ofNat_le.mpr (Finset.card_le_card fun c hc => ?_)
    rw [Finset.mem_filter_univ] at *
    exact lt_of_lt_of_le hc hle

end Keys

/-- A key that is never refused is the key that a sort goes by. -/
theorem sortKeyed_eq (key : UInt8 → Int) (descending : Bool) (x : Bytes) :
    sortKeyed (fun b => .ok (key b)) descending x = .ok (sortByKey key descending x) := by
  have hitems : (x.mapM fun b => (Except.ok (key b) : Outcome Int).map (·, b)) =
      .ok (x.map fun b => (key b, b)) := by
    induction x with
    | nil => rfl
    | cons b x ih =>
      rw [List.mapM_cons, ih]
      rfl
  rw [sortKeyed, hitems]
  rfl

theorem sort_perm (descending : Bool) (x : Bytes) : (sort descending x).Perm x :=
  sortByKey_perm UInt8.toNat descending x

/-- Two strings have the same bytes exactly if they are sorted to the same string. -/
theorem sort_eq_sort_iff {descending : Bool} {x y : Bytes} :
    sort descending x = sort descending y ↔ x.Perm y := by
  constructor
  · intro h
    exact (sort_perm descending x).symm.trans (h ▸ sort_perm descending y)
  · intro h
    refine List.Perm.eq_of_pairwise ?_ (pairwise_sortByKey UInt8.toNat descending x)
      (pairwise_sortByKey UInt8.toNat descending y)
      (((sort_perm descending x).trans h).trans (sort_perm descending y).symm)
    intro a b _ _ hab hba
    rw [mayPrecede_iff] at hab hba
    cases descending with
    | false => exact UInt8.toNat_inj.mp (le_antisymm hab hba)
    | true => exact UInt8.toNat_inj.mp (le_antisymm hba hab)

/-! ## Shuffling -/

/-- After a swap of two positions, there is at each what was at the swapped one. -/
theorem getElem?_swapIfInBounds {n : Nat} {x : Bytes} (hx : x.length = n) (i j k : Fin n) :
    (x.toArray.swapIfInBounds i j).toList[(k : Nat)]? = x[(Equiv.swap i j k : Nat)]? := by
  subst hx
  have hswap : x.toArray.swapIfInBounds i j = x.toArray.swap i j := by
    simp [Array.swapIfInBounds]
  have hval (a b : Fin x.length) : (a : Nat) = b ↔ a = b := Fin.val_inj
  rw [hswap, Array.getElem?_toList, Array.getElem?_swap, Equiv.swap_apply_def]
  simp only [hval]
  by_cases hj : k = j
  · rw [if_pos hj.symm, hj]
    by_cases hij : j = i
    · rw [if_pos hij, hij, List.getElem?_eq_getElem i.isLt]
      rfl
    · rw [if_neg hij, if_pos rfl, List.getElem?_eq_getElem i.isLt]
      rfl
  · by_cases hi : k = i
    · rw [if_neg (Ne.symm hj), if_pos hi.symm, if_pos hi, List.getElem?_eq_getElem j.isLt]
      rfl
    · rw [if_neg (Ne.symm hj), if_neg (Ne.symm hi), if_neg hi, if_neg hj,
        List.getElem?_toArray]

/-- A series of swaps moves the bytes by one permutation of the positions. -/
theorem exists_applySwaps {n : Nat} {pairs : List (Nat × Nat)}
    (h : ∀ p ∈ pairs, p.1 < n ∧ p.2 < n) : ∃ π : Equiv.Perm (Fin n), ∀ x : Bytes, x.length = n →
      ∀ i : Fin n, (applySwaps pairs x)[(i : Nat)]? = x[(π i : Nat)]? := by
  induction pairs with
  | nil => exact ⟨Equiv.refl _, fun _ _ _ => rfl⟩
  | cons p pairs ih =>
    obtain ⟨hp, hpairs⟩ := List.forall_mem_cons.mp h
    obtain ⟨π, hπ⟩ := ih hpairs
    refine ⟨π.trans (Equiv.swap ⟨p.1, hp.1⟩ ⟨p.2, hp.2⟩), fun x hx i => ?_⟩
    have hlength : (x.toArray.swapIfInBounds p.1 p.2).toList.length = n := by simp [hx]
    have hrest := hπ _ hlength i
    rw [getElem?_swapIfInBounds hx ⟨p.1, hp.1⟩ ⟨p.2, hp.2⟩] at hrest
    exact hrest

/-- A shuffle of `n` bytes moves them by the permutation `π` of their positions. -/
structure Moves (g : Generator) {n : Nat} (π : Equiv.Perm (Fin n)) (x : Bytes) : Prop where
  positions : ∀ i : Fin n, (shuffle g x).content[(i : Nat)]? = x[(π i : Nat)]?
  perm : (shuffle g x).content.Perm x
  sorted : ∀ descending, sort descending (shuffle g x).content = sort descending x

/-- Draws are asked for without looking at the bytes, so that there is one permutation for all
strings of one length. If a draw is refused, it is so for all of them. -/
theorem exists_moves (g : Generator) (n : Nat) :
    ∃ (π : Equiv.Perm (Fin n)) (refusal : Option Fault), ∀ x : Bytes, x.length = n →
      Moves g π x ∧ (shuffle g x).refusal = refusal := by
  obtain ⟨π, hπ⟩ := exists_applySwaps (swaps_lt (g.place n) n)
  refine ⟨π, (swaps (g.place n) n).2, fun x hx => ?_⟩
  subst hx
  exact ⟨⟨hπ x rfl, shuffle_perm g x, fun _ => sort_eq_sort_iff.mpr (shuffle_perm g x)⟩, rfl⟩

/-- A shuffle that is granted all its draws is a permutation of the string. -/
theorem outcome_of_granted {g : Generator} {x : Bytes}
    (h : ∀ i, 0 < i → i < x.length → ∃ j, g.place x.length i = .ok j) :
    (shuffle g x).outcome = .ok (shuffle g x).content := by
  obtain ⟨y, hy⟩ := exists_outcome h
  rw [hy, Shuffled.content_of_outcome hy]

/-! ## Transformers and requests -/

/-- How bytes are sorted and shuffled. -/
structure Arranges : Prop where
  /-- By a key into any linear order, in either direction. -/
  keyed : ∀ {κ : Type} [LinearOrder κ] (key : UInt8 → κ) (descending : Bool) (x : Bytes),
    SortsBy key descending x (sortByKey key descending x) ∧
    sortByKey key descending (sortByKey key descending x) = sortByKey key descending x
  natural : ∀ (descending : Bool) (x : Bytes),
    SortsBy UInt8.toNat descending x (sort descending x) ∧
    sort descending (sort descending x) = sort descending x
  /-- The natural order depends on nothing but which bytes there are, and how many of each. -/
  multiset : ∀ (descending : Bool) (x y : Bytes),
    sort descending x = sort descending y ↔ x.Perm y
  /-- There are integers that compare as the keys do, -/
  ranked : ∀ {κ : Type} [LinearOrder κ] (key : UInt8 → κ), ∃ r : UInt8 → Int,
    ∀ a b, r a ≤ r b ↔ key a ≤ key b
  /-- and a call with any such integers, or the keys themselves, sorts by the keys. -/
  calledKeyed : ∀ {κ : Type} [LinearOrder κ] (key : UInt8 → κ) (r : UInt8 → Int),
    (∀ a b, r a ≤ r b ↔ key a ≤ key b) → ∀ (descending : Bool) (x : Bytes),
    (Transform.Setup.sort (some fun b => .ok (r b)) descending).call x =
      .ok (sortByKey key descending x)
  called : ∀ (descending : Bool) (x : Bytes),
    (Transform.Setup.sort none descending).call x = .ok (sort descending x)
  /-- Whatever draws a generator grants, a shuffle is one permutation of the positions, whatever
  the bytes are. -/
  moved : ∀ (g : Generator) (n : Nat), ∃ (π : Equiv.Perm (Fin n)) (refusal : Option Fault),
    ∀ x : Bytes, x.length = n → Moves g π x ∧ (shuffle g x).refusal = refusal
  /-- It comes to its end if all its draws are granted; every swap finds the bytes it is for. -/
  granted : ∀ (g : Generator) (x : Bytes),
    (∀ i, 0 < i → i < x.length → ∃ j, g.place x.length i = .ok j) →
    (shuffle g x).outcome = .ok (shuffle g x).content
  calledShuffle : ∀ (g : Generator) (x : Bytes),
    (Transform.Setup.shuffle g).call x = Called.of (shuffle g x).outcome
  requested : ∀ {σ : Store} {s : SequenceId} {q : Sequence} {x : Bytes}, σ.Holds s q x →
    ∀ descending : Bool,
    σ.outcome s (.sort none descending) = .ok (sort descending x, q.order) ∧
    (∀ key : UInt8 → Int, σ.outcome s (.sort (some fun b => .ok (key b)) descending) =
      .ok (sortByKey key descending x, q.order)) ∧
    ∀ g : Generator, σ.outcome s (.shuffle g) = (shuffle g x).outcome.map (·, q.order)

theorem arranges : Arranges where
  keyed := fun key descending x =>
    ⟨sortsBy_sortByKey key descending x, sortByKey_sortByKey key descending x⟩
  natural := fun descending x =>
    ⟨sortsBy_sortByKey UInt8.toNat descending x, sortByKey_sortByKey UInt8.toNat descending x⟩
  multiset := fun _ _ _ => sort_eq_sort_iff
  ranked := fun key => ⟨rank key, fun _ _ => rank_le_rank_iff⟩
  calledKeyed := by
    intro κ _ key r hr descending x
    rw [Transform.Setup.call, sortKeyed_eq, sortByKey_congr hr]
    rfl
  called := fun _ _ => rfl
  moved := exists_moves
  granted := fun _ _ => outcome_of_granted
  calledShuffle := Transform.Setup.call_shuffle
  requested := by
    intro σ s q x h descending
    refine ⟨?_, fun key => ?_, fun g => ?_⟩
    · exact Store.outcome_library (u := .sort none descending) h rfl
    · rw [Store.outcome_library (u := .sort _ descending) h rfl, Transform.apply,
        Transform.content_made, sortKeyed_eq]
      rfl
    · rw [Store.outcome_library (u := .shuffle g) h rfl, Transform.apply,
        Transform.content_writtenUpTo]

/-- Bytes with equal keys are not turned round when the sort descends. -/
example : sortByKey (fun b => b.toNat % 2) true [2, 1, 4, 3] = [1, 3, 2, 4] := by
  cbv

end Arrange
end Octets
