import Mathlib.Data.Finset.Card
import Mathlib.Data.Finset.Image
import Mathlib.Order.Bounds.Basic
import Octets.Proofs.Reversal
import Octets.Proofs.Store.Execution
/-!
# Where a pattern stands

All questions about a pattern are about one finite set, that of the indexes at which the
pattern stands in the string (`Search.occurrences`). A search from an index on finds the least
of them that is not below (`first_indexOf`), a search from the other end the greatest
(`last_lastIndexOf`). To count, one searches again from one past each hit. As a hit is the
least occurrence not below the start, the occurrences from there on are the hit and those
after it (`card_occurrencesFrom`); so none is left out where they overlap, each turn leaves
one fewer, and there are as many turns as occurrences (`hits_indexOf`).

For the questions of a store: `Store.searches_located`. All but two of them take the pattern of
one byte as an integer, too; whether the content begins or ends with a pattern is asked of byte
strings only (`Store.affix_byte_refused`).
-/

namespace Octets

namespace Search

variable {p x : Bytes} {i k : Nat}

/-- The indexes at which `p` stands in `x`. -/
def occurrences (p x : Bytes) : Finset Nat :=
  {i ∈ Finset.range (x.length + 1) | i + p.length ≤ x.length ∧ x.window i p.length = p}

theorem mem_occurrences :
    i ∈ occurrences p x ↔ i + p.length ≤ x.length ∧ x.window i p.length = p := by
  simp only [occurrences, Finset.mem_filter, Finset.mem_range, and_iff_right_iff_imp]
  omega

theorem mem_occurrences_iff_isPrefix :
    i ∈ occurrences p x ↔ i ≤ x.length ∧ p <+: x.drop i := by
  rw [mem_occurrences, List.prefix_iff_eq_take, Bytes.window, eq_comm (a := p)]
  constructor
  · rintro ⟨hfits, hp⟩
    exact ⟨by omega, hp⟩
  · rintro ⟨hi, hp⟩
    have hlength := congrArg List.length hp
    rw [List.length_take, List.length_drop] at hlength
    exact ⟨by omega, hp⟩

theorem mem_occurrences_drop (hi : i ≤ x.length) :
    k ∈ occurrences p (x.drop i) ↔ k + i ∈ occurrences p x := by
  rw [mem_occurrences_iff_isPrefix, mem_occurrences_iff_isPrefix, List.length_drop,
    List.drop_drop, Nat.add_comm i k]
  refine and_congr_left fun _ => ?_
  omega

/-- Read from the other end, an occurrence stands as far from there. -/
theorem mem_occurrences_reverse : i ∈ occurrences p.reverse x.reverse ↔
    i + p.length ≤ x.length ∧ x.length - p.length - i ∈ occurrences p x := by
  rw [mem_occurrences, mem_occurrences, List.length_reverse, List.length_reverse]
  refine and_congr_right fun hi => ?_
  have hfits : x.length - p.length - i + p.length ≤ x.length := by omega
  have hback : x.length - p.length - (x.length - p.length - i) = i := by omega
  have hmirror := Bytes.reverse_window x hfits
  rw [hback] at hmirror
  rw [← hmirror, List.reverse_inj]
  exact ⟨fun h => ⟨hfits, h⟩, fun h => h.2⟩

/-! ## The first occurrence -/

/-- The least index of a set, if it has any. -/
def Least (s : Set Nat) : Option Nat → Prop
  | none => s = ∅
  | some i => IsLeast s i

/-- The least index of a set, or -1 if it has none. -/
def FirstOf (s : Set Nat) (v : Int) : Prop := (s = ∅ ∧ v = -1) ∨ ∃ i : Nat, IsLeast s i ∧ v = i

/-- The greatest index of a set, or -1 if it has none. -/
def LastOf (s : Set Nat) (v : Int) : Prop := (s = ∅ ∧ v = -1) ∨ ∃ i : Nat, IsGreatest s i ∧ v = i

theorem Least.firstOf {s : Set Nat} {r : Option Nat} (h : Least s r) :
    FirstOf s (orMinusOne r) := by
  cases r with
  | none => exact .inl ⟨h, rfl⟩
  | some i => exact .inr ⟨i, h, rfl⟩

/-- The occurrences at `i` and after it. -/
def occurrencesFrom (p x : Bytes) (i : Nat) : Finset Nat := {k ∈ occurrences p x | i ≤ k}

theorem mem_occurrencesFrom :
    k ∈ occurrencesFrom p x i ↔ k ∈ occurrences p x ∧ i ≤ k := Finset.mem_filter

theorem occurrencesFrom_zero (p x : Bytes) : occurrencesFrom p x 0 = occurrences p x :=
  Finset.filter_true_of_mem fun k _ => Nat.zero_le k

/-- Where `p` does not stand at `i`, one may as well begin after it. -/
theorem occurrencesFrom_succ (h : i ∉ occurrences p x) :
    occurrencesFrom p x (i + 1) = occurrencesFrom p x i := by
  ext k
  rw [mem_occurrencesFrom, mem_occurrencesFrom]
  refine and_congr_right fun hk => ?_
  have hne : i ≠ k := fun hik => h (hik ▸ hk)
  omega

theorem least_self (h : i ∈ occurrences p x) : IsLeast (occurrencesFrom p x i : Set Nat) i :=
  ⟨mem_occurrencesFrom.mpr ⟨h, Nat.le_refl i⟩, fun _ hk => (mem_occurrencesFrom.mp hk).2⟩

theorem least_findFrom (p : Bytes) (hi : i ≤ x.length) :
    Least (occurrencesFrom p x i : Set Nat) (findFrom p i (x.drop i)) := by
  induction hy : x.drop i generalizing i with
  | nil =>
    have hlength : x.length ≤ i := List.drop_eq_nil_iff.mp hy
    rw [findFrom]
    by_cases hp : p = []
    · subst hp
      exact least_self (mem_occurrences_iff_isPrefix.mpr ⟨hi, List.nil_prefix⟩)
    · have hempty : occurrencesFrom p x i = ∅ := by
        refine Finset.eq_empty_of_forall_notMem fun k hk => ?_
        obtain ⟨hk, hik⟩ := mem_occurrencesFrom.mp hk
        have hfits := (mem_occurrences.mp hk).1
        have hpos := List.length_pos_iff.mpr hp
        omega
      simp [hp, Least, hempty]
  | cons b y ih =>
    have hlt : i < x.length := by
      refine Nat.lt_of_not_le fun hle => ?_
      cases hy.symm.trans (List.drop_eq_nil_of_le hle)
    rw [findFrom]
    by_cases hp : p <+: b :: y
    · rw [if_pos (List.isPrefixOf_iff_prefix.mpr hp)]
      exact least_self (mem_occurrences_iff_isPrefix.mpr ⟨hi, hy ▸ hp⟩)
    · have hout : i ∉ occurrences p x := fun h =>
        hp (hy ▸ (mem_occurrences_iff_isPrefix.mp h).2)
      have hrest : x.drop (i + 1) = y := by
        rw [← List.drop_drop, hy, List.drop_one, List.tail_cons]
      rw [if_neg (mt List.isPrefixOf_iff_prefix.mp hp), ← occurrencesFrom_succ hout]
      exact ih hlt hrest

/-- Where a search begins: a negative start counts from the end of the string, but not beyond
its beginning. -/
def startIndex (start : Int) (n : Nat) : Int := if start < 0 then max 0 (start + n) else start

theorem startIndex_natCast (i n : Nat) : startIndex i n = i := if_neg (by omega)

theorem coe_occurrencesFrom (p x : Bytes) (i : Nat) :
    {k : Nat | k ∈ occurrences p x ∧ (i : Int) ≤ k} = occurrencesFrom p x i := by
  ext k
  simp [mem_occurrencesFrom]

theorem first_indexOf (p : Bytes) (start : Int) (x : Bytes) :
    FirstOf {k : Nat | k ∈ occurrences p x ∧ startIndex start x.length ≤ k}
      (indexOf p start x) := by
  have hnonneg : 0 ≤ startIndex start x.length := by
    rw [startIndex]
    split <;> omega
  show FirstOf _ (if (x.length : Int) < startIndex start x.length then -1 else orMinusOne
    (findFrom p (startIndex start x.length).toNat (x.drop (startIndex start x.length).toNat)))
  obtain ⟨i, hi⟩ := Int.eq_ofNat_of_zero_le hnonneg
  rw [hi, Int.toNat_natCast]
  by_cases hlt : (x.length : Int) < i
  · rw [if_pos hlt]
    refine .inl ⟨Set.eq_empty_of_forall_notMem fun k hk => ?_, rfl⟩
    obtain ⟨hk, hik⟩ := hk
    have hfits := (mem_occurrences.mp hk).1
    omega
  · rw [if_neg hlt, coe_occurrencesFrom]
    exact (least_findFrom p (by omega)).firstOf

theorem first_indexOf_natCast (p : Bytes) (i : Nat) (x : Bytes) :
    FirstOf (occurrencesFrom p x i : Set Nat) (indexOf p i x) := by
  have hfirst := first_indexOf p i x
  rwa [startIndex_natCast, coe_occurrencesFrom] at hfirst

/-! ## The last occurrence -/

theorem mirrored_mem (hk : k ∈ occurrences p x) :
    x.length - p.length - k ∈ occurrences p.reverse x.reverse := by
  have hfits := (mem_occurrences.mp hk).1
  have hback : x.length - p.length - (x.length - p.length - k) = k := by omega
  refine mem_occurrences_reverse.mpr ⟨by omega, ?_⟩
  rwa [hback]

theorem last_lastIndexOf (p x : Bytes) : LastOf (occurrences p x : Set Nat) (lastIndexOf p x) := by
  have hleast := least_findFrom (x := x.reverse) p.reverse (Nat.zero_le _)
  rw [occurrencesFrom_zero, List.drop_zero] at hleast
  rw [lastIndexOf]
  cases hfound : findFrom p.reverse 0 x.reverse with
  | none =>
    rw [hfound] at hleast
    have hempty : occurrences p.reverse x.reverse = ∅ := Finset.coe_eq_empty.mp hleast
    refine .inl ⟨Set.eq_empty_of_forall_notMem fun k hk => ?_, rfl⟩
    exact absurd (mirrored_mem hk) (hempty ▸ Finset.notMem_empty _)
  | some i =>
    rw [hfound] at hleast
    refine .inr ⟨_, ⟨(mem_occurrences_reverse.mp hleast.1).2, fun k hk => ?_⟩, rfl⟩
    have hfits := (mem_occurrences.mp hk).1
    have hik : i ≤ x.length - p.length - k := hleast.2 (mirrored_mem hk)
    omega

/-! ## Yes or no -/

theorem contains_iff (p x : Bytes) :
    contains p x = true ↔ (occurrences p x).Nonempty := by
  rw [contains, decide_eq_true_eq]
  rcases first_indexOf p 0 x with ⟨hempty, hv⟩ | ⟨i, hi, hv⟩
  · rw [hv]
    refine ⟨fun h => absurd h (by decide), fun ⟨k, hk⟩ => ?_⟩
    exact absurd (Set.mem_ofPred.mpr ⟨hk, Int.natCast_nonneg k⟩) (hempty ▸ Set.notMem_empty k)
  · rw [hv]
    exact ⟨fun _ => ⟨i, hi.1.1⟩, fun _ => Int.natCast_nonneg i⟩

theorem startsWith_iff (p x : Bytes) : startsWith p x = true ↔ 0 ∈ occurrences p x := by
  rw [startsWith, List.isPrefixOf_iff_prefix, mem_occurrences_iff_isPrefix, List.drop_zero]
  exact (and_iff_right (Nat.zero_le _)).symm

theorem endsWith_iff (p x : Bytes) : endsWith p x = true ↔
    ∃ k ∈ occurrences p x, (k : Int) = (x.length : Int) - p.length := by
  rw [endsWith, List.isSuffixOf_iff_suffix]
  constructor
  · rintro ⟨y, rfl⟩
    refine ⟨y.length, mem_occurrences_iff_isPrefix.mpr ?_, ?_⟩
    · rw [List.drop_left]
      exact ⟨by simp, List.prefix_rfl⟩
    · simp
  · rintro ⟨k, hk, hend⟩
    obtain ⟨hfits, hp⟩ := mem_occurrences.mp hk
    rw [← hp, Bytes.window, List.take_of_length_le]
    · exact List.drop_suffix k x
    · rw [List.length_drop]
      omega

/-! ## Counting -/

/-- The occurrences from `i` on are the first of them and those after it. -/
theorem card_occurrencesFrom (h : IsLeast (occurrencesFrom p x i : Set Nat) k) :
    (occurrencesFrom p x i).card = (occurrencesFrom p x (k + 1)).card + 1 := by
  obtain ⟨hk, hik⟩ := mem_occurrencesFrom.mp h.1
  have hsplit : occurrencesFrom p x i = insert k (occurrencesFrom p x (k + 1)) := by
    ext j
    rw [Finset.mem_insert, mem_occurrencesFrom]
    constructor
    · rintro ⟨hj, hij⟩
      have hle : k ≤ j := h.2 (mem_occurrencesFrom.mpr ⟨hj, hij⟩)
      rcases Nat.eq_or_lt_of_le hle with rfl | hlt
      · exact .inl rfl
      · exact .inr (mem_occurrencesFrom.mpr ⟨hj, hlt⟩)
    · rintro (rfl | hj)
      · exact ⟨hk, hik⟩
      · obtain ⟨hj, hkj⟩ := mem_occurrencesFrom.mp hj
        exact ⟨hj, by omega⟩
  have hnew : k ∉ occurrencesFrom p x (k + 1) := fun h => by
    have hkk := (mem_occurrencesFrom.mp h).2
    omega
  rw [hsplit, Finset.card_insert_of_notMem hnew]

/-- What stands after a prefix stands in the rest. -/
theorem card_occurrences_drop (hi : i ≤ x.length) :
    (occurrences p (x.drop i)).card = (occurrencesFrom p x i).card := by
  have hshift : occurrencesFrom p x i = (occurrences p (x.drop i)).image (· + i) := by
    ext k
    rw [mem_occurrencesFrom, Finset.mem_image]
    constructor
    · rintro ⟨hk, hik⟩
      refine ⟨k - i, (mem_occurrences_drop hi).mpr ?_, Nat.sub_add_cancel hik⟩
      rwa [Nat.sub_add_cancel hik]
    · rintro ⟨j, hj, rfl⟩
      exact ⟨(mem_occurrences_drop hi).mp hj, Nat.le_add_left i j⟩
  rw [hshift, Finset.card_image_of_injective _ fun _ _ => Nat.add_right_cancel]

theorem countFrom_eq (hp : p ≠ []) (x : Bytes) : countFrom p x = (occurrences p x).card := by
  induction x using countFrom.induct p with
  | case1 =>
    have hempty : occurrences p [] = ∅ := by
      refine Finset.eq_empty_of_forall_notMem fun k hk => ?_
      have hfits := (mem_occurrences.mp hk).1
      have hpos := List.length_pos_iff.mpr hp
      rw [List.length_nil] at hfits
      omega
    rw [countFrom, hempty, Finset.card_empty]
  | case2 b x hfound =>
    have hleast := least_findFrom (x := b :: x) p (Nat.zero_le _)
    rw [List.drop_zero, hfound, occurrencesFrom_zero] at hleast
    have hempty : occurrences p (b :: x) = ∅ := Finset.coe_eq_empty.mp hleast
    rw [countFrom, hfound, hempty, Finset.card_empty]
  | case3 b x i hfound ih =>
    have hleast := least_findFrom (x := b :: x) p (Nat.zero_le _)
    rw [List.drop_zero, hfound] at hleast
    have hcard := card_occurrencesFrom hleast
    have hfits := (mem_occurrences.mp (mem_occurrencesFrom.mp hleast.1).1).1
    have hpos := List.length_pos_iff.mpr hp
    rw [occurrencesFrom_zero, ← card_occurrences_drop (by omega), List.drop_succ_cons] at hcard
    rw [countFrom, hfound, hcard]
    exact congrArg (· + 1) ih

/-- A count by searches: the last one has found `v`, and as long as that is an index one
searches again, from one past it; so many hits are left. -/
inductive Hits (p x : Bytes) : Int → Nat → Prop
  | ended {v : Int} (h : v < 0) : Hits p x v 0
  | hit {v : Int} {n : Nat} (h : 0 ≤ v) (more : Hits p x (indexOf p (v + 1) x) n) :
      Hits p x v (n + 1)

/-- The searches come to an end, with one hit for each occurrence. -/
theorem hits_indexOf (p x : Bytes) (i : Nat) :
    Hits p x (indexOf p i x) (occurrencesFrom p x i).card := by
  induction hn : (occurrencesFrom p x i).card generalizing i with
  | zero =>
    rcases first_indexOf_natCast p i x with ⟨-, hv⟩ | ⟨k, hk, -⟩
    · rw [hv]
      exact .ended (by decide)
    · exact absurd hk.1 (Finset.card_eq_zero.mp hn ▸ Finset.notMem_empty k)
  | succ n ih =>
    rcases first_indexOf_natCast p i x with ⟨hempty, -⟩ | ⟨k, hk, hv⟩
    · rw [Finset.coe_eq_empty.mp hempty, Finset.card_empty] at hn
      cases hn
    · have hrest := card_occurrencesFrom hk
      have hmore : Hits p x (indexOf p (k + 1 : Nat) x) n := ih (k + 1) (by omega)
      rw [hv]
      exact .hit (Int.natCast_nonneg k) hmore

/-- However often one counts, there are as many hits. -/
theorem Hits.unique {v : Int} {n m : Nat} (h : Hits p x v n) (h' : Hits p x v m) : n = m := by
  induction h generalizing m with
  | ended h =>
    cases h' with
    | ended _ => rfl
    | hit hnonneg _ => omega
  | hit h _ ih =>
    cases h' with
    | ended hneg => omega
    | hit _ more => exact congrArg (· + 1) (ih more)

theorem count_eq (p x : Bytes) : count p x = if p = [] then 0 else (occurrences p x).card := by
  rw [count]
  by_cases hp : p = []
  · rw [if_pos hp, if_pos (List.isEmpty_iff.mpr hp)]
  · rw [if_neg hp, if_neg (mt List.isEmpty_iff.mp hp), countFrom_eq hp]

theorem hits_iff (p x : Bytes) (n : Nat) :
    Hits p x (indexOf p 0 x) n ↔ n = (occurrences p x).card := by
  have hall := hits_indexOf p x 0
  rw [occurrencesFrom_zero] at hall
  exact ⟨fun h => h.unique hall, fun h => h ▸ hall⟩

end Search

/-! ## Questions -/

/-- What the questions about a pattern tell of a sequence `s` with the content `x`. -/
structure Store.SearchesLocated (σ : Store) (s : SequenceId) (x : Bytes) : Prop where
  byte : ∀ v : Int, ∃ b : UInt8, σ.pattern (.byte v) = .ok [b] ∧ (b.toNat : Int) = v % 256
  indexOf : ∀ (t : Target) (p : Bytes) (start : Int), σ.pattern t = .ok p →
    ∃ v, σ.query s (.indexOf t start) = .ok (.int v) ∧ Search.FirstOf
      {k : Nat | k ∈ Search.occurrences p x ∧ Search.startIndex start x.length ≤ k} v
  lastIndexOf : ∀ (t : Target) (p : Bytes), σ.pattern t = .ok p →
    ∃ v, σ.query s (.lastIndexOf t) = .ok (.int v) ∧
      Search.LastOf (Search.occurrences p x : Set Nat) v
  contains : ∀ (t : Target) (p : Bytes), σ.pattern t = .ok p →
    ∃ b, σ.query s (.contains t) = .ok (.bool b) ∧
      (b = true ↔ (Search.occurrences p x).Nonempty)
  startsWith : ∀ (d : Operand) (p : Bytes), σ.read d = .ok p →
    ∃ b, σ.query s (.startsWith (.pattern d)) = .ok (.bool b) ∧
      (b = true ↔ 0 ∈ Search.occurrences p x)
  endsWith : ∀ (d : Operand) (p : Bytes), σ.read d = .ok p →
    ∃ b, σ.query s (.endsWith (.pattern d)) = .ok (.bool b) ∧
      (b = true ↔ ∃ k ∈ Search.occurrences p x, (k : Int) = (x.length : Int) - p.length)
  /-- At either end a byte string is asked for. An integer is none, whatever its value. -/
  affix_byte : ∀ v : Int, σ.query s (.startsWith (.byte v)) = .error .notBytes ∧
    σ.query s (.endsWith (.byte v)) = .error .notBytes
  /-- Overlapping occurrences count each, and no others; the empty pattern is not counted. -/
  count : ∀ (t : Target) (p : Bytes), σ.pattern t = .ok p → σ.query s (.count t) =
    .ok (.int (if p = [] then 0 else (Search.occurrences p x).card : Nat))
  /-- To count by searches, each from one past the last hit, comes to an end with this number. -/
  counted : ∀ (p : Bytes) (n : Nat),
    Search.Hits p x (Search.indexOf p 0 x) n ↔ n = (Search.occurrences p x).card

theorem Store.searches_located {σ : Store} {s : SequenceId} {q : Sequence} {x : Bytes}
    (h : σ.Holds s q x) : σ.SearchesLocated s x where
  byte := fun v => ⟨_, rfl, Bytes.toNat_ofInt v⟩
  indexOf := by
    intro t p start ht
    refine ⟨_, ?_, Search.first_indexOf p start x⟩
    rw [h.query, Query.answer, ht]
    rfl
  lastIndexOf := by
    intro t p ht
    refine ⟨_, ?_, Search.last_lastIndexOf p x⟩
    rw [h.query, Query.answer, ht]
    rfl
  contains := by
    intro t p ht
    refine ⟨_, ?_, Search.contains_iff p x⟩
    rw [h.query, Query.answer, ht]
    rfl
  startsWith := by
    intro d p hd
    refine ⟨_, ?_, Search.startsWith_iff p x⟩
    rw [h.query, Query.answer, Store.affix, hd]
    rfl
  endsWith := by
    intro d p hd
    refine ⟨_, ?_, Search.endsWith_iff p x⟩
    rw [h.query, Query.answer, Store.affix, hd]
    rfl
  affix_byte := fun _ => ⟨h.query _, h.query _⟩
  count := by
    intro t p ht
    rw [h.query, Query.answer, ht, ← Search.count_eq]
    rfl
  counted := fun p => Search.hits_iff p x

/-- A string that holds a pattern twice, the one occurrence overlapping the other. -/
theorem Store.searches_located_overlapping :
    let σ : Store := ⟨[[1, 1, 1]], [⟨.readOnly, .little, 0, none⟩], []⟩
    σ.Holds 0 ⟨.readOnly, .little, 0, none⟩ [1, 1, 1] ∧ σ.SearchesLocated 0 [1, 1, 1] :=
  have h := ⟨rfl, rfl⟩
  ⟨h, Store.searches_located h⟩

/-- A byte that stands at the beginning of the content, and again at its end, is found there by
the other questions, but it is no prefix or suffix that one can ask for by its value. -/
theorem Store.affix_byte_refused :
    let σ : Store := ⟨[[65, 66, 65]], [⟨.mutable, .big, 0, none⟩], []⟩
    σ.pattern (.byte 65) = .ok [65] ∧ Search.occurrences [65] [65, 66, 65] = {0, 2} ∧
      σ.query 0 (.contains (.byte 65)) = .ok (.bool true) ∧
      σ.query 0 (.startsWith (.byte 65)) = .error .notBytes ∧
      σ.query 0 (.endsWith (.byte 65)) = .error .notBytes ∧ Fault.notBytes.kind = .badType := by
  refine ⟨rfl, ?_, rfl, rfl, rfl, rfl⟩
  decide

example : Search.count [1, 1] [1, 1, 1] = 2 ∧ Search.indexOf [1, 1] (-2) [1, 1, 1] = 1 := by
  decide +kernel

end Octets
