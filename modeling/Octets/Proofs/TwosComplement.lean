import Octets.Proofs.IntegerViews
import Octets.Proofs.Shift
import Octets.Proofs.Store.Construction
/-!
# Two's complement forms

In `width` bytes an integer is written as its residue modulo `2 ^ (8 * width)`, and read back
with a sign it is the residue that is nearest to zero (`signedValue_residue`). So a string is
known by its length and its integer (`eq_of_signedValue`).

* `fitsSigned_iff`: an integer fits as many bytes as hold the bits of its magnitude and a sign,
  and no fewer;
* `signedValue_extended`: sign bytes in front change nothing;
* `shortestForm_minimalBytes`: the forms of an integer are the shortest one and those with sign
  bytes in front of it;
* `minimalBytes_signedValue`: from any of its forms, the shortest one is found by taking sign
  bytes away.

For the integers of a store: `bigIntegers_shortest`.
-/

namespace Octets

/-! ## Residues -/

/-- An integer modulo `2 ^ (8 * width)`, in `width` bytes. -/
def residue (width : Nat) (v : Int) (o : ByteOrder) : Bytes :=
  o.logical (Bytes.ofNat width (v % 2 ^ (8 * width)).toNat)

@[simp] theorem length_residue (width : Nat) (v : Int) (o : ByteOrder) :
    (residue width v o).length = width := by
  simp [residue]

theorem unsignedValue_residue (width : Nat) (v : Int) (o : ByteOrder) :
    (unsignedValue o (residue width v o) : Int) = v % 2 ^ (8 * width) := by
  have hpos : (0 : Int) < 2 ^ (8 * width) := Int.pow_pos (by decide)
  have hnonneg : 0 ≤ v % 2 ^ (8 * width) := Int.emod_nonneg v (Int.ne_of_gt hpos)
  have hlt : (v % 2 ^ (8 * width)).toNat < 2 ^ (8 * width) := by
    rw [Int.toNat_lt hnonneg]
    push_cast
    exact Int.emod_lt_of_pos v hpos
  rw [residue, Bits.unsignedValue_logical, Bytes.value_ofNat, Bytes.two_pow_eq,
    Nat.mod_eq_of_lt hlt, Int.toNat_of_nonneg hnonneg]

/-- Read with a sign, a residue is the one that is nearest to zero. -/
theorem signedValue_residue (width : Nat) (v : Int) (o : ByteOrder) :
    signedValue o (residue width v o) = Int.bmod v (2 ^ (8 * width)) := by
  rw [signedValue_eq_bmod, unsignedValue_residue, length_residue]
  exact_mod_cast Int.emod_bmod v (2 ^ (8 * width))

/-- A string is known by its length and its integer. -/
theorem eq_of_signedValue {o : ByteOrder} {x y : Bytes} (hlength : y.length = x.length)
    (h : signedValue o y = signedValue o x) : y = x := by
  refine Bits.eq_of_unsignedValue (o := o) hlength ?_
  have hx := signedValue_emod o x
  rw [← hlength, ← h, signedValue_emod] at hx
  exact_mod_cast hx

/-! ## Integers that fit -/

/-- Whether an integer has a two's complement form in `width` bytes. -/
def FitsSigned (width : Nat) (v : Int) : Prop :=
  -2 ^ (8 * width) ≤ 2 * v ∧ 2 * v < 2 ^ (8 * width)

theorem fitsSigned_signedValue (o : ByteOrder) (x : Bytes) :
    FitsSigned x.length (signedValue o x) := by
  obtain ⟨hlow, hhigh⟩ := signedValue_bounds o x
  push_cast at hlow hhigh
  exact ⟨by omega, by omega⟩

theorem FitsSigned.signedValue_residue {width : Nat} {v : Int} (h : FitsSigned width v)
    (o : ByteOrder) : signedValue o (residue width v o) = v := by
  obtain ⟨hlow, hhigh⟩ := h
  rw [Octets.signedValue_residue, Int.bmod_eq_of_le_mul_two]
  · push_cast
    omega
  · push_cast
    omega

/-- A string is the residue of its own integer. -/
theorem residue_signedValue (o : ByteOrder) (x : Bytes) :
    residue x.length (signedValue o x) o = x :=
  eq_of_signedValue (length_residue ..) ((fitsSigned_signedValue o x).signedValue_residue o)

theorem FitsSigned.signedForm? {width : Nat} {v : Int} (h : FitsSigned width v)
    (o : ByteOrder) : signedForm? v width o = some (residue width v o) := if_pos h

theorem magnitudeBits_le_iff {v : Int} {k : Nat} :
    magnitudeBits v ≤ k ↔ -2 ^ k ≤ v ∧ v < 2 ^ k := by
  have hpos : (0 : Int) < 2 ^ k := Int.pow_pos (by decide)
  have hsize (n : Nat) : (if n = 0 then 0 else n.log2 + 1) ≤ k ↔ (n : Int) < 2 ^ k := by
    by_cases hn : n = 0
    · simp [hn, hpos]
    · rw [if_neg hn, Nat.succ_le_iff, Nat.log2_lt hn]
      exact_mod_cast Iff.rfl
  unfold magnitudeBits
  rw [hsize]
  by_cases hv : 0 ≤ v
  · rw [if_pos hv, Int.toNat_of_nonneg hv]
    omega
  · rw [if_neg hv, Int.toNat_of_nonneg (by omega)]
    omega

/-- An integer fits as many bytes as hold the bits of its magnitude and a sign. -/
theorem fitsSigned_iff {v : Int} {width : Nat} (h : 0 < width) :
    FitsSigned width v ↔ magnitudeBits v / 8 + 1 ≤ width := by
  obtain ⟨k, hk⟩ : ∃ k, 8 * width = k + 1 := ⟨8 * width - 1, by omega⟩
  have hbits : magnitudeBits v / 8 + 1 ≤ width ↔ magnitudeBits v ≤ k := by omega
  rw [hbits, magnitudeBits_le_iff, FitsSigned, hk, Int.pow_succ]
  omega

theorem fitsSigned_minimal (v : Int) : FitsSigned (magnitudeBits v / 8 + 1) v :=
  (fitsSigned_iff (Nat.succ_pos _)).mpr (Nat.le_refl _)

@[simp] theorem length_minimalBytes (v : Int) (o : ByteOrder) :
    (minimalBytes v o).length = magnitudeBits v / 8 + 1 :=
  length_residue ..

theorem signedValue_minimalBytes (v : Int) (o : ByteOrder) :
    signedValue o (minimalBytes v o) = v :=
  (fitsSigned_minimal v).signedValue_residue o

/-! ## Sign bytes -/

/-- The byte that repeats the sign of an integer. -/
def signByte (v : Int) : UInt8 := if v < 0 then 255 else 0

/-- The byte that repeats the sign of the number that a byte begins. -/
def signFill (b : UInt8) : UInt8 := if b < 128 then 0 else 255

/-- A string, most significant byte first, without the sign bytes that another byte after them
makes redundant. -/
def withoutSign : Bytes → Bytes
  | [] => []
  | [b] => [b]
  | b :: c :: x => if b = signFill c then withoutSign (c :: x) else b :: c :: x

theorem signedValue_logical (o : ByteOrder) (x : Bytes) :
    signedValue .big (o.logical x) = signedValue o x := rfl

theorem signedValue_cons (b : UInt8) (x : Bytes) : signedValue .big (b :: x) =
    if b < 128 then (Bytes.value (b :: x) : Int)
    else Bytes.value (b :: x) - 256 ^ (x.length + 1) := rfl

theorem signedValue_neg_iff (b : UInt8) (x : Bytes) :
    signedValue .big (b :: x) < 0 ↔ ¬ b < 128 := by
  have hlt : (Bytes.value (b :: x) : Int) < 256 ^ (x.length + 1) := by
    exact_mod_cast Bytes.value_lt (b :: x)
  rw [signedValue_cons]
  by_cases hb : b < 128
  · simp [hb]
  · simp [hb]
    omega

theorem signByte_signedValue (b : UInt8) (x : Bytes) :
    signByte (signedValue .big (b :: x)) = signFill b := by
  unfold signByte signFill
  by_cases hb : b < 128
  · rw [if_pos hb, if_neg (by simp [signedValue_neg_iff, hb])]
  · rw [if_neg hb, if_pos ((signedValue_neg_iff b x).mpr hb)]

theorem signedValue_signFill (b : UInt8) (x : Bytes) :
    signedValue .big (signFill b :: b :: x) = signedValue .big (b :: x) := by
  unfold signFill
  by_cases hb : b < 128
  · rw [if_pos hb, signedValue_cons, signedValue_cons, if_pos hb, if_pos (by decide),
      Bytes.value_cons]
    simp
  · rw [if_neg hb, signedValue_cons, signedValue_cons, if_neg hb, if_neg (by decide),
      Bytes.value_cons]
    push_cast [List.length_cons]
    ring

/-- Sign bytes in front change nothing. -/
theorem signedValue_extended {x : Bytes} (hx : x ≠ []) (n : Nat) :
    signedValue .big (List.replicate n (signByte (signedValue .big x)) ++ x) =
      signedValue .big x := by
  induction n with
  | zero => rfl
  | succ n ih =>
    have hrest : List.replicate n (signByte (signedValue .big x)) ++ x ≠ [] := by simp [hx]
    obtain ⟨b, y, hy⟩ := List.exists_cons_of_ne_nil hrest
    rw [hy] at ih
    rw [List.replicate_succ, List.cons_append, hy, ← ih, signByte_signedValue,
      signedValue_signFill]

theorem withoutSign_ne_nil {x : Bytes} (hx : x ≠ []) : withoutSign x ≠ [] := by
  fun_induction withoutSign x with
  | case1 => exact hx
  | case2 b => exact hx
  | case3 c x ih => exact ih (by simp)
  | case4 b c x hb => simp

theorem signedValue_withoutSign (x : Bytes) :
    signedValue .big (withoutSign x) = signedValue .big x := by
  fun_induction withoutSign x with
  | case1 => rfl
  | case2 b => rfl
  | case3 c x ih => rw [ih, signedValue_signFill]
  | case4 b c x hb => rfl

/-- No sign byte is left that could be taken away. -/
theorem withoutSign_bare {b c : UInt8} {x y : Bytes} (h : withoutSign x = b :: c :: y) :
    b ≠ signFill c := by
  fun_induction withoutSign x with
  | case1 => cases h
  | case2 b => cases h
  | case3 c x ih => exact ih h
  | case4 b c x hb =>
    cases h
    exact hb

/-! ## The shortest form -/

/-- How the shortest form `x` of an integer in an order goes with all its forms. -/
structure ShortestForm (o : ByteOrder) (v : Int) (x : Bytes) : Prop where
  nonempty : 1 ≤ x.length
  form : signedValue o x = v
  /-- The integer is not too large for as many bytes. -/
  fits : signedForm? v x.length o = some x
  shortest : ∀ y : Bytes, y ≠ [] → signedValue o y = v → x.length ≤ y.length
  unique : ∀ y : Bytes, y.length = x.length → signedValue o y = v → y = x
  /-- The other forms have sign bytes at their most significant end. -/
  extended : ∀ y : Bytes, y ≠ [] → (signedValue o y = v ↔
    ∃ n, o.logical y = List.replicate n (signByte v) ++ o.logical x)

variable {o : ByteOrder} {v : Int}

theorem length_minimalBytes_le {y : Bytes} (hy : y ≠ []) (h : signedValue o y = v) :
    (minimalBytes v o).length ≤ y.length := by
  have hfits := fitsSigned_signedValue o y
  rwa [h, fitsSigned_iff (List.length_pos_iff.mpr hy), ← length_minimalBytes v o] at hfits

theorem logical_ne_nil {x : Bytes} (hx : x ≠ []) : o.logical x ≠ [] := by
  rw [← List.length_pos_iff] at hx ⊢
  rwa [ByteOrder.length_logical]

theorem minimalBytes_ne_nil (v : Int) (o : ByteOrder) : minimalBytes v o ≠ [] := by
  simp [← List.length_pos_iff]

theorem signedValue_replicate_minimalBytes (v : Int) (o : ByteOrder) (n : Nat) :
    signedValue .big (List.replicate n (signByte v) ++ o.logical (minimalBytes v o)) = v := by
  have h := signedValue_extended (logical_ne_nil (o := o) (minimalBytes_ne_nil v o)) n
  rwa [signedValue_logical, signedValue_minimalBytes] at h

/-- Filled up with sign bytes to its length, the shortest form is any other one. -/
theorem logical_eq_of_signedValue {y : Bytes} (hy : y ≠ []) (h : signedValue o y = v) :
    o.logical y = List.replicate (y.length - (minimalBytes v o).length) (signByte v) ++
      o.logical (minimalBytes v o) := by
  have hle := length_minimalBytes_le hy h
  refine eq_of_signedValue (o := .big) ?_ ?_
  · rw [List.length_append, List.length_replicate, ByteOrder.length_logical,
      ByteOrder.length_logical, Nat.sub_add_cancel hle]
  · rw [signedValue_replicate_minimalBytes, signedValue_logical, h]

theorem shortestForm_minimalBytes (v : Int) (o : ByteOrder) :
    ShortestForm o v (minimalBytes v o) where
  nonempty := List.length_pos_iff.mpr (minimalBytes_ne_nil v o)
  form := signedValue_minimalBytes v o
  fits := by
    rw [length_minimalBytes]
    exact (fitsSigned_minimal v).signedForm? o
  shortest y hy h := length_minimalBytes_le hy h
  unique y hlength h := eq_of_signedValue hlength (h.trans (signedValue_minimalBytes v o).symm)
  extended y hy := by
    constructor
    · intro h
      exact ⟨_, logical_eq_of_signedValue hy h⟩
    · rintro ⟨n, h⟩
      rw [← signedValue_logical, h, signedValue_replicate_minimalBytes]

example : minimalBytes (-129) .little = [127, 255] := by decide

/-- From a form, the shortest one is found by taking sign bytes away. -/
theorem minimalBytes_signedValue {y : Bytes} (hy : y ≠ []) (o : ByteOrder) :
    minimalBytes (signedValue o y) o = o.logical (withoutSign (o.logical y)) := by
  have hbare := withoutSign_ne_nil (logical_ne_nil (o := o) hy)
  have hvalue := signedValue_withoutSign (o.logical y)
  rw [signedValue_logical] at hvalue
  generalize hz : withoutSign (o.logical y) = z at hbare hvalue ⊢
  generalize signedValue o y = v at hvalue ⊢
  have hform := logical_eq_of_signedValue (o := o) (y := o.logical z) (v := v)
    (logical_ne_nil hbare) (by rw [← signedValue_logical, ByteOrder.logical_logical, hvalue])
  rw [ByteOrder.logical_logical, ByteOrder.length_logical] at hform
  cases hn : z.length - (minimalBytes v o).length with
  | zero =>
    rw [hn] at hform
    rw [hform]
    exact (ByteOrder.logical_logical o _).symm
  | succ n =>
    -- One more sign byte than the shortest form has would be redundant.
    have hrest := signedValue_replicate_minimalBytes v o n
    obtain ⟨c, x, hx⟩ := List.exists_cons_of_ne_nil (l := List.replicate n (signByte v) ++
      o.logical (minimalBytes v o)) (by simp [logical_ne_nil, minimalBytes_ne_nil])
    rw [hn, List.replicate_succ, List.cons_append, hx] at hform
    rw [hx] at hrest
    have hsign := signByte_signedValue c x
    rw [hrest] at hsign
    exact absurd hsign (withoutSign_bare (hz.trans hform))

/-! ## Integers of any size in a store -/

/-- How integers of any size are written into new sequences of a variant, in an order that an
argument names. -/
structure Store.BigIntegersShortest (σ : Store) (variant : Variant) (order : Option String)
    (o : ByteOrder) : Prop where
  /-- Every integer makes a sequence, which is read as that integer: the bytes that hold its bits
  and a sign are enough. -/
  made : ∀ v : Int, ∃ x t σ',
    (Call.construct variant (.ofBigInteger v order)).run σ = (.ok (.sequence t), σ') ∧
    σ'.Holds t ⟨variant, o, σ.buffers.length, none⟩ x ∧
    σ'.query t .bigInteger = .ok (.int v) ∧
    signedForm? v (magnitudeBits v / 8 + 1) o = some x ∧ ShortestForm o v x
  /-- What is read as an integer and written again has lost its redundant sign bytes. -/
  rewritten : ∀ {s : SequenceId} {q : Sequence} {y : Bytes}, σ.Holds s q y → q.order = o →
    y ≠ [] → ∃ v t σ', σ.query s .bigInteger = .ok (.int v) ∧
      (Call.construct variant (.ofBigInteger v order)).run σ = (.ok (.sequence t), σ') ∧
      σ'.Holds t ⟨variant, o, σ.buffers.length, none⟩ (o.logical (withoutSign (o.logical y)))

theorem plan_ofBigInteger {order : Option String} (ho : ByteOrder.named order = .ok o)
    (σ : Store) (variant : Variant) (v : Int) :
    (Construction.ofBigInteger v order).plan variant σ = .ok (.own (minimalBytes v o), o) := by
  rw [Construction.plan, Construction.ownBy_eq ho]
  rfl

theorem bigIntegers_shortest {order : Option String} (ho : ByteOrder.named order = .ok o)
    (σ : Store) (variant : Variant) : σ.BigIntegersShortest variant order o where
  made v := by
    have hholds := Store.holds_created σ variant o (minimalBytes v o)
    refine ⟨_, _, _, Call.run_construct (plan_ofBigInteger ho σ variant v), hholds, ?_,
      (fitsSigned_minimal v).signedForm? o, shortestForm_minimalBytes v o⟩
    rw [hholds.query]
    exact congrArg (fun v => Except.ok (Value.int v)) (signedValue_minimalBytes v o)
  rewritten := by
    intro s q y hs hq hy
    have hrun := Call.run_construct (plan_ofBigInteger ho σ variant (signedValue o y))
    refine ⟨signedValue o y, _, _, ?_, hrun, ?_⟩
    · rw [hs.query, ← hq]
      rfl
    · rw [← minimalBytes_signedValue hy o]
      exact Store.holds_created ..

/-- A store with a form of -129 that has a sign byte too many, and an order that is named in
capital letters. -/
theorem bigIntegers_shortest_little :
    let σ : Store := ⟨[[127, 255, 255]], [⟨.immutable, .little, 0, none⟩], []⟩
    ByteOrder.named (some "LITTLE") = .ok .little ∧
      σ.BigIntegersShortest .mutable (some "LITTLE") .little :=
  have h : ByteOrder.named (some "LITTLE") = .ok .little := by decide +kernel
  ⟨h, bigIntegers_shortest h _ .mutable⟩

end Octets
