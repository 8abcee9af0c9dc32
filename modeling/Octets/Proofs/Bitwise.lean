import Mathlib.Order.BooleanAlgebra.Basic
import Mathlib.Order.SymmDiff
import Octets.Proofs.Setup
import Octets.Proofs.Shift
import Octets.Proofs.Store.Closure
/-!
# Bitwise operations act on every byte for itself

Two strings of one length are combined as the numbers that they write in 256-adic digits. The
bits of two such numbers meet digit by digit, so that the number of the bytes combined one by
one is the combined number (`Bits.value_zipWith`) and the combined string is that of the
combined bytes, leading zeros included (`Bits.combine_eq`).

The bits of a string determine it. The strings of one length, with these operations, are
therefore a Boolean algebra, that of the functions from bits to truth values, where exclusive
or is the symmetric difference (`Bits.Block`); its laws are those of the operations
(`Bits.Block.laws`).

A request computes its result before anything is written. What it combines is the content that
the operand had, be it in the array of the receiver itself: `Bits.bytewise`.
-/

namespace Octets

namespace Bits

variable {op : Operation} {x y : Bytes}

/-! ## Bytes and bits -/

/-- An operation on two bytes. -/
def Operation.onByte : Operation → UInt8 → UInt8 → UInt8
  | .and, a, b => a &&& b
  | .or, a, b => a ||| b
  | .xor, a, b => a ^^^ b

/-- An operation on two bits. -/
def Operation.onBit : Operation → Bool → Bool → Bool
  | .and, a, b => a && b
  | .or, a, b => a || b
  | .xor, a, b => a ^^ b

theorem Operation.toNat_onByte (op : Operation) (a b : UInt8) :
    (op.onByte a b).toNat = op.onNat a.toNat b.toNat := by
  cases op with
  | and => exact UInt8.toNat_and a b
  | or => exact UInt8.toNat_or a b
  | xor => exact UInt8.toNat_xor a b

theorem Operation.testBit_onNat (op : Operation) (m n i : Nat) :
    (op.onNat m n).testBit i = op.onBit (m.testBit i) (n.testBit i) := by
  cases op with
  | and => exact Nat.testBit_and m n i
  | or => exact Nat.testBit_or m n i
  | xor => exact Nat.testBit_xor m n i

/-- The high parts of two numbers do not meet the low ones. -/
theorem Operation.onNat_add (op : Operation) {w m n : Nat} (hm : m < 256 ^ w)
    (hn : n < 256 ^ w) (a b : Nat) :
    op.onNat (a * 256 ^ w + m) (b * 256 ^ w + n) = op.onNat a b * 256 ^ w + op.onNat m n := by
  have hlow := op.onNat_lt hm hn
  rw [Bytes.two_pow_eq] at *
  simp only [Nat.mul_comm _ (2 ^ (8 * w))]
  apply Nat.eq_of_testBit_eq
  intro i
  rw [testBit_onNat, Nat.testBit_two_pow_mul_add a hm, Nat.testBit_two_pow_mul_add b hn,
    Nat.testBit_two_pow_mul_add _ hlow]
  by_cases hi : i < 8 * w
  · simp [hi, testBit_onNat]
  · simp [hi, testBit_onNat]

/-- The number of the bytes combined one by one is the combined number. -/
theorem value_zipWith (op : Operation) (h : x.length = y.length) :
    Bytes.value (List.zipWith op.onByte x y) = op.onNat x.value y.value := by
  induction x generalizing y with
  | nil =>
    cases y with
    | nil => cases op <;> rfl
    | cons b y => cases h
  | cons a x ih =>
    cases y with
    | nil => cases h
    | cons b y =>
      have hxy : x.length = y.length := Nat.succ.inj h
      have hy := Bytes.value_lt y
      rw [← hxy] at hy
      rw [List.zipWith_cons_cons, Bytes.value_cons, Bytes.value_cons, Bytes.value_cons, ih hxy,
        List.length_zipWith, ← hxy, Nat.min_self, op.toNat_onByte,
        op.onNat_add (Bytes.value_lt x) hy]

/-- Strings of one length are combined byte by byte. -/
theorem combine_eq (op : Operation) (h : x.length = y.length) :
    combine op x y = .ok (List.zipWith op.onByte x y) := by
  have hz := Bytes.ofNat_value (List.zipWith op.onByte x y)
  rw [value_zipWith op h, List.length_zipWith, ← h, Nat.min_self] at hz
  rw [combine, if_pos h, hz]

/-- Zero bytes in front of the combined number are bytes of the result. -/
example : combine .xor [7, 255, 1] [7, 254, 1] = .ok [0, 1, 0] := by decide

theorem value_negate (x : Bytes) :
    (negate x).value = 2 ^ (8 * x.length) - (x.value + 1) := by
  rw [← Bytes.two_pow_eq]
  induction x with
  | nil => rfl
  | cons b x ih =>
    have hx := Bytes.value_lt x
    have hb : (~~~b).toNat = 255 - b.toNat := UInt8.toNat_not b
    have hsum : b.toNat * 256 ^ x.length + (255 - b.toNat) * 256 ^ x.length =
        255 * 256 ^ x.length := by
      have hlt : b.toNat < 256 := b.toNat_lt
      rw [← Nat.add_mul, Nat.add_sub_cancel' (by omega)]
    have hcons : negate (b :: x) = ~~~b :: negate x := rfl
    rw [hcons, Bytes.value_cons, Bytes.value_cons, ih, hb, length_negate, List.length_cons,
      Nat.pow_succ]
    omega

theorem testBit_negate (x : Bytes) {i : Nat} (hi : i < 8 * x.length) :
    (negate x).value.testBit i = !x.value.testBit i := by
  have hlt : x.value < 2 ^ (8 * x.length) := unsignedValue_lt .big x
  rw [value_negate, Nat.testBit_two_pow_sub_succ hlt]
  simp [hi]

/-! ## The algebra of strings of one length -/

/-- The byte strings of `n` bytes. -/
structure Block (n : Nat) where
  bytes : Bytes
  length_eq : bytes.length = n

namespace Block

variable {n : Nat}

def byte (x : Block n) (i : Fin n) : UInt8 :=
  x.bytes.get ⟨i, Nat.lt_of_lt_of_eq i.isLt x.length_eq.symm⟩

/-- The bits of a block, by which its algebra is that of all functions to truth values. -/
def bit (x : Block n) (i : Fin (8 * n)) : Bool := x.bytes.value.testBit i

theorem bit_injective : Function.Injective (bit (n := n)) := by
  intro x y h
  have hlength : x.bytes.length = y.bytes.length := x.length_eq.trans y.length_eq.symm
  have hbytes : x.bytes = y.bytes := by
    refine eq_of_testBit (o := .big) hlength fun i => ?_
    by_cases hi : i < 8 * n
    · exact congrFun h ⟨i, hi⟩
    · have hx : 8 * x.bytes.length ≤ i := by
        rw [x.length_eq]
        exact Nat.le_of_not_lt hi
      rw [testBit_unsignedValue_of_le hx, testBit_unsignedValue_of_le (hlength ▸ hx)]
  cases x
  cases y
  cases hbytes
  rfl

/-- Two blocks combined byte by byte. -/
def combined (op : Operation) (x y : Block n) : Block n where
  bytes := List.zipWith op.onByte x.bytes y.bytes
  length_eq := by simp [x.length_eq, y.length_eq]

theorem byte_combined (op : Operation) (x y : Block n) (i : Fin n) :
    (combined op x y).byte i = op.onByte (x.byte i) (y.byte i) := by
  simp [byte, combined]

theorem bit_combined (op : Operation) (x y : Block n) (i : Fin (8 * n)) :
    (combined op x y).bit i = op.onBit (x.bit i) (y.bit i) := by
  rw [bit, combined, value_zipWith op (x.length_eq.trans y.length_eq.symm), op.testBit_onNat]
  rfl

-- The operations of the algebra are those on bytes; blocks are ordered by their bits.
instance : Min (Block n) := ⟨combined .and⟩
instance : Max (Block n) := ⟨combined .or⟩
instance : Compl (Block n) := ⟨fun x => ⟨negate x.bytes, (length_negate _).trans x.length_eq⟩⟩
instance : Bot (Block n) := ⟨⟨Bytes.zeros n, Bytes.length_zeros n⟩⟩
instance : Top (Block n) := ⟨⊥ᶜ⟩
instance : SDiff (Block n) := ⟨fun x y => x ⊓ yᶜ⟩
instance : HImp (Block n) := ⟨fun x y => y ⊔ xᶜ⟩
instance : LE (Block n) := ⟨fun x y => x.bit ≤ y.bit⟩
instance : LT (Block n) := ⟨fun x y => x.bit < y.bit⟩

theorem toNat_byte_compl (x : Block n) (i : Fin n) :
    (xᶜ.byte i).toNat = 255 - (x.byte i).toNat := by
  have hbyte : xᶜ.byte i = ~~~x.byte i := by simp [byte, Compl.compl, negate]
  rw [hbyte]
  exact UInt8.toNat_not _

theorem bit_inf (x y : Block n) : (x ⊓ y).bit = x.bit ⊓ y.bit := funext (bit_combined .and x y)

theorem bit_sup (x y : Block n) : (x ⊔ y).bit = x.bit ⊔ y.bit := funext (bit_combined .or x y)

theorem bit_compl (x : Block n) : xᶜ.bit = x.bitᶜ := by
  funext i
  apply testBit_negate
  rw [x.length_eq]
  exact i.isLt

theorem bit_bot : (⊥ : Block n).bit = ⊥ := by
  funext i
  show (Bytes.zeros n).value.testBit i = false
  rw [Bytes.value_zeros, Nat.zero_testBit]

theorem bit_top : (⊤ : Block n).bit = ⊤ := by
  show (⊥ᶜ : Block n).bit = ⊤
  rw [bit_compl, bit_bot, compl_bot]

instance : BooleanAlgebra (Block n) :=
  bit_injective.booleanAlgebra bit Iff.rfl Iff.rfl bit_sup bit_inf bit_top bit_bot bit_compl
    (fun x y => by
      show (x ⊓ yᶜ).bit = _
      rw [bit_inf, bit_compl, sdiff_eq])
    (fun x y => by
      show (y ⊔ xᶜ).bit = _
      rw [bit_sup, bit_compl, himp_eq])

theorem combined_xor (x y : Block n) : combined .xor x y = symmDiff x y := by
  apply bit_injective
  rw [symmDiff_eq, bit_sup, bit_inf, bit_inf, bit_compl, bit_compl]
  funext i
  rw [bit_combined]
  show (x.bit i ^^ y.bit i) = (x.bit i && !y.bit i || y.bit i && !x.bit i)
  cases x.bit i <;> cases y.bit i <;> rfl

theorem combine_bytes (op : Operation) (x y : Block n) :
    combine op x.bytes y.bytes = .ok (combined op x y).bytes :=
  combine_eq op (x.length_eq.trans y.length_eq.symm)

theorem and_eq (x y : Block n) : combine .and x.bytes y.bytes = .ok (x ⊓ y).bytes :=
  combine_bytes .and x y

theorem or_eq (x y : Block n) : combine .or x.bytes y.bytes = .ok (x ⊔ y).bytes :=
  combine_bytes .or x y

theorem xor_eq (x y : Block n) : combine .xor x.bytes y.bytes = .ok (symmDiff x y).bytes := by
  rw [combine_bytes, combined_xor]

theorem negate_eq (x : Block n) : negate x.bytes = xᶜ.bytes := rfl

/-- The laws of the operations, each operation being performed on the bytes. -/
structure Laws (x y z : Block n) : Prop where
  negate_and : (combine .and x.bytes y.bytes).map negate =
    combine .or (negate x.bytes) (negate y.bytes)
  negate_or : (combine .or x.bytes y.bytes).map negate =
    combine .and (negate x.bytes) (negate y.bytes)
  negate_negate : negate (negate x.bytes) = x.bytes
  and_or : (combine .or y.bytes z.bytes >>= combine .and x.bytes) = do
    combine .or (← combine .and x.bytes y.bytes) (← combine .and x.bytes z.bytes)
  or_and : (combine .and y.bytes z.bytes >>= combine .or x.bytes) = do
    combine .and (← combine .or x.bytes y.bytes) (← combine .or x.bytes z.bytes)
  xor_xor : (do combine .xor (← combine .xor x.bytes y.bytes) y.bytes) = .ok x.bytes
  xor_self : combine .xor x.bytes x.bytes = .ok (Bytes.zeros n)

theorem laws (x y z : Block n) : Laws x y z where
  negate_and := by
    rw [and_eq, negate_eq, negate_eq, or_eq, ← compl_inf]
    rfl
  negate_or := by
    rw [or_eq, negate_eq, negate_eq, and_eq, ← compl_sup]
    rfl
  negate_negate := by
    rw [negate_eq, negate_eq, compl_compl]
  and_or := by
    rw [or_eq, and_eq, and_eq]
    show combine .and x.bytes (y ⊔ z).bytes = combine .or (x ⊓ y).bytes (x ⊓ z).bytes
    rw [and_eq, or_eq, inf_sup_left]
  or_and := by
    rw [and_eq, or_eq, or_eq]
    show combine .or x.bytes (y ⊓ z).bytes = combine .and (x ⊔ y).bytes (x ⊔ z).bytes
    rw [and_eq, or_eq, sup_inf_left]
  xor_xor := by
    rw [xor_eq]
    show combine .xor (symmDiff x y).bytes y.bytes = _
    rw [xor_eq, symmDiff_symmDiff_cancel_right]
  xor_self := by
    rw [xor_eq, symmDiff_self]
    rfl

end Block

/-! ## Requests -/

end Bits

/-- The operands that look at an array, as a whole. -/
inductive Store.Aliases (σ : Store) (b : BufferId) : Operand → Prop
  | sequence {t : SequenceId} {r : Sequence} (ht : σ.sequences[t]? = some r)
      (hr : r.buffer = b) : Aliases σ b (.sequence t)
  | buffer : Aliases σ b (.buffer b)
  | view {v : ViewId} (hv : σ.view? v = .ok b) : Aliases σ b (.view v)
  | part {v : ViewId} {x : Bytes} (hv : σ.view? v = .ok b) (hx : σ.buffer? b = .ok x) :
      Aliases σ b (.part v 0 x.length)

theorem Store.Aliases.read_eq {σ : Store} {b : BufferId} {d : Operand} (h : σ.Aliases b d) :
    σ.read d = σ.buffer? b := by
  cases h with
  | @sequence t r ht hr =>
    rw [Store.read, Store.content?, Store.sequence?_eq_ok.mpr ht, ← hr]
    rfl
  | buffer => rfl
  | view hv =>
    rw [Store.read, hv]
    rfl
  | @part v x hv hx =>
    simp [Store.read, hv, hx, Bytes.window, bind, Except.bind, pure, Except.pure]

namespace Bits

/-- The call of the transformer that a constructor keeps combines bytes as a request does. -/
theorem call_block (op : Operation) (x y : Block n) :
    (Transform.Setup.bitwise y.bytes op).call x.bytes = .ok (Block.combined op x y).bytes := by
  rw [Transform.Setup.call_bitwise, Block.combine_bytes]
  rfl

theorem call_negate (x : Bytes) : Transform.Setup.negate.call x = .ok (negate x) := by
  simp only [Transform.Setup.call, Transform.Setup.getD_inverted]
  rfl

section Requests

variable {n : Nat} {σ : Store} {s : SequenceId} {q : Sequence} {x : Bytes} {d : Operand}

theorem run_bitwise {y z : Bytes} {op : Operation} (h : σ.Holds s q x) (hd : σ.read d = .ok y)
    (hz : combine op x y = .ok z) :
    (Call.request s (.bitwise op d)).run σ = σ.rewriting s q z := by
  refine Call.run_rewriting h (u := .bitwise op y) ?_ rfl ?_
  · rw [Request.transform?, hd]
    rfl
  · rw [Transform.apply, Transform.content_writtenIf, hz]

theorem run_negate (h : σ.Holds s q x) :
    (Call.request s .negate).run σ = σ.rewriting s q (negate x) :=
  Call.run_rewriting h (u := .negate) rfl rfl rfl

/-- A sequence that has been rewritten is as before once its old content is back. -/
theorem rewriting_written (h : σ.Holds s q x) (hv : q.variant = .mutable) (y : Bytes) :
    (σ.written q.buffer y).rewriting s q x = (.ok (.sequence s), σ) := by
  have hback : (σ.written q.buffer y).written q.buffer x = σ.written q.buffer x := by
    simp [Store.written]
  rw [Store.rewriting, if_pos hv, hback, Store.written_self h.content]

end Requests

/-- How the operations act on the strings of `n` bytes, whatever the orders of the sequences
that hold them. -/
structure Bytewise (n : Nat) : Prop where
  combined : ∀ (op : Operation) (x y : Block n), ∃ z : Block n,
    combine op x.bytes y.bytes = .ok z.bytes ∧
    (Transform.Setup.bitwise y.bytes op).call x.bytes = .ok z.bytes ∧
    ∀ i, z.byte i = op.onByte (x.byte i) (y.byte i)
  negated : ∀ x : Block n, ∃ z : Block n, negate x.bytes = z.bytes ∧
    Transform.Setup.negate.call x.bytes = .ok z.bytes ∧
    ∀ i, (z.byte i).toNat = 255 - (x.byte i).toNat
  /-- A request, on a sequence of any variant and with an operand of any kind, yields what has
  been computed from the contents that were there before. -/
  requested : ∀ {σ : Store} {s : SequenceId} {q : Sequence} {x y z : Block n} {d : Operand}
    {op : Operation}, σ.Holds s q x.bytes → σ.read d = .ok y.bytes →
    combine op x.bytes y.bytes = .ok z.bytes →
    (Call.request s (.bitwise op d)).run σ = σ.rewriting s q z.bytes
  requestedNegate : ∀ {σ : Store} {s : SequenceId} {q : Sequence} {x : Block n},
    σ.Holds s q x.bytes → (Call.request s .negate).run σ = σ.rewriting s q (negate x.bytes)
  /-- Where the operand is the array of a mutable receiver. -/
  own : ∀ {σ : Store} {s : SequenceId} {q : Sequence} {x : Block n} {d : Operand},
    σ.Holds s q x.bytes → q.variant = .mutable → σ.Aliases q.buffer d →
    (Call.request s (.bitwise .and d)).run σ = (.ok (.sequence s), σ) ∧
    (Call.request s (.bitwise .or d)).run σ = (.ok (.sequence s), σ) ∧
    (Call.request s (.bitwise .xor d)).run σ =
      (.ok (.sequence s), σ.written q.buffer (Bytes.zeros n))
  /-- What undoes a request on a mutable receiver. The same content is needed for it, which an
  operand over the array of the receiver does not have any more. -/
  undone : ∀ {σ τ : Store} {s : SequenceId} {q : Sequence} {x y : Block n} {d e : Operand},
    σ.Holds s q x.bytes → q.variant = .mutable →
    (σ.read d = .ok y.bytes → (Call.request s (.bitwise .xor d)).run σ = (.ok (.sequence s), τ) →
      τ.read e = .ok y.bytes →
      (Call.request s (.bitwise .xor e)).run τ = (.ok (.sequence s), σ)) ∧
    ((Call.request s .negate).run σ = (.ok (.sequence s), τ) →
      (Call.request s .negate).run τ = (.ok (.sequence s), σ))
  algebra : ∃ _ : BooleanAlgebra (Block n), (⊥ : Block n).bytes = Bytes.zeros n ∧
    ∀ x y : Block n, combine .and x.bytes y.bytes = .ok (x ⊓ y).bytes ∧
    combine .or x.bytes y.bytes = .ok (x ⊔ y).bytes ∧
    combine .xor x.bytes y.bytes = .ok (symmDiff x y).bytes ∧
    negate x.bytes = xᶜ.bytes
  laws : ∀ x y z : Block n, Block.Laws x y z

theorem bytewise (n : Nat) : Bytewise n where
  combined := by
    intro op x y
    exact ⟨Block.combined op x y, Block.combine_bytes op x y, call_block op x y,
      Block.byte_combined op x y⟩
  negated := by
    intro x
    exact ⟨xᶜ, rfl, call_negate x.bytes, Block.toNat_byte_compl x⟩
  requested := run_bitwise
  requestedNegate := run_negate
  own := by
    intro σ s q x d h hv hd
    have hread : σ.read d = .ok x.bytes := hd.read_eq.trans h.buffer?
    have hself : σ.rewriting s q x.bytes = (.ok (.sequence s), σ) := by
      rw [Store.rewriting, if_pos hv, Store.written_self h.content]
    refine ⟨?_, ?_, ?_⟩
    · rw [run_bitwise h hread (Block.and_eq x x), inf_idem, hself]
    · rw [run_bitwise h hread (Block.or_eq x x), sup_idem, hself]
    · rw [run_bitwise h hread (Block.laws x x x).xor_self, Store.rewriting, if_pos hv]
  undone := by
    intro σ τ s q x y d e h hv
    refine ⟨?_, ?_⟩
    · intro hd hrun he
      rw [run_bitwise h hd (Block.xor_eq x y), Store.rewriting, if_pos hv] at hrun
      obtain ⟨-, rfl⟩ := Prod.mk.inj hrun
      have hback := (Block.laws x y y).xor_xor
      rw [Block.xor_eq] at hback
      rw [run_bitwise (h.written _) he hback, rewriting_written h hv]
    · intro hrun
      rw [run_negate h, Store.rewriting, if_pos hv] at hrun
      obtain ⟨-, rfl⟩ := Prod.mk.inj hrun
      rw [run_negate (h.written _), (Block.laws x x x).negate_negate, rewriting_written h hv]
  algebra := by
    refine ⟨inferInstance, rfl, fun x y => ?_⟩
    exact ⟨Block.and_eq x y, Block.or_eq x y, Block.xor_eq x y, Block.negate_eq x⟩
  laws := Block.laws

end Bits
end Octets
