import Octets.Proofs.Bitwise
import Octets.Proofs.IntegerViews
/-!
# Ranges that are copied and overwritten

Overwriting, copying and reading or setting one byte each check for themselves that the range
they are asked for lies in the sequence (`Bytes.HasRange`); they accept the same ranges and
refuse the others with the store as it was.

What overwriting leaves behind is known at every index: the new bytes in the range, the old
ones outside (`Layout.getElem?_splice`). The laws of reading and writing follow index by index.
The operand is read before anything is written, so they hold as well where it looks at the
array that is written: `Store.ranges_written`.
-/

namespace Octets

/-- The string has the `n` bytes from the index `o` on. -/
def Bytes.HasRange (x : Bytes) (o : Int) (n : Nat) : Prop := 0 ≤ o ∧ o + n ≤ x.length

/-- The index `i` is one of the `n` from `o` on. -/
def Layout.InRange (o : Int) (n i : Nat) : Prop := o ≤ i ∧ i < o + n

/-! ## Strings -/

theorem Bytes.HasRange.inside {x : Bytes} {o : Int} {n : Nat} (h : x.HasRange o n) :
    o.toNat + n ≤ x.length := by
  rw [HasRange] at h
  omega

namespace Layout

variable {x y z : Bytes} {o p n : Nat}

theorem getElem?_splice (h : o + y.length ≤ x.length) (i : Nat) :
    (splice x y o)[i]? = if o ≤ i ∧ i < o + y.length then y[i - o]? else x[i]? := by
  have hlength : (x.take o).length = o := List.length_take_of_le (by omega)
  rw [splice, List.append_assoc, List.getElem?_append, hlength, List.getElem?_append]
  by_cases hbefore : i < o
  · rw [if_pos hbefore, if_neg (by omega), List.getElem?_take_of_lt hbefore]
  · by_cases hinside : i < o + y.length
    · rw [if_neg hbefore, if_pos (by omega), if_pos ⟨by omega, hinside⟩]
    · have hindex : o + y.length + (i - o - y.length) = i := by omega
      rw [if_neg hbefore, if_neg (by omega), if_neg (by omega), List.getElem?_drop, hindex]

theorem window_splice (h : o + y.length ≤ x.length) :
    (splice x y o).window o y.length = y := by
  have hlength : (x.take o).length = o := List.length_take_of_le (by omega)
  rw [Bytes.window, splice, List.append_assoc, List.drop_left' hlength, List.take_left]

theorem splice_window (h : o + n ≤ x.length) : splice x (x.window o n) o = x := by
  rw [splice, Bytes.length_window h, Bytes.window, List.append_assoc, ← List.drop_drop,
    List.take_append_drop, List.take_append_drop]

theorem splice_splice (h : o + y.length ≤ x.length) (hz : z.length = y.length) :
    splice (splice x y o) z o = splice x z o := by
  have hfits : o + z.length ≤ x.length := by omega
  have hagain : o + z.length ≤ (splice x y o).length := by rwa [length_splice x y o h]
  apply List.ext_getElem?
  intro i
  rw [getElem?_splice hagain, getElem?_splice hfits, getElem?_splice h, hz]
  by_cases hi : o ≤ i ∧ i < o + y.length
  · rw [if_pos hi, if_pos hi]
  · rw [if_neg hi, if_neg hi, if_neg hi]

theorem splice_comm (hy : o + y.length ≤ x.length) (hz : p + z.length ≤ x.length)
    (hdisjoint : ∀ i, o ≤ i ∧ i < o + y.length → ¬ (p ≤ i ∧ i < p + z.length)) :
    splice (splice x y o) z p = splice (splice x z p) y o := by
  have hy' : o + y.length ≤ (splice x z p).length := by rwa [length_splice x z p hz]
  have hz' : p + z.length ≤ (splice x y o).length := by rwa [length_splice x y o hy]
  apply List.ext_getElem?
  intro i
  rw [getElem?_splice hz', getElem?_splice hy', getElem?_splice hy, getElem?_splice hz]
  by_cases hi : o ≤ i ∧ i < o + y.length
  · rw [if_neg (hdisjoint i hi), if_pos hi, if_pos hi]
  · rw [if_neg hi, if_neg hi]

/-- The ranges of a string stay the same where a part of it is replaced. -/
theorem hasRange_splice {a b : Int} (hy : x.HasRange a y.length) :
    (splice x y a.toNat).HasRange b n ↔ x.HasRange b n := by
  rw [Bytes.HasRange, Bytes.HasRange, length_splice x y a.toNat hy.inside]

theorem set_eq_splice (h : o < x.length) (b : UInt8) : x.set o b = splice x [b] o := by
  apply List.ext_getElem?
  intro i
  rw [getElem?_splice (by exact h), List.length_singleton, List.getElem?_set]
  by_cases hi : o = i
  · rw [if_pos hi, if_pos (by omega), if_pos (by omega), ← hi, Nat.sub_self]
    rfl
  · rw [if_neg hi, if_neg (by omega)]

end Layout

/-! ## Calls -/

/-- The call is refused as a fault of a kind, and changes nothing. -/
def Call.RefusedOn (c : Call) (σ : Store) (kind : FaultKind) : Prop :=
  ∃ f, c.run σ = (.error f, σ) ∧ f.kind = kind

namespace Ranges

variable {σ : Store} {s : SequenceId} {q : Sequence} {x y z : Bytes} {d e : Operand}
  {o p : Int} {n : Nat}

theorem run_overwrite (h : σ.Holds s q x) (hv : q.variant = .mutable) (hd : σ.read d = .ok y)
    (hr : x.HasRange o y.length) : (Call.mutate s (.overwrite d o)).run σ =
      (.ok (.sequence s), σ.written q.buffer (Layout.splice x y o.toNat)) := by
  have hresult : (Mutation.overwrite d o).result σ x = .ok (Layout.splice x y o.toNat) := by
    obtain ⟨ho, hstop⟩ := hr
    simp [Mutation.result, hd, bind, Except.bind, Int.not_lt.mpr ho, Int.not_lt.mpr hstop]
  rw [Call.run_mutate h hv, hresult]

theorem overwrite_refused (h : σ.Holds s q x) (hv : q.variant = .mutable)
    (hd : σ.read d = .ok y) (hr : ¬ x.HasRange o y.length) :
    (Call.mutate s (.overwrite d o)).RefusedOn σ .bounds := by
  have hout : o < 0 ∨ (x.length : Int) < o + y.length := by
    rw [Bytes.HasRange] at hr
    omega
  have hresult : (Mutation.overwrite d o).result σ x =
      .error (.overwriteOutside o (o + y.length) x.length) := by
    simp [Mutation.result, hd, bind, Except.bind, hout]
  refine ⟨.overwriteOutside o (o + y.length) x.length, ?_, rfl⟩
  rw [Call.run_mutate h hv, hresult]

/-- What was overwritten had room for it. -/
theorem overwrite_inv {a : Value} {τ : Store} (h : σ.Holds s q x) (hv : q.variant = .mutable)
    (hd : σ.read d = .ok y) (hrun : (Call.mutate s (.overwrite d o)).run σ = (.ok a, τ)) :
    x.HasRange o y.length ∧ τ = σ.written q.buffer (Layout.splice x y o.toNat) := by
  by_cases hr : x.HasRange o y.length
  · rw [run_overwrite h hv hd hr] at hrun
    exact ⟨hr, (Prod.mk.inj hrun).2.symm⟩
  · obtain ⟨f, hf, -⟩ := overwrite_refused h hv hd hr
    rw [hf] at hrun
    cases hrun

theorem transform?_copy (σ : Store) (b : ByteOrder) (x : Bytes) (o : Int) (n : Nat) :
    (Request.copy o (some n)).transform? σ b x = (Check.notNegative o "offset").map fun _ =>
      (Transform.copy o.toNat n).toTransformer := by
  rw [Request.transform?, Request.copyOf, Transform.copyRange, Check.notNegative_natCast]
  cases Check.notNegative o "offset" with
  | ok u => rfl
  | error f => rfl

theorem transform?_copy_none (σ : Store) (b : ByteOrder) (x : Bytes) (o : Int) :
    (Request.copy o none).transform? σ b x =
      (Request.copy o (some (x.length - o.toNat : Nat))).transform? σ b x := by
  rw [Request.transform?, Request.transform?, Request.copyOf, Request.copyOf]
  cases hcheck : Check.notNegative o "offset" with
  | ok u => rfl
  | error f =>
    rw [Transform.copyRange, hcheck]
    rfl

theorem run_copy (h : σ.Holds s q x) (hr : x.HasRange o n) :
    (Call.request s (.copy o (some n))).run σ = (.ok (.sequence σ.sequences.length),
      σ.created q.variant q.order (x.window o.toNat n)) := by
  obtain ⟨ho, hstop⟩ := hr
  have ht := transform?_copy σ q.order x o n
  rw [Check.notNegative_eq_ok.mpr ho] at ht
  have hcopy : Layout.copy o.toNat n x = .ok (x.window o.toNat n) := if_neg (by omega)
  rw [Call.run_request h ht, StoreM.exec_dispatch_library h, Transform.apply,
    Transform.content_made, hcopy]
  simp [StoreM.inPlace, Transform.toTransformer, Transform.supportsInPlace, Except.map]

theorem copy_refused (h : σ.Holds s q x) (hr : ¬ x.HasRange o n) :
    (Call.request s (.copy o (some n))).RefusedOn σ .bounds := by
  have ht := transform?_copy σ q.order x o n
  by_cases ho : o < 0
  · rw [Check.notNegative, if_pos ho] at ht
    exact ⟨.negative "offset" o, Call.run_request_refused h ht, rfl⟩
  · rw [Check.notNegative, if_neg ho] at ht
    have hcopy : Layout.copy o.toNat n x =
        .error (.copyOutside o.toNat (o.toNat + n : Nat) x.length) := by
      rw [Bytes.HasRange] at hr
      exact if_pos (by omega)
    refine ⟨.copyOutside o.toNat (o.toNat + n : Nat) x.length, ?_, rfl⟩
    have hcontent : ((Transform.copy o.toNat n).apply false x).content =
        .error (.copyOutside o.toNat (o.toNat + n : Nat) x.length) := by
      rw [Transform.apply, Transform.content_made, hcopy]
    rw [Call.run_request h ht, StoreM.dispatch_unchanged h rfl hcontent]
    rfl

theorem run_copy_none (h : σ.Holds s q x) (o : Int) :
    (Call.request s (.copy o none)).run σ =
      (Call.request s (.copy o (some (x.length - o.toNat : Nat)))).run σ := by
  show (Value.sequence <$> StoreM.request s _).exec σ =
    (Value.sequence <$> StoreM.request s _).exec σ
  rw [StoreM.exec_map, StoreM.exec_map, StoreM.exec_request h, StoreM.exec_request h,
    transform?_copy_none]

theorem read_part {v : ViewId} (h : σ.Holds s q x) (hview : σ.view? v = .ok q.buffer)
    (i n : Nat) : σ.read (.part v i n) = .ok (x.window i n) := by
  rw [Store.read, hview]
  show (σ.buffer? q.buffer >>= fun x => pure (x.window i n)) = _
  rw [h.buffer?]
  rfl

theorem run_duplicate (h : σ.Holds s q x) : (Call.convert s .duplicate).run σ =
    (.ok (.sequence σ.sequences.length), σ.adopted q.variant q.order q.buffer) := by
  show (Value.sequence <$> StoreM.convert s .duplicate).exec σ = _
  rw [StoreM.exec_map, StoreM.exec_convert h]
  rfl

theorem run_view (h : σ.Holds s q x) : (Call.expose s .view).run σ =
    (.ok (.view σ.views.length), σ.watched q.buffer) :=
  StoreM.exec_expose h .view

/-! ## Single bytes -/

theorem run_setByteAt {i : Int} (h : σ.Holds s q x) (hv : q.variant = .mutable)
    (hr : x.HasRange i 1) (v : Int) : (Call.mutate s (.setByteAt i v)).run σ =
      (Call.mutate s (.overwrite (.bytes [Bytes.ofInt v]) i)).run σ := by
  have hset := Layout.set_eq_splice (x := x) (o := i.toNat) (by grind [Bytes.HasRange])
  have hresult : (Mutation.setByteAt i v).result σ x =
      .ok (Layout.splice x [Bytes.ofInt v] i.toNat) := by
    rw [← hset]
    exact if_neg (by grind [Bytes.HasRange])
  rw [run_overwrite h hv rfl hr, Call.run_mutate h hv, hresult]

theorem setByteAt_refused {i : Int} (h : σ.Holds s q x) (hv : q.variant = .mutable)
    (hr : ¬ x.HasRange i 1) (v : Int) : (Call.mutate s (.setByteAt i v)).RefusedOn σ .state := by
  have hresult : (Mutation.setByteAt i v).result σ x = .error (.byteOutside i x.length) :=
    if_pos (by grind [Bytes.HasRange])
  refine ⟨.byteOutside i x.length, ?_, rfl⟩
  rw [Call.run_mutate h hv, hresult]

theorem query_unsignedByteAt (h : σ.Holds s q x) (i : Int) :
    σ.query s (.integerAt .unsignedByte i) =
      (IntegerKind.unsignedByte.readAt q.order x i).map .int := by
  rw [h.query]
  rfl

theorem query_unsignedByte {i : Int} {b : UInt8} (h : σ.Holds s q x) (hr : x.HasRange i 1)
    (hb : x.window i.toNat 1 = [b]) :
    σ.query s (.integerAt .unsignedByte i) = .ok (.int b.toNat) := by
  have hread : IntegerKind.unsignedByte.readAt q.order x i = .ok b.toNat := by
    refine IntegerKind.readAt_eq_ok.mpr ⟨hr, ?_⟩
    show ((q.order.logical (x.window i.toNat 1)).value : Int) = b.toNat
    rw [hb]
    cases q.order <;> simp [ByteOrder.logical, Bytes.value]
  rw [query_unsignedByteAt h, hread]
  rfl

theorem query_unsignedByte_refused {i : Int} (h : σ.Holds s q x) (hr : ¬ x.HasRange i 1) :
    ∃ f, σ.query s (.integerAt .unsignedByte i) = .error f ∧ f.kind = .state := by
  have hread : ∃ f, IntegerKind.unsignedByte.readAt q.order x i = .error f ∧ f.kind = .state := by
    refine refused_iff_of_pure.mpr (Check.readInside_refused.mpr ?_)
    show i < 0 ∨ (x.length : Int) < i + (1 : Nat)
    rw [Bytes.HasRange] at hr
    omega
  obtain ⟨f, hf, hkind⟩ := hread
  refine ⟨f, ?_, hkind⟩
  rw [query_unsignedByteAt h, hf]
  rfl

end Ranges

/-! ## The laws -/

/-- What comes of overwriting `s`, which holds `x`, with an operand that reads `y`. -/
structure Store.Overwrites (σ : Store) (s : SequenceId) (q : Sequence) (x : Bytes)
    (d : Operand) (y : Bytes) (o : Int) : Prop where
  /-- In a range that is there the bytes can be read back that the operand had before. Outside
  the range, and in length, nothing has changed. -/
  written : x.HasRange o y.length → ∃ z,
    (Call.mutate s (.overwrite d o)).run σ = (.ok (.sequence s), σ.written q.buffer z) ∧
    (Call.request s (.copy o (some y.length))).run (σ.written q.buffer z) =
      (.ok (.sequence σ.sequences.length),
        (σ.written q.buffer z).created q.variant q.order y) ∧
    (∀ i, ¬ Layout.InRange o y.length i → z[i]? = x[i]?) ∧ z.length = x.length
  refused : ¬ x.HasRange o y.length → (Call.mutate s (.overwrite d o)).RefusedOn σ .bounds

/-- How copying and overwriting go together on a mutable sequence `s` with the content `x`. -/
structure Store.RangesWritten (σ : Store) (s : SequenceId) (q : Sequence) (x : Bytes) : Prop where
  overwritten : ∀ {d : Operand} {y : Bytes} (o : Int), σ.read d = .ok y →
    σ.Overwrites s q x d y o
  copied : ∀ {o : Int} {n : Nat}, x.HasRange o n →
    (Call.request s (.copy o (some n))).run σ = (.ok (.sequence σ.sequences.length),
      σ.created q.variant q.order (x.window o.toNat n))
  copyRefused : ∀ {o : Int} {n : Nat}, ¬ x.HasRange o n →
    (Call.request s (.copy o (some n))).RefusedOn σ .bounds
  /-- Without a length, a copy goes up to the end. -/
  copiedToEnd : ∀ {o : Int}, 0 ≤ o → o ≤ x.length →
    (Call.request s (.copy o none)).run σ =
      (Call.request s (.copy o (some (x.length - o)))).run σ ∧
    (Call.request s (.copy o none)).run σ = (.ok (.sequence σ.sequences.length),
      σ.created q.variant q.order (x.drop o.toNat))
  copyToEndRefused : ∀ {o : Int}, ¬ (0 ≤ o ∧ o ≤ x.length) →
    (Call.request s (.copy o none)).RefusedOn σ .bounds
  /-- What has been copied changes nothing where it has been copied from. -/
  restored : ∀ {o : Int} {n : Nat} {t : SequenceId} {τ : Store},
    (Call.request s (.copy o (some n))).run σ = (.ok (.sequence t), τ) →
    (Call.mutate s (.overwrite (.sequence t) o)).run τ = (.ok (.sequence s), τ)
  /-- Of two writes to one range the later one wins. -/
  replaced : ∀ {d e : Operand} {y z : Bytes} {o : Int} {τ : Store}, σ.read d = .ok y →
    (Call.mutate s (.overwrite d o)).run σ = (.ok (.sequence s), τ) →
    τ.read e = .ok z → z.length = y.length →
    (Call.mutate s (.overwrite e o)).run τ = (Call.mutate s (.overwrite (.bytes z) o)).run σ
  /-- The order of writes to ranges that have no index in common does not matter, where neither
  changes what the other one's operand reads. -/
  commute : ∀ {d e : Operand} {y z : Bytes} {o p : Int} {σ₁ σ₂ : Store},
    σ.read d = .ok y → σ.read e = .ok z →
    (∀ i, Layout.InRange o y.length i → ¬ Layout.InRange p z.length i) →
    (Call.mutate s (.overwrite d o)).run σ = (.ok (.sequence s), σ₁) → σ₁.read e = .ok z →
    (Call.mutate s (.overwrite e p)).run σ = (.ok (.sequence s), σ₂) → σ₂.read d = .ok y →
    ∃ τ, (Call.mutate s (.overwrite e p)).run σ₁ = (.ok (.sequence s), τ) ∧
      (Call.mutate s (.overwrite d o)).run σ₂ = (.ok (.sequence s), τ)
  /-- A byte that can be read can be set, modulo 256, which is to overwrite it. -/
  byteSet : ∀ {i : Int} (v : Int), x.HasRange i 1 →
    (∃ w, σ.query s (.integerAt .unsignedByte i) = .ok (.int w)) ∧
    (Call.mutate s (.setByteAt i v)).run σ =
      (Call.mutate s (.overwrite (.bytes [Bytes.ofInt v]) i)).run σ ∧
    ∃ τ, (Call.mutate s (.setByteAt i v)).run σ = (.ok (.sequence s), τ) ∧
      τ.query s (.integerAt .unsignedByte i) = .ok (.int (v % 256))
  byteRefused : ∀ {i : Int} (v : Int), ¬ x.HasRange i 1 →
    (∃ f, σ.query s (.integerAt .unsignedByte i) = .error f ∧ f.kind = .state) ∧
    (Call.mutate s (.setByteAt i v)).RefusedOn σ .state
  byteRead : ∀ {r : IntegerReader} (i : Int), r.Faithful →
    σ.query s (.integerAt .unsignedByte i) = (r.readAt .unsignedByte q.order x i).map .int
  /-- The sequence itself and whatever else looks at its array as a whole. -/
  aliased : ∀ {d : Operand} (o : Int), σ.Aliases q.buffer d → σ.Overwrites s q x d x o
  viewed : ∀ {v : ViewId} (i n : Nat) (o : Int), σ.view? v = .ok q.buffer →
    σ.Overwrites s q x (.part v i n) (x.window i n) o
  duplicated : ∃ t τ, (Call.convert s .duplicate).run σ = (.ok (.sequence t), τ) ∧
    ∀ o, τ.Overwrites s q x (.sequence t) x o
  exposed : ∃ v τ, (Call.expose s .view).run σ = (.ok (.view v), τ) ∧
    ∀ i n o, τ.Overwrites s q x (.part v i n) (x.window i n) o

namespace Ranges

variable {σ : Store} {s : SequenceId} {q : Sequence} {x y z : Bytes} {d e : Operand} {n : Nat}

theorem overwrites (h : σ.Holds s q x) (hv : q.variant = .mutable) (hd : σ.read d = .ok y)
    (o : Int) : σ.Overwrites s q x d y o where
  written := by
    intro hr
    have hback := (Layout.hasRange_splice hr).mpr hr
    have hlength := Layout.length_splice x y o.toNat hr.inside
    refine ⟨_, run_overwrite h hv hd hr, ?_, ?_, hlength⟩
    · rw [run_copy (h.written _) hback, Layout.window_splice hr.inside]
      rfl
    · intro i hi
      rw [Layout.getElem?_splice hr.inside, if_neg]
      rw [Layout.InRange] at hi
      have ho := hr.1
      omega
  refused := overwrite_refused h hv hd

theorem restored {o : Int} {t : SequenceId} {τ : Store} (h : σ.Holds s q x)
    (hv : q.variant = .mutable)
    (hrun : (Call.request s (.copy o (some n))).run σ = (.ok (.sequence t), τ)) :
    (Call.mutate s (.overwrite (.sequence t) o)).run τ = (.ok (.sequence s), τ) := by
  by_cases hr : x.HasRange o n
  · rw [run_copy h hr] at hrun
    cases hrun
    have hcopy := (Store.holds_created σ q.variant q.order (x.window o.toNat n)).content?
    have hkept := h.created q.variant q.order (x.window o.toNat n)
    have hfits : x.HasRange o (x.window o.toNat n).length := by
      rwa [Bytes.length_window hr.inside]
    rw [run_overwrite (d := .sequence _) hkept hv hcopy hfits, Layout.splice_window hr.inside,
      Store.written_self hkept.content]
  · obtain ⟨f, hf, -⟩ := copy_refused h hr
    rw [hf] at hrun
    cases hrun

theorem replaced {o : Int} {τ : Store} (h : σ.Holds s q x) (hv : q.variant = .mutable)
    (hd : σ.read d = .ok y)
    (hrun : (Call.mutate s (.overwrite d o)).run σ = (.ok (.sequence s), τ))
    (he : τ.read e = .ok z) (hz : z.length = y.length) :
    (Call.mutate s (.overwrite e o)).run τ = (Call.mutate s (.overwrite (.bytes z) o)).run σ := by
  obtain ⟨hr, rfl⟩ := overwrite_inv h hv hd hrun
  have hfirst : x.HasRange o z.length := by rwa [hz]
  have hsecond := (Layout.hasRange_splice hr).mpr hfirst
  rw [run_overwrite (h.written _) hv he hsecond, run_overwrite h hv rfl hfirst,
    Store.written_written, Layout.splice_splice hr.inside hz]

theorem commute {o p : Int} {σ₁ σ₂ : Store} (h : σ.Holds s q x) (hv : q.variant = .mutable)
    (hd : σ.read d = .ok y) (he : σ.read e = .ok z)
    (hdisjoint : ∀ i, Layout.InRange o y.length i → ¬ Layout.InRange p z.length i)
    (hrun₁ : (Call.mutate s (.overwrite d o)).run σ = (.ok (.sequence s), σ₁))
    (he₁ : σ₁.read e = .ok z)
    (hrun₂ : (Call.mutate s (.overwrite e p)).run σ = (.ok (.sequence s), σ₂))
    (hd₂ : σ₂.read d = .ok y) :
    ∃ τ, (Call.mutate s (.overwrite e p)).run σ₁ = (.ok (.sequence s), τ) ∧
      (Call.mutate s (.overwrite d o)).run σ₂ = (.ok (.sequence s), τ) := by
  obtain ⟨hy, rfl⟩ := overwrite_inv h hv hd hrun₁
  obtain ⟨hz, rfl⟩ := overwrite_inv h hv he hrun₂
  have hz₁ := (Layout.hasRange_splice hy).mpr hz
  have hy₂ := (Layout.hasRange_splice hz).mpr hy
  have hapart (i : Nat) : o.toNat ≤ i ∧ i < o.toNat + y.length →
      ¬ (p.toNat ≤ i ∧ i < p.toNat + z.length) := by
    have ho := hy.1
    have hp := hz.1
    have hi := hdisjoint i
    rw [Layout.InRange, Layout.InRange] at hi
    omega
  refine ⟨_, run_overwrite (h.written _) hv he₁ hz₁, ?_⟩
  rw [run_overwrite (h.written _) hv hd₂ hy₂, Store.written_written, Store.written_written,
    Layout.splice_comm hy.inside hz.inside hapart]

theorem byteSet {i : Int} (h : σ.Holds s q x) (hv : q.variant = .mutable) (v : Int)
    (hr : x.HasRange i 1) : ∃ τ, (Call.mutate s (.setByteAt i v)).run σ =
      (.ok (.sequence s), τ) ∧ τ.query s (.integerAt .unsignedByte i) = .ok (.int (v % 256)) := by
  have hinside : i.toNat + [Bytes.ofInt v].length ≤ x.length := hr.inside
  have hback := (Layout.hasRange_splice (y := [Bytes.ofInt v]) hr).mpr hr
  refine ⟨_, (run_setByteAt h hv hr v).trans (run_overwrite h hv rfl hr), ?_⟩
  rw [query_unsignedByte (h.written _) hback (Layout.window_splice hinside), Bytes.toNat_ofInt]

end Ranges

theorem Store.ranges_written {σ : Store} {s : SequenceId} {q : Sequence} {x : Bytes}
    (h : σ.Holds s q x) (hv : q.variant = .mutable) : σ.RangesWritten s q x where
  overwritten := fun o hd => Ranges.overwrites h hv hd o
  copied := Ranges.run_copy h
  copyRefused := Ranges.copy_refused h
  copiedToEnd := by
    intro o ho hstop
    have hlength : (x.length - o : Int) = (x.length - o.toNat : Nat) := by omega
    have hr : x.HasRange o (x.length - o.toNat) := ⟨ho, by omega⟩
    have hwindow : x.window o.toNat (x.length - o.toNat) = x.drop o.toNat := by
      rw [Bytes.window, ← List.length_drop, List.take_length]
    rw [Ranges.run_copy_none h, hlength]
    exact ⟨rfl, hwindow ▸ Ranges.run_copy h hr⟩
  copyToEndRefused := by
    intro o ho
    have hr : ¬ x.HasRange o (x.length - o.toNat) := by
      rw [Bytes.HasRange]
      omega
    obtain ⟨f, hf, hkind⟩ := Ranges.copy_refused h hr
    exact ⟨f, (Ranges.run_copy_none h o).trans hf, hkind⟩
  restored := Ranges.restored h hv
  replaced := Ranges.replaced h hv
  commute := Ranges.commute h hv
  byteSet := by
    intro i v hr
    obtain ⟨b, hb⟩ := List.length_eq_one_iff.mp (Bytes.length_window hr.inside)
    refine ⟨⟨_, Ranges.query_unsignedByte h hr hb⟩, ?_, Ranges.byteSet h hv v hr⟩
    exact Ranges.run_setByteAt h hv hr v
  byteRefused := by
    intro i v hr
    exact ⟨Ranges.query_unsignedByte_refused h hr, Ranges.setByteAt_refused h hv hr v⟩
  byteRead := by
    intro r i hfaithful
    rw [Ranges.query_unsignedByteAt h, IntegerReader.readAt_eq hfaithful]
  aliased := fun o hd => Ranges.overwrites h hv (hd.read_eq.trans h.buffer?) o
  viewed := fun i n o hview => Ranges.overwrites h hv (Ranges.read_part h hview i n) o
  duplicated := by
    have hcopy := Store.holds_adopted h.content q.variant q.order
    exact ⟨_, _, Ranges.run_duplicate h, Ranges.overwrites (h.adopted ..) hv hcopy.content?⟩
  exposed := by
    have hview : (σ.watched q.buffer).view? σ.views.length = .ok q.buffer := by
      simp [Store.view?, Store.watched]
    have hkept : (σ.watched q.buffer).Holds s q x := ⟨h.sequence, h.content⟩
    refine ⟨_, _, Ranges.run_view h, fun i n => ?_⟩
    exact Ranges.overwrites hkept hv (Ranges.read_part hkept hview i n)

/-- Three bytes that a view looks at as well. -/
theorem Store.ranges_written_viewed :
    let σ : Store := ⟨[[1, 2, 3]], [⟨.mutable, .little, 0, none⟩], [some 0]⟩
    σ.Holds 0 ⟨.mutable, .little, 0, none⟩ [1, 2, 3] ∧
      σ.RangesWritten 0 ⟨.mutable, .little, 0, none⟩ [1, 2, 3] :=
  have h := ⟨rfl, rfl⟩
  ⟨h, Store.ranges_written h rfl⟩

/-- The first two bytes, moved by one within the array that they come from. -/
example : (Call.mutate 0 (.overwrite (.part 0 0 2) 1)).run
    ⟨[[1, 2, 3]], [⟨.mutable, .little, 0, none⟩], [some 0]⟩ =
    (.ok (.sequence 0), ⟨[[1, 1, 2]], [⟨.mutable, .little, 0, none⟩], [some 0]⟩) := rfl

end Octets
