import Octets.Numeric.Stream
import Octets.Proofs.Bits
import Octets.Proofs.Store.Execution
/-!
# Views of a sequence as integers

An integer is read from a sequence of its width, at an index, or among those that fill the
sequence. A stream read on integer by integer stands where an index would have sought it
(`take_eq_ok`), so the three ways agree. The integer itself is the two's complement number
of the bytes cut out by a slice, up to a sign that an unsigned kind does not have
(`IntegerKind.read_eq`). All in one: `IntegerReader.views_agree`.
-/

namespace Octets

/-! ## Numbers -/

namespace Bytes

variable {b : UInt8} {x : Bytes}

theorem value_cons_low (hb : b < 128) : 2 * value (b :: x) < 256 ^ (x.length + 1) := by
  have hx := value_lt x
  have hle : (b.toNat + 1) * 256 ^ x.length ≤ 128 * 256 ^ x.length :=
    Nat.mul_le_mul_right _ (UInt8.lt_iff_toNat_lt.mp hb)
  rw [Nat.succ_mul] at hle
  rw [value_cons, Nat.pow_succ]
  omega

theorem value_cons_high (hb : ¬ b < 128) : 256 ^ (x.length + 1) ≤ 2 * value (b :: x) := by
  have hle : 128 * 256 ^ x.length ≤ b.toNat * 256 ^ x.length :=
    Nat.mul_le_mul_right _ (UInt8.not_lt.mp hb)
  rw [value_cons, Nat.pow_succ]
  omega

end Bytes

/-- Twice a two's complement number stays within its width, on either side of zero. -/
theorem signedValue_bounds (o : ByteOrder) (x : Bytes) :
    -(2 ^ (8 * x.length) : Nat) ≤ signedValue o x * 2 ∧
      signedValue o x * 2 < (2 ^ (8 * x.length) : Nat) := by
  have hlength := ByteOrder.length_logical o x
  unfold signedValue
  cases hx : o.logical x with
  | nil =>
    rw [hx, List.length_nil] at hlength
    simp [← hlength]
  | cons b rest =>
    rw [hx, List.length_cons] at hlength
    have hlt : Bytes.value (b :: rest) < 256 ^ (rest.length + 1) := Bytes.value_lt (b :: rest)
    have hcast : (256 : Int) ^ (rest.length + 1) = (256 ^ (rest.length + 1) : Nat) :=
      (Int.natCast_pow 256 _).symm
    have hpow : 2 ^ (8 * (rest.length + 1)) = 256 ^ (rest.length + 1) := Nat.pow_mul 2 8 _
    rw [← hlength, hpow]
    by_cases hb : b < 128
    · have hlow := Bytes.value_cons_low (x := rest) hb
      simp only [if_pos hb]
      omega
    · have hhigh := Bytes.value_cons_high (x := rest) hb
      simp only [if_neg hb, hcast]
      omega

/-- The two's complement number is the residue of the unsigned one that is nearest to zero. -/
theorem signedValue_eq_bmod (o : ByteOrder) (x : Bytes) :
    signedValue o x = Int.bmod (unsignedValue o x) (2 ^ (8 * x.length)) := by
  obtain ⟨hlow, hhigh⟩ := signedValue_bounds o x
  have hmod : signedValue o x % (2 ^ (8 * x.length) : Nat) = unsignedValue o x := by
    rw [← signedValue_emod]
    push_cast
    rfl
  rw [← hmod, Int.emod_bmod, Int.bmod_eq_of_le_mul_two hlow hhigh]

theorem IntegerKind.read_eq {k : IntegerKind} {x : Bytes} (h : x.length = k.width)
    (o : ByteOrder) :
    k.read o x = if k.isSigned then signedValue o x else signedValue o x % 2 ^ (8 * k.width) := by
  rw [IntegerKind.read, ← h, signedValue_emod, signedValue_eq_bmod, Nat.pow_mul]

theorem IntegerKind.read_single {x : Bytes} (h : x.length = 1) (k : IntegerKind)
    (o o' : ByteOrder) : k.read o x = k.read o' x := by
  obtain ⟨b, rfl⟩ := List.length_eq_one_iff.mp h
  cases o with
  | big =>
    cases o' with
    | big => rfl
    | little => rfl
  | little =>
    cases o' with
    | big => rfl
    | little => rfl

/-! ## Checks -/

namespace Check

theorem exactLength_refused {length expected : Int} {type : String} :
    (∃ f, exactLength length expected type = .error f ∧ f.kind = .state) ↔ length ≠ expected := by
  rw [exactLength]
  by_cases h : length = expected
  · simp [h]
  · simp [h, Fault.kind]

theorem readInside_refused {length index width : Int} {type : String} :
    (∃ f, readInside length index width type = .error f ∧ f.kind = .state) ↔
      index < 0 ∨ length < index + width := by
  rw [readInside]
  by_cases h : index < 0 ∨ length < index + width
  · simp [h, Fault.kind]
  · simp [h]

theorem evenLength_refused {length divisor : Nat} {subject : String} (hd : divisor ≠ 0) :
    (∃ f, evenLength length divisor subject = .error f ∧ f.kind = .state) ↔
      ¬ divisor ∣ length := by
  rw [evenLength_eq subject hd]
  by_cases h : divisor ∣ length
  · simp [h]
  · simp [h, Fault.kind]

end Check

/-! ## Slices -/

theorem Bytes.window_whole {x : Bytes} {n : Nat} (h : x.length = n) : x.window 0 n = x := by
  rw [Bytes.window, List.drop_zero, ← h, List.take_length]

theorem Bytes.length_window {x : Bytes} {i n : Nat} (h : i + n ≤ x.length) :
    (x.window i n).length = n := by
  rw [Bytes.window, List.length_take, List.length_drop]
  omega

theorem Layout.filterMap_indexes (x : Bytes) (i n : Nat) :
    (indexes i 1 n).filterMap (fun k => x[k.toNat]?) = x.window i n := by
  induction n generalizing i with
  | zero => simp [indexes, Bytes.window]
  | succ n ih =>
    have hnext : (i + 1 : Int) = (i + 1 : Nat) := rfl
    rw [indexes, List.filterMap_cons, hnext, ih, Bytes.window, Bytes.window]
    by_cases hi : i < x.length
    · rw [List.drop_eq_getElem_cons hi, List.take_succ_cons, Int.toNat_natCast,
        List.getElem?_eq_getElem hi]
    · have hout : x.length ≤ i := Nat.le_of_not_lt hi
      rw [List.drop_eq_nil_of_le hout, List.drop_eq_nil_of_le (Nat.le_succ_of_le hout),
        List.take_nil, List.take_nil, Int.toNat_natCast, List.getElem?_eq_none hout]

/-- A slice of bytes that the string has is the window onto them. -/
theorem Layout.slice_window {x : Bytes} {i n : Nat} (h : i + n ≤ x.length) :
    slice (some i) (some (i + n)) none x = .ok (x.window i n) := by
  have hclamp (j : Nat) (hj : j ≤ x.length) : clamp x.length true j = j := by
    rw [clamp, if_neg (Int.not_lt.mpr (Int.natCast_nonneg j)), if_pos rfl,
      Int.min_eq_left (Int.ofNat_le.mpr hj), Int.max_eq_right (Int.natCast_nonneg j)]
  have hstop : clamp x.length true (i + n) = i + n := hclamp (i + n) h
  have hcount : stepCount i (i + n) 1 = n := by
    rw [stepCount, if_pos Int.one_pos, Int.ediv_one]
    omega
  rw [← filterMap_indexes]
  simp [slice, hclamp i (by omega), hstop, hcount]

theorem Call.run_slice {σ : Store} {s : SequenceId} {q : Sequence} {x y : Bytes}
    {start stop step : Option Int} (h : σ.Holds s q x)
    (hy : Layout.slice start stop step x = .ok y) :
    (Call.convert s (.slice start stop step)).run σ =
      (.ok (.sequence σ.sequences.length), σ.created q.variant q.order y) := by
  show (Value.sequence <$> StoreM.convert s _).exec σ = _
  rw [StoreM.exec_map, StoreM.exec_convert h]
  simp only [hy]
  rfl

/-! ## Integers of a kind -/

namespace IntegerKind

variable {k : IntegerKind} {x : Bytes}

theorem width_ne_zero (k : IntegerKind) : k.width ≠ 0 := Nat.succ_ne_zero _

theorem readAt_of_le {i : Nat} (h : i + k.width ≤ x.length) (o : ByteOrder) :
    k.readAt o x i = .ok (k.read o (x.window i k.width)) :=
  readAt_eq_ok.mpr ⟨by omega, rfl⟩

theorem exact_of_length (h : x.length = k.width) (o : ByteOrder) :
    k.exact o x = .ok (k.read o x) := by
  have hcheck : Check.exactLength x.length k.width k.name = .ok () :=
    Check.exactLength_eq_ok.mpr (congrArg Int.ofNat h)
  rw [exact, hcheck]
  rfl

theorem array_of_dvd (h : k.width ∣ x.length) (o : ByteOrder) :
    k.array o x = .ok ((List.range (x.length / k.width)).map fun j =>
      k.read o (x.window (j * k.width) k.width)) := by
  have hcheck : Check.evenLength x.length k.width s!"{k.name} array" = .ok () :=
    (Check.evenLength_eq_ok k.width_ne_zero).mpr h
  have hwhole : Whole k.lastByte x := whole_of_length (Nat.mod_eq_zero_of_dvd h)
  rw [array, hcheck]
  show Except.ok ((chunks k.lastByte x).map (k.read o)) = _
  rw [hwhole.chunks_eq, List.map_map]
  rfl

end IntegerKind

namespace IntegerReader

variable {r : IntegerReader} {k : IntegerKind} {o : ByteOrder} {x : Bytes}

/-! ## Streams -/

theorem next_eq_ok (hr : r.Faithful) {p : Nat} (h : p + k.width ≤ x.length) :
    r.next k o ⟨x, p⟩ = .ok (k.read o (x.window p k.width), ⟨x, p + k.width⟩) :=
  hr k o ⟨x, p⟩ h

/-- The integers read one after another are those at the multiples of the width, counted from
where the stream stands. -/
theorem take_eq_ok (hr : r.Faithful) {n p : Nat} (h : p + n * k.width ≤ x.length) :
    r.take k o n ⟨x, p⟩ = .ok ((List.range n).map fun j =>
      k.read o (x.window (p + j * k.width) k.width)) := by
  induction n generalizing p with
  | zero => rfl
  | succ n ih =>
    rw [Nat.succ_mul] at h
    have hnext := next_eq_ok (k := k) (o := o) (x := x) (p := p) hr (by omega)
    have hrest := ih (p := p + k.width) (by omega)
    have hplace (j : Nat) : p + k.width + j * k.width = p + (j + 1) * k.width := by
      rw [Nat.succ_mul]
      omega
    simp only [take, hnext, hrest, hplace, List.range_succ_eq_map, List.map_cons, List.map_map,
      Nat.zero_mul, Nat.add_zero, bind, Except.bind, pure, Except.pure, Function.comp_def]

theorem readAt_eq (hr : r.Faithful) (k : IntegerKind) (o : ByteOrder) (x : Bytes) (i : Int) :
    r.readAt k o x i = k.readAt o x i := by
  rw [readAt, IntegerKind.readAt]
  cases hcheck : Check.readInside x.length i k.width k.name with
  | error f => rfl
  | ok u =>
    obtain ⟨h0, hstop⟩ := Check.readInside_eq_ok.mp hcheck
    have hinside : i.toNat + k.width ≤ x.length := by omega
    show (r.next k o ⟨x, i.toNat⟩ >>= _) = _
    rw [next_eq_ok hr hinside]
    rfl

theorem exact_eq (hr : r.Faithful) (k : IntegerKind) (o : ByteOrder) (x : Bytes) :
    r.exact k o x = k.exact o x := by
  rw [exact, IntegerKind.exact]
  cases hcheck : Check.exactLength x.length k.width k.name with
  | error f => rfl
  | ok u =>
    have hlength : x.length = k.width := Int.ofNat.inj (Check.exactLength_eq_ok.mp hcheck)
    have hinside : 0 + k.width ≤ x.length := by omega
    show (r.next k o ⟨x, 0⟩ >>= _) = _
    rw [next_eq_ok hr hinside, Bytes.window_whole hlength]
    rfl

theorem array_eq (hr : r.Faithful) (k : IntegerKind) (o : ByteOrder) (x : Bytes) :
    r.array k o x = k.array o x := by
  rw [array]
  cases hcheck : Check.evenLength x.length k.width s!"{k.name} array" with
  | error f =>
    rw [IntegerKind.array, hcheck]
    rfl
  | ok u =>
    have hdvd := (Check.evenLength_eq_ok k.width_ne_zero).mp hcheck
    have hfits : 0 + x.length / k.width * k.width ≤ x.length := by
      rw [Nat.zero_add]
      exact Nat.div_mul_le_self _ _
    show r.take k o (x.length / k.width) ⟨x, 0⟩ = _
    rw [take_eq_ok hr hfits, IntegerKind.array_of_dvd hdvd]
    simp only [Nat.zero_add]

theorem standard_faithful : standard.Faithful := by
  intro k o s h
  have hlength := Bytes.length_window h
  rw [next, standard, if_pos h]
  by_cases hk : k.width = 1
  · rw [orderFor, if_pos hk, IntegerKind.read_single (hlength.trans hk) _ o]
  · rw [orderFor, if_neg hk]
    rfl

/-! ## The views together -/

/-- Questions for integers are answered with what is read from a stream. -/
def Answers (r : IntegerReader) (σ : Store) (s : SequenceId) (o : ByteOrder) (x : Bytes) : Prop :=
  ∀ (k : IntegerKind) (i : Int),
    σ.query s (.integerAt k i) = (r.readAt k o x i).map (Query.numbered k) ∧
    σ.query s (.integer k) = (r.exact k o x).map (Query.numbered k) ∧
    σ.query s (.integers k) = (r.array k o x).map .ints

theorem answers_of_faithful {σ : Store} {s : SequenceId} {q : Sequence} (hr : r.Faithful)
    (h : σ.Holds s q x) : r.Answers σ s q.order x := by
  intro k i
  rw [readAt_eq hr, exact_eq hr, array_eq hr, h.query, h.query, h.query]
  exact ⟨rfl, rfl, rfl⟩

/-- How the integers read from a sequence `s` with the content `x` go together. -/
structure ViewsAgree (r : IntegerReader) (σ : Store) (s : SequenceId) (o : ByteOrder)
    (x : Bytes) : Prop where
  answered : r.Answers σ s o x
  /-- What is read at an index is the two's complement number of a slice there, or its residue
  where the kind has no sign. -/
  sliced : ∀ (k : IntegerKind) (i : Int), 0 ≤ i → i + k.width ≤ x.length →
    ∃ t w σ', (Call.convert s (.slice (some i) (some (i + k.width)) none)).run σ =
        (.ok (.sequence t), σ') ∧
      σ'.query t .bigInteger = .ok (.int w) ∧
      r.readAt k o x i = .ok (if k.isSigned then w else w % 2 ^ (8 * k.width))
  sliced_refused : ∀ (k : IntegerKind) (i : Int),
    (∃ f, r.readAt k o x i = .error f ∧ f.kind = .state) ↔ i < 0 ∨ x.length < i + k.width
  /-- A sequence of the width of a kind is read as it is read at its start. -/
  exact : ∀ k : IntegerKind, x.length = k.width →
    ∃ v, r.exact k o x = .ok v ∧ r.readAt k o x 0 = .ok v
  exact_refused : ∀ k : IntegerKind,
    (∃ f, r.exact k o x = .error f ∧ f.kind = .state) ↔ x.length ≠ k.width
  /-- The integers that fill a sequence are those read at the multiples of the width. -/
  filled : ∀ k : IntegerKind, k.width ∣ x.length →
    ∃ vs, r.array k o x = .ok vs ∧ vs.length * k.width = x.length ∧
      ∀ (j : Nat) (hj : j < vs.length), r.readAt k o x (j * k.width) = .ok vs[j]
  filled_refused : ∀ k : IntegerKind,
    (∃ f, r.array k o x = .error f ∧ f.kind = .state) ↔ ¬ k.width ∣ x.length

/-- The views of a sequence as integers agree. -/
theorem views_agree {σ : Store} {s : SequenceId} {q : Sequence} (hr : r.Faithful)
    (h : σ.Holds s q x) : r.ViewsAgree σ s q.order x where
  answered := answers_of_faithful hr h
  sliced k i h0 hi := by
    obtain ⟨i, rfl⟩ := Int.eq_ofNat_of_zero_le h0
    have hinside : i + k.width ≤ x.length := by omega
    have hslice := Layout.slice_window hinside
    refine ⟨_, signedValue q.order (x.window i k.width), _, Call.run_slice h hslice, ?_, ?_⟩
    · rw [(Store.holds_created ..).query]
      rfl
    · rw [readAt_eq hr, IntegerKind.readAt_of_le hinside,
        IntegerKind.read_eq (Bytes.length_window hinside)]
  sliced_refused k i := by
    rw [readAt_eq hr]
    exact refused_iff_of_pure.trans Check.readInside_refused
  exact k hk := by
    have hstart : k.readAt q.order x 0 = .ok (k.read q.order x) := by
      have hinside : 0 + k.width ≤ x.length := by omega
      have hread := IntegerKind.readAt_of_le hinside q.order
      rwa [Bytes.window_whole hk] at hread
    have hwhole := IntegerKind.exact_of_length hk q.order
    exact ⟨_, (exact_eq hr ..).trans hwhole, (readAt_eq hr ..).trans hstart⟩
  exact_refused k := by
    rw [exact_eq hr]
    refine (refused_iff_of_pure.trans Check.exactLength_refused).trans ?_
    rw [Ne, Ne, Int.ofNat_inj]
  filled k hk := by
    refine ⟨_, (array_eq hr ..).trans (IntegerKind.array_of_dvd hk _), ?_, ?_⟩
    · rw [List.length_map, List.length_range, Nat.div_mul_cancel hk]
    · intro j hj
      rw [List.length_map, List.length_range] at hj
      have hinside : j * k.width + k.width ≤ x.length := by
        rw [← Nat.succ_mul, ← Nat.div_mul_cancel hk]
        exact Nat.mul_le_mul_right _ hj
      rw [readAt_eq hr, List.getElem_map, List.getElem_range]
      exact IntegerKind.readAt_of_le hinside q.order
  filled_refused k := by
    rw [array_eq hr]
    exact refused_iff_of_pure.trans (Check.evenLength_refused k.width_ne_zero)

/-- Three bytes read from the least significant one on. -/
theorem views_agree_three :
    let σ : Store := ⟨[[1, 2, 255]], [⟨.mutable, .little, 0, none⟩], []⟩
    standard.Faithful ∧ σ.Holds 0 ⟨.mutable, .little, 0, none⟩ [1, 2, 255] ∧
      standard.ViewsAgree σ 0 .little [1, 2, 255] :=
  have h := ⟨rfl, rfl⟩
  ⟨standard_faithful, h, views_agree standard_faithful h⟩

end IntegerReader
end Octets
