import Octets.Proofs.TwosComplement
/-!
# Integers packed in a fixed width

An integer is packed in `width` bytes if it has a signed or an unsigned form there, and it is
packed as its residue (`pack_eq`). A list of them is packed residue by residue, or one that does
not fit is refused (`packAll_eq_ok`, `packAll_refused`). Read back as integers of a kind that
has a sign, each is the one in the range of the kind that it is congruent to
(`IntegerKind.array_packed`); and the integers that fill a string pack to that string
(`IntegerKind.packAll_chunks`). For sequences, through any faithful reader:
`IntegerReader.packing_inverse`.
-/

namespace Octets

/-! ## Packing -/

/-- Whether an integer has a signed or an unsigned form in `width` bytes. -/
def Packable (width : Nat) (v : Int) : Prop :=
  -2 ^ (8 * width - 1) ≤ v ∧ v < 2 ^ (8 * width)

/-- `w` is the integer with a sign of `8 * width` bits that `v` is congruent to. -/
structure WrapsTo (width : Nat) (v w : Int) : Prop where
  lower : -2 ^ (8 * width - 1) ≤ w
  upper : w < 2 ^ (8 * width - 1)
  congruent : w % 2 ^ (8 * width) = v % 2 ^ (8 * width)

variable {width : Nat} {v : Int} {vs : List Int} {o : ByteOrder}

theorem two_pow_width (h : 0 < width) : (2 : Int) ^ (8 * width) = 2 * 2 ^ (8 * width - 1) := by
  obtain ⟨k, hk⟩ : ∃ k, 8 * width = k + 1 := ⟨8 * width - 1, by omega⟩
  rw [hk, Nat.add_sub_cancel, Int.pow_succ, Int.mul_comm]

theorem pack_eq (h : 0 < width) (v : Int) (o : ByteOrder) : pack v width o =
    if -2 ^ (8 * width - 1) ≤ v ∧ v < 2 ^ (8 * width) then .ok (residue width v o)
    else .error (.tooWide v width) := by
  have hrange : -2 ^ (8 * width) ≤ 2 * v ↔ -2 ^ (8 * width - 1) ≤ v := by
    rw [two_pow_width h]
    omega
  simp only [pack, residue, hrange]

theorem pack_of_packable (h : 0 < width) (hv : Packable width v) (o : ByteOrder) :
    pack v width o = .ok (residue width v o) :=
  (pack_eq h v o).trans (if_pos hv)

theorem pack_refused (h : 0 < width) (hv : ¬ Packable width v) (o : ByteOrder) :
    pack v width o = .error (.tooWide v width) :=
  (pack_eq h v o).trans (if_neg hv)

theorem packAll_eq_ok (h : 0 < width) (hvs : ∀ v ∈ vs, Packable width v) (o : ByteOrder) :
    packAll width o vs = .ok (vs.flatMap (residue width · o)) := by
  induction vs with
  | nil => rfl
  | cons v vs ih =>
    rw [packAll, pack_of_packable h (hvs v (List.mem_cons_self ..)),
      ih fun w hw => hvs w (List.mem_cons_of_mem _ hw)]
    rfl

theorem packAll_refused (h : 0 < width) (hvs : ¬ ∀ v ∈ vs, Packable width v) (o : ByteOrder) :
    ∃ v ∈ vs, ¬ Packable width v ∧ packAll width o vs = .error (.tooWide v width) := by
  induction vs with
  | nil => simp at hvs
  | cons v vs ih =>
    rw [packAll]
    by_cases hv : Packable width v
    · obtain ⟨w, hw, hfits, hrest⟩ := ih (by simpa [hv] using hvs)
      refine ⟨w, List.mem_cons_of_mem _ hw, hfits, ?_⟩
      rw [pack_of_packable h hv, hrest]
      rfl
    · refine ⟨v, List.mem_cons_self .., hv, ?_⟩
      rw [pack_refused h hv]
      rfl

/-- The ends of the range, packed: the greatest unsigned integer has the form of -1. -/
example : packAll 1 .big [-128, 127, 255] = .ok [128, 127, 255] ∧
    packAll 1 .big [-1, -129] = .error (.tooWide (-129) 1) ∧
    packAll 1 .big [256] = .error (.tooWide 256 1) := by
  decide +kernel

theorem wrapsTo_bmod (h : 0 < width) (v : Int) :
    WrapsTo width v (Int.bmod v (2 ^ (8 * width))) := by
  have hpos : 0 < 2 ^ (8 * width) := Nat.two_pow_pos _
  have hlow := Int.le_bmod (x := v) hpos
  have hhigh := Int.bmod_lt (x := v) hpos
  have hmod := Int.bmod_emod (x := v) (m := 2 ^ (8 * width))
  have htop := two_pow_width h
  push_cast at hlow hhigh hmod
  exact ⟨by omega, by omega, hmod⟩

/-! ## Integers that fill a string -/

namespace IntegerKind

variable {k : IntegerKind} {x : Bytes}

theorem width_pos (k : IntegerKind) : 0 < k.width := Nat.succ_pos _

theorem read_residue (hk : k.isSigned = true) (v : Int) (o : ByteOrder) :
    k.read o (residue k.width v o) = Int.bmod v (2 ^ (8 * k.width)) := by
  rw [read_eq (length_residue ..), if_pos hk, signedValue_residue]

theorem residue_read (hk : k.isSigned = true) (hx : x.length = k.width) (o : ByteOrder) :
    residue k.width (k.read o x) o = x := by
  rw [read_eq hx, if_pos hk, ← hx, residue_signedValue]

theorem packable_read (hk : k.isSigned = true) (hx : x.length = k.width) (o : ByteOrder) :
    Packable k.width (k.read o x) := by
  obtain ⟨hlow, hhigh⟩ := fitsSigned_signedValue o x
  have htop := two_pow_width k.width_pos
  rw [hx] at hlow hhigh
  rw [read_eq hx, if_pos hk]
  exact ⟨by omega, by omega⟩

theorem array_of_whole (hx : Whole k.lastByte x) (o : ByteOrder) :
    k.array o x = .ok ((chunks k.lastByte x).map (k.read o)) := by
  have hdvd : k.width ∣ x.length := Nat.dvd_of_mod_eq_zero hx.length_mod
  rw [array, (Check.evenLength_eq_ok k.width_ne_zero).mpr hdvd]
  rfl

theorem whole_packed (k : IntegerKind) (vs : List Int) (o : ByteOrder) :
    Whole k.lastByte (vs.flatMap (residue k.width · o)) := by
  induction vs with
  | nil => exact .nil
  | cons v vs ih => exact .block (length_residue ..) ih

theorem chunks_packed (k : IntegerKind) (vs : List Int) (o : ByteOrder) :
    chunks k.lastByte (vs.flatMap (residue k.width · o)) = vs.map (residue k.width · o) := by
  induction vs with
  | nil => exact chunks_nil _
  | cons v vs ih =>
    have hfirst : (residue k.width v o).length = k.lastByte + 1 := length_residue ..
    rw [List.flatMap_cons, chunks_append _ _ _ hfirst, ih, List.map_cons]

/-- What has been packed is read back as the integers that it wraps to. -/
theorem array_packed (hk : k.isSigned = true) (vs : List Int) (o : ByteOrder) :
    k.array o (vs.flatMap (residue k.width · o)) =
      .ok (vs.map (Int.bmod · (2 ^ (8 * k.width)))) := by
  rw [array_of_whole (whole_packed k vs o), chunks_packed]
  simp [read_residue hk]

/-- One integer that has been packed is read back as a whole. -/
theorem exact_packed (hk : k.isSigned = true) (v : Int) (o : ByteOrder) :
    k.exact o (residue k.width v o) = .ok (Int.bmod v (2 ^ (8 * k.width))) := by
  rw [exact_of_length (length_residue ..), read_residue hk]

/-- The integers that fill a string pack to that string. -/
theorem packAll_chunks (hk : k.isSigned = true) (hx : Whole k.lastByte x) (o : ByteOrder) :
    packAll k.width o ((chunks k.lastByte x).map (k.read o)) = .ok x := by
  induction hx with
  | nil => simp [chunks_nil, packAll]
  | @block b x hb hx ih =>
    have hfirst := pack_of_packable k.width_pos (packable_read hk hb o) o
    rw [residue_read hk hb] at hfirst
    rw [chunks_append _ b x hb, List.map_cons, packAll, hfirst, ih]
    rfl

end IntegerKind

/-! ## Constructions that pack -/

/-- The constructions that pack integers of a kind in an order. One byte is packed in the
standard order, which is the big one. -/
inductive Construction.Packs : Construction → IntegerKind → List Int → ByteOrder → Prop
  | byte (v : Int) : Packs (.ofByte v) .byte [v] .big
  | one {order : Option String} {o : ByteOrder} {k : IntegerKind} (v : Int)
      (ho : ByteOrder.named order = .ok o) (hk : k.isSigned = true) :
      Packs (.ofInteger k v order) k [v] o
  | many {order : Option String} {o : ByteOrder} {k : IntegerKind} (vs : List Int)
      (ho : ByteOrder.named order = .ok o) (hk : k.isSigned = true) :
      Packs (.ofIntegers k vs order) k vs o

theorem packAll_singleton (width : Nat) (v : Int) (o : ByteOrder) :
    packAll width o [v] = pack v width o := by
  rw [packAll]
  cases pack v width o with
  | error f => rfl
  | ok x => exact congrArg Except.ok (List.append_nil x)

namespace Construction.Packs

variable {c : Construction} {k : IntegerKind}

theorem isSigned (hc : c.Packs k vs o) : k.isSigned = true := by
  cases hc with
  | byte v => rfl
  | one v ho hk => exact hk
  | many vs ho hk => exact hk

theorem plan_eq (hc : c.Packs k vs o) (variant : Variant) (σ : Store) :
    c.plan variant σ = (packAll k.width o vs).map fun x => (.own x, o) := by
  cases hc with
  | byte v =>
    rw [packAll_singleton]
    rfl
  | one v ho hk =>
    rw [packAll_singleton]
    exact ownBy_eq ho (pack v k.width)
  | many vs ho hk => exact ownBy_eq ho fun o => packAll k.width o vs

end Construction.Packs

/-! ## Packing and reading back -/

/-- What comes of a construction on a store that packs integers `vs`, and what a reader reads
back. -/
structure IntegerReader.PacksAndReads (r : IntegerReader) (σ : Store) (variant : Variant)
    (c : Construction) (k : IntegerKind) (vs : List Int) (o : ByteOrder) : Prop where
  accepted : (∃ t σ', (Call.construct variant c).run σ = (.ok (.sequence t), σ')) ↔
    ∀ v ∈ vs, Packable k.width v
  refused : (∃ f, (Call.construct variant c).run σ = (.error f, σ) ∧ f.kind = .bounds) ↔
    ¬ ∀ v ∈ vs, Packable k.width v
  /-- The new sequence is read as the integers that the packed ones wrap to, one after another
  and, if there is one only, as a whole. -/
  read : ∀ {t : SequenceId} {σ' : Store},
    (Call.construct variant c).run σ = (.ok (.sequence t), σ') → ∃ x ws,
      σ'.Holds t ⟨variant, o, σ.buffers.length, none⟩ x ∧
      List.Forall₂ (WrapsTo k.width) vs ws ∧
      r.array k o x = .ok ws ∧ σ'.query t (.integers k) = .ok (.ints ws) ∧
      ∀ w, ws = [w] → r.exact k o x = .ok w ∧ σ'.query t (.integer k) = .ok (.int w)

/-- How packing integers and reading them go together on a store. -/
structure IntegerReader.PackingInverse (r : IntegerReader) (σ : Store) : Prop where
  packed : ∀ {c : Construction} {k : IntegerKind} {vs : List Int} {o : ByteOrder},
    c.Packs k vs o → ∀ variant : Variant, r.PacksAndReads σ variant c k vs o
  /-- The integers that fill a sequence make an equal one in its order. -/
  unpacked : ∀ {s : SequenceId} {q : Sequence} {x : Bytes} {k : IntegerKind},
    σ.Holds s q x → k.isSigned = true → k.width ∣ x.length →
    ∃ vs, r.array k q.order x = .ok vs ∧ σ.query s (.integers k) = .ok (.ints vs) ∧
      ∀ (variant : Variant) (order : Option String), ByteOrder.named order = .ok q.order →
        ∃ t σ', (Call.construct variant (.ofIntegers k vs order)).run σ =
            (.ok (.sequence t), σ') ∧
          σ'.Holds t ⟨variant, q.order, σ.buffers.length, none⟩ x ∧
          σ'.query t (.equals (.sequence s)) = .ok (.bool true)

namespace IntegerReader

variable {r : IntegerReader} {σ : Store} {c : Construction} {k : IntegerKind}

theorem run_packed (hc : c.Packs k vs o) (hvs : ∀ v ∈ vs, Packable k.width v) (σ : Store)
    (variant : Variant) : (Call.construct variant c).run σ = (.ok (.sequence σ.sequences.length),
      σ.created variant o (vs.flatMap (residue k.width · o))) := by
  apply Call.run_construct
  rw [hc.plan_eq, packAll_eq_ok k.width_pos hvs]
  rfl

theorem run_unpacked (hc : c.Packs k vs o) (hvs : ¬ ∀ v ∈ vs, Packable k.width v) (σ : Store)
    (variant : Variant) :
    ∃ f, (Call.construct variant c).run σ = (.error f, σ) ∧ f.kind = .bounds := by
  obtain ⟨v, -, -, hv⟩ := packAll_refused k.width_pos hvs o
  refine ⟨.tooWide v k.width, Call.run_construct_refused ?_, rfl⟩
  rw [hc.plan_eq, hv]
  rfl

theorem packable_of_run (hc : c.Packs k vs o) {variant : Variant} {t : SequenceId} {σ' : Store}
    (hrun : (Call.construct variant c).run σ = (.ok (.sequence t), σ')) :
    ∀ v ∈ vs, Packable k.width v := by
  by_contra hvs
  obtain ⟨f, hf, -⟩ := run_unpacked hc hvs σ variant
  cases hrun.symm.trans hf

theorem forall₂_wrapsTo (k : IntegerKind) (vs : List Int) :
    List.Forall₂ (WrapsTo k.width) vs (vs.map (Int.bmod · (2 ^ (8 * k.width)))) := by
  induction vs with
  | nil => exact .nil
  | cons v vs ih => exact .cons (wrapsTo_bmod k.width_pos v) ih

theorem packs_and_reads (hr : r.Faithful) (hc : c.Packs k vs o) (σ : Store) (variant : Variant) :
    r.PacksAndReads σ variant c k vs o where
  accepted := by
    constructor
    · rintro ⟨t, σ', hrun⟩
      exact packable_of_run hc hrun
    · intro hvs
      exact ⟨_, _, run_packed hc hvs σ variant⟩
  refused := by
    constructor
    · rintro ⟨f, hf, -⟩ hvs
      cases hf.symm.trans (run_packed hc hvs σ variant)
    · intro hvs
      exact run_unpacked hc hvs σ variant
  read := by
    intro t σ' hrun
    cases hrun.symm.trans (run_packed hc (packable_of_run hc hrun) σ variant)
    have hholds := Store.holds_created σ variant o (vs.flatMap (residue k.width · o))
    have harray := IntegerKind.array_packed hc.isSigned vs o
    refine ⟨_, _, hholds, forall₂_wrapsTo k vs, (array_eq hr ..).trans harray, ?_, ?_⟩
    · rw [hholds.query]
      exact congrArg (Except.map Value.ints) harray
    · intro w hw
      obtain ⟨v, rfl, rfl⟩ := List.map_eq_singleton_iff.mp hw
      have hexact := IntegerKind.exact_packed hc.isSigned v o
      rw [List.flatMap_singleton] at hholds ⊢
      refine ⟨(exact_eq hr ..).trans hexact, ?_⟩
      rw [hholds.query]
      show (k.exact o _).map (Query.numbered k) = _
      rw [hexact, Except.map, Query.numbered, if_neg]
      rintro rfl
      cases hc.isSigned

theorem packing_inverse (hr : r.Faithful) (σ : Store) : r.PackingInverse σ where
  packed hc variant := packs_and_reads hr hc σ variant
  unpacked := by
    intro s q x k hs hk hx
    have hwhole : Whole k.lastByte x := whole_of_length (Nat.mod_eq_zero_of_dvd hx)
    have harray := IntegerKind.array_of_whole hwhole q.order
    refine ⟨_, (array_eq hr ..).trans harray, ?_, fun variant order ho => ?_⟩
    · rw [hs.query]
      exact congrArg (Except.map Value.ints) harray
    · have hholds := Store.holds_created σ variant q.order x
      refine ⟨_, _, Call.run_construct ?_, hholds, ?_⟩
      · rw [(Construction.Packs.many _ ho hk).plan_eq, IntegerKind.packAll_chunks hk hwhole]
        rfl
      · have hold := hs.created variant q.order x
        rw [hholds.query]
        show (Query.equal _ q.order x (.sequence s)).map Value.bool = _
        rw [Query.equal, hold.sequence?]
        show Except.map _ (Store.buffer? _ q.buffer >>= _) = _
        rw [hold.buffer?]
        simp [bind, Except.bind, pure, Except.pure, Except.map]

theorem packing_inverse_standard :
    let σ : Store := ⟨[[0, 0, 0, 128]], [⟨.mutable, .little, 0, none⟩], []⟩
    standard.Faithful ∧ standard.PackingInverse σ :=
  ⟨standard_faithful, packing_inverse standard_faithful _⟩

end IntegerReader

end Octets
