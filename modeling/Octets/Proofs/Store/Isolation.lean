import Octets.Proofs.Store.Run
/-!
# Immutable sequences are isolated

An array that an immutable sequence looks at is sealed: the caller never holds it and no
mutable sequence looks at it. Every permitted call keeps the sealed arrays apart and
leaves what is in them as it is, and so does every run.
-/

namespace Octets

/-- An array is sealed if an immutable sequence looks at it. -/
def Store.Sealed (σ : Store) (b : BufferId) : Prop :=
  ∃ q ∈ σ.sequences, q.variant = .immutable ∧ q.buffer = b

/-- Every immutable sequence is there as before, but for what its hash was taken of. -/
def Store.Keeps (σ σ' : Store) : Prop :=
  ∀ s q x, q.variant = .immutable → σ.Holds s q x → ∃ k, σ'.Holds s { q with hashed := k } x

/-- Every array that is named is there, and the sealed ones are kept apart. -/
structure World.Isolated (w : World) : Prop where
  bounded : ∀ q ∈ w.store.sequences, q.buffer < w.store.buffers.length
  held_bounded : ∀ b ∈ w.held, b < w.store.buffers.length
  held_open : ∀ b ∈ w.held, ¬ w.store.Sealed b
  mutable_open : ∀ q ∈ w.store.sequences, q.variant = .mutable → ¬ w.store.Sealed q.buffer

/-- What a step does to an isolated world. -/
structure World.Evolves (w w' : World) : Prop where
  isolated : w'.Isolated
  keeps : w.store.Keeps w'.store

namespace World

/-! ## Steps one after another -/

theorem Isolated.evolves_refl {w : World} (h : w.Isolated) : w.Evolves w where
  isolated := h
  keeps := fun _ q _ _ hs => ⟨q.hashed, hs⟩

theorem Evolves.trans {w w' w'' : World} (h : w.Evolves w') (h' : w'.Evolves w'') :
    w.Evolves w'' where
  isolated := h'.isolated
  keeps := by
    intro s q x hq hs
    obtain ⟨k, hk⟩ := h.keeps s q x hq hs
    obtain ⟨k', hk'⟩ := h'.keeps s { q with hashed := k } x hq hk
    exact ⟨k', hk'⟩

/-! ## Changes -/

variable {σ : Store} {held : List BufferId}

theorem Isolated.holds_or_absent (h : (⟨σ, held⟩ : World).Isolated) (s : SequenceId) :
    σ.sequences[s]? = none ∨ ∃ q x, σ.Holds s q x := by
  cases hs : σ.sequences[s]? with
  | none => exact .inl rfl
  | some q =>
    right
    have hb : q.buffer < σ.buffers.length := h.bounded q (List.mem_of_getElem? hs)
    exact ⟨q, σ.buffers[q.buffer], hs, List.getElem?_eq_getElem hb⟩

theorem Isolated.allocated (h : (⟨σ, held⟩ : World).Isolated) (x : Bytes) :
    (⟨σ, held⟩ : World).Evolves ⟨σ.allocated x, held⟩ where
  isolated := by
    have hlength : (σ.allocated x).buffers.length = σ.buffers.length + 1 := by
      simp [Store.allocated]
    constructor
    · intro q hq
      show q.buffer < (σ.allocated x).buffers.length
      rw [hlength]
      exact Nat.lt_succ_of_lt (h.bounded q hq)
    · intro b hb
      show b < (σ.allocated x).buffers.length
      rw [hlength]
      exact Nat.lt_succ_of_lt (h.held_bounded b hb)
    · exact h.held_open
    · exact h.mutable_open
  keeps := fun _ q _ _ hs => ⟨q.hashed, hs.allocated x⟩

theorem Isolated.granted (h : (⟨σ, held⟩ : World).Isolated) {b : BufferId}
    (hb : b < σ.buffers.length) (ho : ¬ σ.Sealed b) :
    (⟨σ, held⟩ : World).Evolves ⟨σ, b :: held⟩ where
  isolated := by
    refine ⟨h.bounded, ?_, ?_, h.mutable_open⟩
    · intro c hc
      rcases List.mem_cons.mp hc with rfl | hc
      · exact hb
      · exact h.held_bounded c hc
    · intro c hc
      rcases List.mem_cons.mp hc with rfl | hc
      · exact ho
      · exact h.held_open c hc
  keeps := h.evolves_refl.keeps

/-- An array may be written unless it is sealed. -/
theorem Isolated.written (h : (⟨σ, held⟩ : World).Isolated) {b : BufferId}
    (ho : ¬ σ.Sealed b) (x : Bytes) : (⟨σ, held⟩ : World).Evolves ⟨σ.written b x, held⟩ where
  isolated := by
    have hlength : (σ.written b x).buffers.length = σ.buffers.length := by
      simp [Store.written]
    constructor
    · intro q hq
      show q.buffer < (σ.written b x).buffers.length
      rw [hlength]
      exact h.bounded q hq
    · intro c hc
      show c < (σ.written b x).buffers.length
      rw [hlength]
      exact h.held_bounded c hc
    · exact h.held_open
    · exact h.mutable_open
  keeps := by
    intro s q y hq hs
    have hne : b ≠ q.buffer := by
      intro hb
      exact ho ⟨q, hs.mem, hq, hb.symm⟩
    exact ⟨q.hashed, hs.written_of_ne hne x⟩

/-- A new immutable sequence needs an array that nobody may write, a new mutable one an
array that is not sealed. -/
theorem Isolated.adopted (h : (⟨σ, held⟩ : World).Isolated) {v : Variant} {b : BufferId}
    (o : ByteOrder) (hb : b < σ.buffers.length)
    (hi : v = .immutable →
      b ∉ held ∧ ∀ r ∈ σ.sequences, r.variant = .mutable → r.buffer ≠ b)
    (hm : v = .mutable → ¬ σ.Sealed b) :
    (⟨σ, held⟩ : World).Evolves ⟨σ.adopted v o b, held⟩ where
  isolated := by
    have hmem {q : Sequence} (hq : q ∈ (σ.adopted v o b).sequences) :
        q ∈ σ.sequences ∨ q = ⟨v, o, b, none⟩ := by
      simpa [Store.adopted] using hq
    constructor
    · intro q hq
      rcases hmem hq with hq | rfl
      · exact h.bounded q hq
      · exact hb
    · exact h.held_bounded
    · rintro c hc ⟨q, hq, hv, rfl⟩
      rcases hmem hq with hq | rfl
      · exact h.held_open _ hc ⟨q, hq, hv, rfl⟩
      · exact (hi hv).1 hc
    · rintro r hr hrv ⟨q, hq, hv, hqb⟩
      rcases hmem hr with hr | rfl
      · rcases hmem hq with hq | rfl
        · exact h.mutable_open r hr hrv ⟨q, hq, hv, hqb⟩
        · exact (hi hv).2 r hr hrv hqb.symm
      · rcases hmem hq with hq | rfl
        · exact hm hrv ⟨q, hq, hv, hqb⟩
        · have hvv : Variant.immutable = Variant.mutable := hv.symm.trans hrv
          cases hvv
  keeps := fun _ q _ _ hs => ⟨q.hashed, hs.adopted v o b⟩

/-- A new sequence with an array of its own shares it with nobody. -/
theorem Isolated.created (h : (⟨σ, held⟩ : World).Isolated) (v : Variant) (o : ByteOrder)
    (x : Bytes) : (⟨σ, held⟩ : World).Evolves ⟨σ.created v o x, held⟩ := by
  have hnew := h.allocated x
  refine hnew.trans (hnew.isolated.adopted o ?_ ?_ ?_)
  · simp [Store.allocated]
  · intro _
    constructor
    · intro hb
      exact Nat.lt_irrefl _ (h.held_bounded _ hb)
    · intro r hr _ hb
      exact Nat.ne_of_lt (h.bounded r hr) hb
  · rintro _ ⟨q, hq, _, hb⟩
    exact Nat.ne_of_lt (h.bounded q hq) hb

theorem Isolated.watched (h : (⟨σ, held⟩ : World).Isolated) (b : BufferId) :
    (⟨σ, held⟩ : World).Evolves ⟨σ.watched b, held⟩ where
  isolated := ⟨h.bounded, h.held_bounded, h.held_open, h.mutable_open⟩
  keeps := fun _ q _ _ hs => ⟨q.hashed, hs.sequence, hs.content⟩

theorem Isolated.released (h : (⟨σ, held⟩ : World).Isolated) (v : ViewId) :
    (⟨σ, held⟩ : World).Evolves ⟨σ.released v, held⟩ where
  isolated := ⟨h.bounded, h.held_bounded, h.held_open, h.mutable_open⟩
  keeps := fun _ q _ _ hs => ⟨q.hashed, hs.sequence, hs.content⟩

theorem Isolated.remembered (h : (⟨σ, held⟩ : World).Isolated) (s : SequenceId)
    (key : Bytes × ByteOrder) :
    (⟨σ, held⟩ : World).Evolves ⟨σ.remembered s key, held⟩ where
  isolated := by
    have hsealed {b : BufferId} (hb : (σ.remembered s key).Sealed b) : σ.Sealed b := by
      obtain ⟨q, hq, hv, rfl⟩ := hb
      obtain ⟨r, k, hr, rfl⟩ := Store.mem_remembered hq
      exact ⟨r, hr, hv, rfl⟩
    constructor
    · intro q hq
      obtain ⟨r, k, hr, rfl⟩ := Store.mem_remembered hq
      exact h.bounded r hr
    · exact h.held_bounded
    · intro b hb hs
      exact h.held_open b hb (hsealed hs)
    · intro q hq hv hs
      obtain ⟨r, k, hr, rfl⟩ := Store.mem_remembered hq
      exact h.mutable_open r hr hv (hsealed hs)
  keeps := fun _ _ _ _ hs => hs.remembered s key

/-! ## Operations -/

variable {s : SequenceId} {q : Sequence} {x : Bytes}

/-- An operation on a sequence that is not there changes nothing. -/
theorem Isolated.absent {α : Type} (h : (⟨σ, held⟩ : World).Isolated)
    (hs : σ.sequences[s]? = none) (k : Sequence → StoreM α) :
    (⟨σ, held⟩ : World).Evolves
      ⟨((StoreM.reading (·.sequence? s) >>= k).exec σ).2, held⟩ := by
  rw [StoreM.exec_absent hs]
  exact h.evolves_refl

theorem Isolated.construct (h : (⟨σ, held⟩ : World).Isolated) (v : Variant)
    {c : Construction} (hc : ∀ b, c.array? = some b → b ∈ held) :
    (⟨σ, held⟩ : World).Evolves ⟨((StoreM.construct v c).exec σ).2, held⟩ := by
  rw [StoreM.exec_construct]
  rcases hplan : c.plan v σ with f | ⟨b | x, o⟩
  · exact h.evolves_refl
  · obtain ⟨hv, hb, hlt⟩ := Construction.plan_shared hplan
    exact h.adopted o hlt (fun hi => absurd hi hv) (fun _ => h.held_open b (hc b hb))
  · exact h.created v o x

/-- A sequence that looks where another one of its variant does. -/
theorem Isolated.duplicate (h : (⟨σ, held⟩ : World).Isolated) (hs : σ.Holds s q x)
    (o : ByteOrder) :
    (⟨σ, held⟩ : World).Evolves ⟨σ.adopted q.variant o q.buffer, held⟩ := by
  apply h.adopted o hs.lt
  · intro hv
    have hsealed : σ.Sealed q.buffer := ⟨q, hs.mem, hv, rfl⟩
    constructor
    · intro hb
      exact h.held_open _ hb hsealed
    · intro r hr hrv hb
      exact h.mutable_open r hr hrv (hb ▸ hsealed)
  · exact h.mutable_open q hs.mem

theorem Isolated.convert (h : (⟨σ, held⟩ : World).Isolated) (s : SequenceId)
    (c : Conversion) :
    (⟨σ, held⟩ : World).Evolves ⟨((StoreM.convert s c).exec σ).2, held⟩ := by
  rcases h.holds_or_absent s with hs | ⟨q, x, hs⟩
  · exact h.absent hs _
  rw [StoreM.exec_convert hs]
  cases c with
  | toImmutable => exact h.created .immutable q.order x
  | toMutable => exact h.created .mutable q.order x
  | toReadOnly =>
    by_cases hv : q.variant = .readOnly
    · simp only [hv, if_true]
      exact h.evolves_refl
    · simp only [hv, if_false]
      exact h.adopted q.order hs.lt nofun nofun
  | duplicate => exact h.duplicate hs q.order
  | withOrder order =>
    cases ho : ByteOrder.named order with
    | ok o =>
      simp only [ho]
      exact h.duplicate hs o
    | error f =>
      simp only [ho]
      exact h.evolves_refl
  | slice start stop step =>
    cases hy : Layout.slice start stop step x with
    | ok y =>
      simp only [hy]
      exact h.created q.variant q.order y
    | error f =>
      simp only [hy]
      exact h.evolves_refl

/-- The array of a mutable sequence may be written. -/
theorem Isolated.overwritten (h : (⟨σ, held⟩ : World).Isolated) (hs : σ.Holds s q x)
    (hv : q.variant = .mutable) (y : Bytes) :
    (⟨σ, held⟩ : World).Evolves ⟨σ.written q.buffer y, held⟩ :=
  h.written (h.mutable_open q hs.mem hv) y

theorem Isolated.mutate (h : (⟨σ, held⟩ : World).Isolated) (s : SequenceId) (m : Mutation) :
    (⟨σ, held⟩ : World).Evolves ⟨((StoreM.mutate s m).exec σ).2, held⟩ := by
  rcases h.holds_or_absent s with hs | ⟨q, x, hs⟩
  · rw [StoreM.mutate, StoreM.exec_mutableOnly_absent hs]
    exact h.evolves_refl
  rw [StoreM.exec_mutate hs]
  by_cases hv : q.variant = .mutable
  · rw [if_pos hv]
    cases m.result σ x with
    | ok y => exact h.overwritten hs hv y
    | error f => exact h.evolves_refl
  · rw [if_neg hv]
    exact h.evolves_refl

theorem Isolated.leave (h : (⟨σ, held⟩ : World).Isolated) (s : SequenceId) :
    (⟨σ, held⟩ : World).Evolves ⟨((StoreM.leave s).exec σ).2, held⟩ := by
  rcases h.holds_or_absent s with hs | ⟨q, x, hs⟩
  · rw [StoreM.leave, StoreM.exec_mutableOnly_absent hs]
    exact h.evolves_refl
  rw [StoreM.exec_leave hs]
  by_cases hv : q.variant = .mutable
  · rw [if_pos hv]
    exact h.overwritten hs hv _
  · rw [if_neg hv]
    exact h.evolves_refl

theorem Isolated.enclose (h : (⟨σ, held⟩ : World).Isolated) (s : SequenceId)
    (interrupted : Bool) :
    (⟨σ, held⟩ : World).Evolves ((⟨σ, held⟩ : World).after (.enclose s interrupted)) := by
  rcases h.holds_or_absent s with hs | ⟨q, x, hs⟩
  · rw [after_eq (c := .enclose s interrupted) (StoreM.exec_mutableOnly_absent hs _ _)]
    exact h.evolves_refl
  have hexec := StoreM.exec_enclose hs interrupted
  by_cases hv : q.variant = .mutable
  · rw [if_pos hv] at hexec
    rw [after_eq (c := .enclose s interrupted) hexec]
    cases interrupted with
    | true => exact h.overwritten hs hv _
    | false => exact h.overwritten hs hv _
  · rw [if_neg hv] at hexec
    rw [after_eq (c := .enclose s interrupted) hexec]
    exact h.evolves_refl

/-- The storage of a mutable sequence is handed out, that of any other one is not. -/
theorem Isolated.expose (h : (⟨σ, held⟩ : World).Isolated) (s : SequenceId) {e : Exposure}
    (he : e ≠ .storage) :
    (⟨σ, held⟩ : World).Evolves ((⟨σ, held⟩ : World).after (.expose s e)) := by
  rcases h.holds_or_absent s with hs | ⟨q, x, hs⟩
  · rw [after_eq (c := .expose s e) (StoreM.exec_absent hs _)]
    exact h.evolves_refl
  cases e with
  | storage => exact absurd rfl he
  | view =>
    rw [after_eq (c := .expose s .view) (StoreM.exec_expose hs .view)]
    exact h.watched q.buffer
  | array =>
    have hexec := StoreM.exec_expose hs .array
    cases hv : q.variant with
    | mutable =>
      rw [hv] at hexec
      rw [after_eq (c := .expose s .array) hexec]
      exact h.granted hs.lt (h.mutable_open q hs.mem hv)
    | immutable =>
      rw [hv] at hexec
      rw [after_eq (c := .expose s .array) hexec]
      have hnew := h.allocated x
      refine hnew.trans (hnew.isolated.granted ?_ ?_)
      · simp [Store.allocated]
      · rintro ⟨r, hr, _, hb⟩
        exact Nat.ne_of_lt (h.bounded r hr) hb
    | readOnly =>
      rw [hv] at hexec
      rw [after_eq (c := .expose s .array) hexec]
      exact h.evolves_refl

theorem Isolated.hashKey (h : (⟨σ, held⟩ : World).Isolated) (s : SequenceId) :
    (⟨σ, held⟩ : World).Evolves ⟨((StoreM.hashKey s).exec σ).2, held⟩ := by
  rcases h.holds_or_absent s with hs | ⟨q, x, hs⟩
  · exact h.absent hs _
  rw [StoreM.exec_hashKey hs]
  cases q.variant with
  | mutable => exact h.evolves_refl
  | readOnly => exact h.evolves_refl
  | immutable =>
    cases q.hashed with
    | some key => exact h.evolves_refl
    | none => exact h.remembered s (x, q.order)

/-- An honest transformer writes no sealed array, whatever its answer. -/
theorem Isolated.dispatch (h : (⟨σ, held⟩ : World).Isolated) (hs : σ.Holds s q x)
    {t : Transformer} (ht : t.Honest) :
    (⟨σ, held⟩ : World).Evolves ⟨((StoreM.dispatch s t).exec σ).2, held⟩ := by
  have hwritten : (⟨σ, held⟩ : World).Evolves
      ⟨σ.written q.buffer (StoreM.effect q t x).current, held⟩ := by
    cases hp : StoreM.inPlace q t with
    | false =>
      rw [StoreM.effect, hp, ht x, Store.written_self hs.content]
      exact h.evolves_refl
    | true => exact h.overwritten hs (StoreM.mutable_of_inPlace hp) _
  rw [StoreM.exec_dispatch hs]
  rcases (StoreM.effect q t x).reply with f | (_ | y)
  · exact hwritten
  · show World.Evolves _ ⟨(if StoreM.inPlace q t = true then _ else _ : _ × Store).2, held⟩
    by_cases hp : StoreM.inPlace q t = true
    · rw [if_pos hp]
      exact hwritten
    · rw [if_neg hp]
      exact hwritten.trans (hwritten.isolated.created q.variant q.order _)
  · exact hwritten.trans (hwritten.isolated.created q.variant q.order y)

theorem Isolated.act (h : (⟨σ, held⟩ : World).Isolated) {a : CallerAction}
    (ha : ∀ b, a.target? = some b → b ∈ held) :
    (⟨σ, held⟩ : World).Evolves ((⟨σ, held⟩ : World).after (.caller a)) := by
  have hresult := StoreM.exec_act a σ
  rcases hexec : (StoreM.act a).exec σ with ⟨r, σ'⟩
  rw [hexec] at hresult
  rw [after_eq (c := .caller a) hexec]
  cases hresult with
  | refused f => exact h.evolves_refl
  | allocated x =>
    have hnew := h.allocated x
    refine hnew.trans (hnew.isolated.granted ?_ ?_)
    · simp [Store.allocated]
    · rintro ⟨q, hq, _, hb⟩
      exact Nat.ne_of_lt (h.bounded q hq) hb
  | written b y hb => exact h.written (h.held_open b (ha b hb)) y
  | released v => exact h.released v

/-- What holds of two computations holds of one after the other. -/
theorem Isolated.bind {α β : Type} {m : StoreM α} {k : α → StoreM β}
    (hm : (⟨σ, held⟩ : World).Evolves ⟨(m.exec σ).2, held⟩)
    (hk : ∀ a σ', (⟨σ', held⟩ : World).Isolated →
      (⟨σ', held⟩ : World).Evolves ⟨((k a).exec σ').2, held⟩) :
    (⟨σ, held⟩ : World).Evolves ⟨((m >>= k).exec σ).2, held⟩ := by
  rw [StoreM.exec_bind]
  rcases hexec : m.exec σ with ⟨r, σ'⟩
  rw [hexec] at hm
  cases r with
  | error f => exact hm
  | ok a => exact hm.trans (hk a σ' hm.isolated)

theorem Isolated.request (h : (⟨σ, held⟩ : World).Isolated) (s : SequenceId) {r : Request}
    (hr : (Call.request s r).Permitted held) :
    (⟨σ, held⟩ : World).Evolves ⟨((StoreM.request s r).exec σ).2, held⟩ := by
  rcases h.holds_or_absent s with hs | ⟨q, x, hs⟩
  · exact h.absent hs _
  rw [StoreM.exec_request hs]
  cases ht : r.transform? σ q.order x with
  | error f => exact h.evolves_refl
  | ok t =>
    apply h.dispatch hs
    rcases Request.transform?_library ht with rfl | ⟨u, rfl, -⟩
    · exact hr
    · exact u.honest

/-! ## Calls and runs -/

/-- Every permitted call keeps an isolated world isolated. -/
theorem Isolated.after {w : World} (h : w.Isolated) {c : Call} (hc : c.Permitted w.held) :
    w.Evolves (w.after c) := by
  obtain ⟨σ, held⟩ := w
  cases c with
  | construct v c =>
    rw [after_map (g := .sequence) rfl (fun _ => rfl)]
    exact h.construct v hc
  | query s q =>
    rw [after_eq (c := .query s q) (StoreM.exec_reading _ σ), handedOut_query]
    exact h.evolves_refl
  | sameHash s t =>
    rw [after_map (Call.perform_sameHash s t) (fun _ => rfl)]
    apply Isolated.bind (h.hashKey s)
    intro a σ' h'
    apply Isolated.bind (h'.hashKey t)
    intro b σ'' h''
    exact h''.evolves_refl
  | rank ss =>
    rw [after_eq (c := .rank ss) (StoreM.exec_reading _ σ),
      handedOut_map (g := .sequences) (fun _ => rfl)]
    exact h.evolves_refl
  | request s r =>
    rw [after_map (g := .sequence) rfl (fun _ => rfl)]
    exact h.request s hc
  | convert s c =>
    rw [after_map (g := .sequence) rfl (fun _ => rfl)]
    exact h.convert s c
  | mutate s m =>
    rw [after_map (g := .sequence) rfl (fun _ => rfl)]
    exact h.mutate s m
  | enclose s interrupted => exact h.enclose s interrupted
  | leave s =>
    have hleave : (Call.leave s).perform = (fun _ => Value.bool false) <$> StoreM.leave s := by
      simp only [Call.perform, map_eq_pure_bind]
    rw [after_map hleave (fun _ => rfl)]
    exact h.leave s
  | expose s e => exact h.expose s hc
  | caller a => exact h.act hc

theorem isolated_initial : initial.Isolated where
  bounded := fun _ => nofun
  held_bounded := fun _ => nofun
  held_open := fun _ => nofun
  mutable_open := fun _ => nofun

/-- Whatever the caller does, an isolated world stays isolated. -/
theorem Isolated.run {w w' : World} (h : w.Isolated) (run : w.Run w') : w.Evolves w' := by
  induction run with
  | here => exact h.evolves_refl
  | next run hc ih => exact ih.trans (ih.isolated.after hc)

end World

/-- In every world that the caller can bring about, the array of an immutable sequence is
held by nobody and written by no mutable sequence, and whatever the caller does from
there on, content, length and order of the sequence stay what they are. -/
theorem immutable_isolated {w : World} (hw : World.initial.Run w) {s : SequenceId}
    {q : Sequence} (hs : w.store.sequences[s]? = some q) (hq : q.variant = .immutable) :
    q.buffer ∉ w.held ∧
      (∀ r ∈ w.store.sequences, r.variant = .mutable → r.buffer ≠ q.buffer) ∧
      ∃ x, ∀ w', w.Run w' →
        w'.store.query s .bytes = .ok (.bytes x) ∧
        w'.store.query s .length = .ok (.int x.length) ∧
        w'.store.query s .order = .ok (.order q.order) := by
  have hisolated : w.Isolated := (World.isolated_initial.run hw).isolated
  have hsealed : w.store.Sealed q.buffer := ⟨q, List.mem_of_getElem? hs, hq, rfl⟩
  refine ⟨?_, ?_, ?_⟩
  · intro hheld
    exact hisolated.held_open _ hheld hsealed
  · intro r hr hrv hb
    exact hisolated.mutable_open r hr hrv (hb ▸ hsealed)
  · have hlt : q.buffer < w.store.buffers.length :=
      hisolated.bounded q (List.mem_of_getElem? hs)
    have hholds : w.store.Holds s q w.store.buffers[q.buffer] :=
      ⟨hs, List.getElem?_eq_getElem hlt⟩
    refine ⟨w.store.buffers[q.buffer], ?_⟩
    intro w' hrun
    obtain ⟨k, hk⟩ := (hisolated.run hrun).keeps s q _ hq hholds
    exact ⟨hk.query .bytes, hk.query .length, hk.query .order⟩

/-- A caller wraps an array it has made, takes an immutable copy and writes the array. -/
theorem immutable_isolated_converted :
    let w := [.caller (.create (.bytes [1, 2])), .construct .mutable (.wrap (.buffer 0) none),
      .convert 0 .toImmutable, .caller (.assign 0 [3])].foldl World.after World.initial
    1 ∉ w.held ∧
      (∀ r ∈ w.store.sequences, r.variant = .mutable → r.buffer ≠ 1) ∧
      ∃ x, ∀ w', w.Run w' →
        w'.store.query 1 .bytes = .ok (.bytes x) ∧
        w'.store.query 1 .length = .ok (.int x.length) ∧
        w'.store.query 1 .order = .ok (.order .big) := by
  have hheld : ∀ b, some 0 = some b → b ∈ [0] := by
    intro b hb
    cases hb
    exact List.mem_singleton_self 0
  have h1 : World.initial.Run _ :=
    .next (c := .caller (.create (.bytes [1, 2]))) .here (fun _ => nofun)
  have h2 := h1.next (c := .construct .mutable (.wrap (.buffer 0) none)) hheld
  have h3 := h2.next (c := .convert 0 .toImmutable) trivial
  have h4 := h3.next (c := .caller (.assign 0 [3])) hheld
  exact immutable_isolated (q := ⟨.immutable, .big, 1, none⟩) h4 rfl rfl

end Octets
