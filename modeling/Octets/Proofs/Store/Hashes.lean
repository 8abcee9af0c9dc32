import Octets.Proofs.Store.Handles
import Octets.Proofs.Store.Isolation
/-!
# What hashes are taken of

Equality and hash of a sequence are about its content and its order (`Store.key?`). An
immutable sequence keeps what its hash was first taken of. That is current in every world
that the caller can bring about: no operation but the hash itself keeps anything
(`Call.forgetful`), and what an immutable sequence is does not change. So the hash of a
sequence is at every point of a run taken of what the sequence is then
(`StoreM.exec_hashKey_current`).
-/

namespace Octets

/-- The content and the order of a sequence. -/
def Store.key? (σ : Store) (s : SequenceId) : Outcome (Bytes × ByteOrder) := do
  let q ← σ.sequence? s
  let x ← σ.buffer? q.buffer
  return (x, q.order)

/-- What an immutable sequence has kept for its hash is what it is. -/
def Store.Current (σ : Store) : Prop :=
  ∀ s q x key, σ.Holds s q x → q.variant = .immutable → q.hashed = some key →
    key = (x, q.order)

/-- The sequences are as they were, and no new one has kept anything for its hash. -/
def Store.Unasked (σ σ' : Store) : Prop :=
  ∃ new, σ'.sequences = σ.sequences ++ new ∧ ∀ q ∈ new, q.hashed = none

/-- A computation that keeps nothing for any hash. -/
def StoreM.Forgetful {α : Type} (m : StoreM α) : Prop :=
  ∀ σ : Store, σ.Unasked (m.exec σ).2

namespace Store

variable {σ σ' σ'' : Store} {s : SequenceId} {q : Sequence} {x : Bytes}

theorem Holds.key? (h : σ.Holds s q x) : σ.key? s = .ok (x, q.order) := by
  rw [Store.key?, h.sequence?]
  show (σ.buffer? q.buffer >>= _) = _
  rw [h.buffer?]
  rfl

/-- A sequence of the store has some content. -/
theorem Bounded.holds (h : σ.Bounded) (hs : σ.sequences[s]? = some q) : ∃ x, σ.Holds s q x :=
  ⟨_, hs, List.getElem?_eq_getElem (h q (List.mem_of_getElem? hs))⟩

theorem Unasked.of_eq (h : σ'.sequences = σ.sequences) : σ.Unasked σ' :=
  ⟨[], by rw [h, List.append_nil], nofun⟩

theorem Unasked.refl (σ : Store) : σ.Unasked σ := .of_eq rfl

theorem Unasked.trans (h : σ.Unasked σ') (h' : σ'.Unasked σ'') : σ.Unasked σ'' := by
  obtain ⟨new, hnew, hnone⟩ := h
  obtain ⟨new', hnew', hnone'⟩ := h'
  refine ⟨new ++ new', by rw [hnew', hnew, List.append_assoc], ?_⟩
  intro q hq
  rcases List.mem_append.mp hq with hq | hq
  · exact hnone q hq
  · exact hnone' q hq

theorem unasked_adopted (σ : Store) (v : Variant) (o : ByteOrder) (b : BufferId) :
    σ.Unasked (σ.adopted v o b) := by
  refine ⟨[⟨v, o, b, none⟩], rfl, ?_⟩
  intro q hq
  rw [List.mem_singleton.mp hq]

/-- A sequence that has kept something was there with it. -/
theorem Unasked.sequence {key : Bytes × ByteOrder} (h : σ.Unasked σ')
    (hs : σ'.sequences[s]? = some q) (hq : q.hashed = some key) :
    σ.sequences[s]? = some q := by
  obtain ⟨new, hnew, hnone⟩ := h
  rw [hnew] at hs
  rcases Nat.lt_or_ge s σ.sequences.length with hlt | hge
  · rw [List.getElem?_append_left hlt] at hs
    exact hs
  · rw [List.getElem?_append_right hge] at hs
    rw [hnone q (List.mem_of_getElem? hs)] at hq
    cases hq

end Store

/-! ## What keeps nothing -/

namespace StoreM

variable {α β : Type} {m : StoreM α}

theorem forgetful_pure (a : α) : Forgetful (pure a : StoreM α) := fun σ => .refl σ

theorem forgetful_throw (f : Fault) : Forgetful (throw f : StoreM α) := fun σ => .refl σ

theorem forgetful_reading (f : Store → Outcome α) : Forgetful (reading f) :=
  fun σ => .refl σ

theorem forgetful_allocate (x : Bytes) : Forgetful (allocate x) := fun _ => .of_eq rfl

theorem forgetful_write (b : BufferId) (x : Bytes) : Forgetful (write b x) :=
  fun _ => .of_eq rfl

theorem forgetful_watch (b : BufferId) : Forgetful (watch b) := fun _ => .of_eq rfl

theorem forgetful_release (v : ViewId) : Forgetful (release v) := fun _ => .of_eq rfl

theorem forgetful_adopt (v : Variant) (o : ByteOrder) (b : BufferId) :
    Forgetful (adopt v o b) := fun σ => σ.unasked_adopted v o b

theorem Forgetful.bind {k : α → StoreM β} (hm : Forgetful m) (hk : ∀ a, Forgetful (k a)) :
    Forgetful (m >>= k) := by
  intro σ
  have h := hm σ
  rw [exec_bind]
  rcases hexec : m.exec σ with ⟨r, σ'⟩
  rw [hexec] at h
  cases r with
  | error f => exact h
  | ok a => exact h.trans (hk a σ')

theorem Forgetful.map (hm : Forgetful m) (g : α → β) : Forgetful (g <$> m) := by
  intro σ
  rw [exec_map]
  exact hm σ

/-- What goes on from something read keeps nothing if what follows keeps nothing. -/
theorem forgetful_reading_bind (f : Store → Outcome α) {k : α → StoreM β}
    (hk : ∀ a, Forgetful (k a)) : Forgetful (reading f >>= k) :=
  (forgetful_reading f).bind hk

theorem forgetful_create (v : Variant) (o : ByteOrder) (x : Bytes) :
    Forgetful (create v o x) :=
  (forgetful_allocate x).bind fun b => forgetful_adopt v o b

theorem forgetful_construct (v : Variant) (c : Construction) : Forgetful (construct v c) := by
  apply forgetful_reading_bind
  rintro ⟨storage, o⟩
  cases storage with
  | shared b => exact forgetful_adopt v o b
  | own x => exact forgetful_create v o x

theorem forgetful_dispatch (s : SequenceId) (t : Transformer) : Forgetful (dispatch s t) := by
  apply forgetful_reading_bind
  intro q
  apply forgetful_reading_bind
  intro x
  apply (forgetful_write _ _).bind
  intro _
  apply forgetful_reading_bind
  intro r
  cases r with
  | given =>
    show Forgetful (if _ then pure s else create q.variant q.order _)
    split
    · exact forgetful_pure s
    · exact forgetful_create _ _ _
  | fresh y => exact forgetful_create _ _ y

theorem forgetful_request (s : SequenceId) (r : Request) : Forgetful (request s r) := by
  apply forgetful_reading_bind
  intro q
  apply forgetful_reading_bind
  intro t
  exact forgetful_dispatch s t

theorem forgetful_convert (s : SequenceId) (c : Conversion) : Forgetful (convert s c) := by
  apply forgetful_reading_bind
  intro q
  apply forgetful_reading_bind
  intro x
  cases c with
  | toImmutable => exact forgetful_create _ _ x
  | toMutable => exact forgetful_create _ _ x
  | toReadOnly =>
    show Forgetful (if q.variant = .readOnly then pure s else adopt .readOnly q.order q.buffer)
    split
    · exact forgetful_pure s
    · exact forgetful_adopt _ _ _
  | duplicate => exact forgetful_adopt _ _ _
  | withOrder order => exact forgetful_reading_bind _ fun o => forgetful_adopt _ o _
  | slice start stop step => exact forgetful_reading_bind _ fun y => forgetful_create _ _ y

theorem forgetful_mutate (s : SequenceId) (m : Mutation) : Forgetful (mutate s m) := by
  apply forgetful_reading_bind
  intro q
  apply forgetful_reading_bind
  intro y
  exact (forgetful_write _ y).bind fun _ => forgetful_pure s

theorem forgetful_leave (s : SequenceId) : Forgetful (leave s) := by
  apply forgetful_reading_bind
  intro q
  apply forgetful_reading_bind
  intro x
  exact forgetful_write _ _

theorem forgetful_enclose (s : SequenceId) (interrupted : Bool) :
    Forgetful (enclose s interrupted) := by
  apply forgetful_reading_bind
  intro q
  apply forgetful_reading_bind
  intro x
  apply (forgetful_leave s).bind
  intro _
  cases interrupted with
  | true => exact forgetful_throw .interrupted
  | false => exact forgetful_pure _

theorem forgetful_expose (s : SequenceId) (e : Exposure) : Forgetful (expose s e) := by
  apply forgetful_reading_bind
  intro q
  cases e with
  | view => exact (forgetful_watch _).bind fun v => forgetful_pure _
  | storage => exact forgetful_pure _
  | array =>
    show Forgetful (match Exposure.array, q.variant with | _, _ => _)
    cases q.variant with
    | mutable => exact forgetful_pure _
    | immutable =>
      apply forgetful_reading_bind
      intro x
      exact (forgetful_allocate x).bind fun b => forgetful_pure _
    | readOnly => exact forgetful_throw _

theorem forgetful_assign (b : BufferId) (y : Bytes) : Forgetful (assign b y) := by
  have hwrite : Forgetful (do write b y; return Value.done) :=
    (forgetful_write b y).bind fun _ => forgetful_pure _
  apply forgetful_reading_bind
  intro x
  show Forgetful (if y.length ≠ x.length then _ else _)
  split
  · exact forgetful_reading_bind _ fun _ => hwrite
  · exact hwrite

theorem forgetful_act (a : CallerAction) : Forgetful (act a) := by
  cases a with
  | create data =>
    apply forgetful_reading_bind
    intro x
    exact (forgetful_allocate x).bind fun b => forgetful_pure _
  | set b i v =>
    apply forgetful_reading_bind
    intro x
    apply forgetful_reading_bind
    intro _
    apply forgetful_reading_bind
    intro y
    cases Layout.index? x.length i with
    | none => exact forgetful_throw .indexOutside
    | some k => exact (forgetful_write b _).bind fun _ => forgetful_pure _
  | push b v =>
    apply forgetful_reading_bind
    intro x
    apply forgetful_reading_bind
    intro y
    exact forgetful_assign b _
  | assign b y => exact forgetful_assign b y
  | writeView v => exact forgetful_reading_bind _ fun _ => forgetful_throw .notWritable
  | release v => exact (forgetful_release v).bind fun _ => forgetful_pure _

end StoreM

/-- Nothing but the comparison of two hashes keeps what they were taken of. -/
theorem Call.forgetful {c : Call} (hc : ∀ s t, c ≠ .sameHash s t) :
    StoreM.Forgetful c.perform := by
  cases c with
  | construct v c => exact (StoreM.forgetful_construct v c).map Value.sequence
  | query s q => exact StoreM.forgetful_reading _
  | sameHash s t => exact absurd rfl (hc s t)
  | rank ss => exact StoreM.forgetful_reading _
  | request s r => exact (StoreM.forgetful_request s r).map Value.sequence
  | convert s c => exact (StoreM.forgetful_convert s c).map Value.sequence
  | mutate s m => exact (StoreM.forgetful_mutate s m).map Value.sequence
  | enclose s interrupted => exact StoreM.forgetful_enclose s interrupted
  | leave s => exact (StoreM.forgetful_leave s).bind fun _ => StoreM.forgetful_pure _
  | expose s e => exact StoreM.forgetful_expose s e
  | caller a => exact StoreM.forgetful_act a

/-! ## Hashes are current -/

namespace Store

variable {σ : Store} {s : SequenceId} {q : Sequence} {x : Bytes}

theorem key?_remembered (σ : Store) (s t : SequenceId) (key : Bytes × ByteOrder) :
    (σ.remembered s key).key? t = σ.key? t := by
  rw [key?, key?, sequence?, sequence?, sequences_remembered]
  cases σ.sequences[t]? with
  | none => rfl
  | some q =>
    by_cases hst : s = t
    · simp only [Option.map_some, hst, if_true]
      rfl
    · simp only [Option.map_some, hst, if_false]
      rfl

/-- What is remembered of a sequence is what it is. -/
theorem Current.remembered (h : σ.Current) (hs : σ.Holds s q x) :
    (σ.remembered s (x, q.order)).Current := by
  intro t r y key ht hr hkey
  have hsame := key?_remembered σ s t (x, q.order)
  have hseq := sequences_remembered σ s t (x, q.order)
  rw [ht.key?] at hsame
  rw [ht.sequence] at hseq
  obtain ⟨r', hr', hrr⟩ := Option.map_eq_some_iff.mp hseq.symm
  by_cases hst : s = t
  · subst hst
    rw [if_pos rfl] at hrr
    rw [hs.key?] at hsame
    subst hrr
    rw [← Option.some.inj hkey]
    exact (Except.ok.inj hsame).symm
  · rw [if_neg hst] at hrr
    subst hrr
    exact h t r' y key ⟨hr', ht.content⟩ hr hkey

end Store

namespace StoreM

variable {σ : Store}

/-- The hash of a sequence is taken of what the sequence is. What is kept of it changes no
sequence and is current. -/
theorem exec_hashKey_current (hbounded : σ.Bounded) (h : σ.Current) (s : SequenceId) :
    ∃ σ', (hashKey s).exec σ = (σ.key? s, σ') ∧ σ'.Bounded ∧ σ'.Current ∧
      ∀ t, σ'.key? t = σ.key? t := by
  rcases hbounded.holds_or_absent s with habsent | ⟨q, x, hs⟩
  · refine ⟨σ, ?_, hbounded, h, fun t => rfl⟩
    rw [hashKey, exec_absent habsent, Store.key?, Store.sequence?, habsent]
    rfl
  · rw [exec_hashKey hs, hs.key?]
    cases hv : q.variant with
    | mutable => exact ⟨σ, rfl, hbounded, h, fun t => rfl⟩
    | readOnly => exact ⟨σ, rfl, hbounded, h, fun t => rfl⟩
    | immutable =>
      cases hkept : q.hashed with
      | some key =>
        rw [h s q x key hs hv hkept]
        exact ⟨σ, rfl, hbounded, h, fun t => rfl⟩
      | none =>
        refine ⟨σ.remembered s (x, q.order), rfl, ?_, h.remembered hs, fun t => ?_⟩
        · intro r hr
          obtain ⟨r', k, hr', rfl⟩ := Store.mem_remembered hr
          exact hbounded r' hr'
        · exact σ.key?_remembered s t (x, q.order)

/-- Two hashes, one after the other. -/
theorem exec_sameHash (hbounded : σ.Bounded) (h : σ.Current) (s t : SequenceId) :
    ((Call.sameHash s t).run σ).1 =
      (do let a ← σ.key? s; let b ← σ.key? t; return .bool (a = b)) ∧
    ((Call.sameHash s t).run σ).2.Current := by
  obtain ⟨σ', hs, hbounded', h', hkey⟩ := exec_hashKey_current hbounded h s
  obtain ⟨σ'', ht, -, h'', -⟩ := exec_hashKey_current hbounded' h' t
  show ((hashKey s >>= _).exec σ).1 = _ ∧ ((hashKey s >>= _).exec σ).2.Current
  rw [exec_bind, hs]
  cases σ.key? s with
  | error f => exact ⟨rfl, h'⟩
  | ok a =>
    show ((hashKey t >>= _).exec σ').1 = _ ∧ ((hashKey t >>= _).exec σ').2.Current
    rw [exec_bind, ht, hkey]
    cases σ.key? t with
    | error f => exact ⟨rfl, h''⟩
    | ok b => exact ⟨rfl, h''⟩

end StoreM

namespace World

variable {w w' : World}

/-- One call: an immutable sequence stays what it is, and nothing else is kept. -/
theorem Isolated.current_after (h : w.Isolated) (hw : w.store.Current) {c : Call}
    (hc : c.Permitted w.held) : (w.after c).store.Current := by
  by_cases hsame : ∃ s t, c = .sameHash s t
  · obtain ⟨s, t, rfl⟩ := hsame
    exact (StoreM.exec_sameHash h.bounded hw s t).2
  · intro s q x key hs hv hkey
    have hforgetful := Call.forgetful fun s t hst => hsame ⟨s, t, hst⟩
    have hbefore : w.store.sequences[s]? = some q :=
      (hforgetful w.store).sequence hs.sequence hkey
    obtain ⟨y, hy⟩ := Store.Bounded.holds h.bounded hbefore
    obtain ⟨k, hk⟩ := (h.after hc).keeps s q y hv hy
    have hxy : some y = some x := hk.content.symm.trans hs.content
    rw [hw s q y key hy hv hkey, Option.some.inj hxy]

/-- Whatever the caller does, what is kept of hashes stays current. -/
theorem Isolated.current_run (h : w.Isolated) (hw : w.store.Current) (run : w.Run w') :
    w'.store.Current := by
  induction run with
  | here => exact hw
  | next run hc ih => exact (h.run run).isolated.current_after ih hc

end World
end Octets
