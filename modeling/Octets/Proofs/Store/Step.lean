import Octets.Proofs.Store.Dispatch
/-!
# Steps of the library

An operation of the library does one of three things: it is refused and changes nothing,
it adds to the store, or it gives the array of its receiver new content of the same
length, the receiver being mutable. There is one lemma for each operation, and
`Call.Library.result` for all of them. There are two exceptions. A block that ends in a
fault of its own is refused, and the storage is zeroed all the same. And a shuffle in
place that is refused a draw has moved bytes by then.
-/

namespace Octets

/-! ## Calls -/

/-- The sequence that an operation is called on. -/
def Call.receiver? : Call → Option SequenceId
  | query s _ | sameHash s _ | request s _ | convert s _ | mutate s _ | enclose s _
  | leave s | expose s _ => some s
  | construct .. | rank _ | caller _ => none

/-- Neither an action of the caller nor a transformer that it brings. -/
def Call.Library : Call → Prop
  | .request _ (.apply t) => ∃ u : Transform, u.toTransformer = t
  | .caller _ => False
  | _ => True

namespace Store

/-! ## What has been added -/

/-- Variant, order and array of every sequence. -/
def handles (σ : Store) : List (Variant × ByteOrder × BufferId) :=
  σ.sequences.map fun q => (q.variant, q.order, q.buffer)

/-- Nothing has changed, unless a hash has been remembered. -/
structure Unchanged (σ σ' : Store) : Prop where
  buffers : σ'.buffers = σ.buffers
  handles : σ'.handles = σ.handles
  views : σ'.views = σ.views

/-- Nothing has changed, but there may be more than before. -/
structure Grown (σ σ' : Store) : Prop where
  buffers : σ.buffers <+: σ'.buffers
  handles : σ.handles <+: σ'.handles
  views : σ.views <+: σ'.views

variable {σ σ' σ'' : Store}

theorem Unchanged.refl (σ : Store) : σ.Unchanged σ := ⟨rfl, rfl, rfl⟩

theorem Unchanged.trans (h : σ.Unchanged σ') (h' : σ'.Unchanged σ'') : σ.Unchanged σ'' where
  buffers := h'.buffers.trans h.buffers
  handles := h'.handles.trans h.handles
  views := h'.views.trans h.views

theorem Unchanged.grown (h : σ.Unchanged σ') : σ.Grown σ' where
  buffers := h.buffers ▸ List.prefix_rfl
  handles := h.handles ▸ List.prefix_rfl
  views := h.views ▸ List.prefix_rfl

theorem unchanged_remembered (σ : Store) (s : SequenceId) (key : Bytes × ByteOrder) :
    σ.Unchanged (σ.remembered s key) where
  buffers := rfl
  handles := by
    apply List.ext_getElem?
    intro t
    simp only [handles, List.getElem?_map, sequences_remembered, Option.map_map]
    congr 1
    funext q
    by_cases hst : s = t
    · simp [hst]
    · simp [hst]
  views := rfl

theorem grown_allocated (σ : Store) (x : Bytes) : σ.Grown (σ.allocated x) where
  buffers := List.prefix_append ..
  handles := List.prefix_rfl
  views := List.prefix_rfl

theorem grown_adopted (σ : Store) (v : Variant) (o : ByteOrder) (b : BufferId) :
    σ.Grown (σ.adopted v o b) where
  buffers := List.prefix_rfl
  handles := (List.prefix_append ..).map _
  views := List.prefix_rfl

theorem grown_created (σ : Store) (v : Variant) (o : ByteOrder) (x : Bytes) :
    σ.Grown (σ.created v o x) where
  buffers := List.prefix_append ..
  handles := (List.prefix_append ..).map _
  views := List.prefix_rfl

theorem grown_watched (σ : Store) (b : BufferId) : σ.Grown (σ.watched b) where
  buffers := List.prefix_rfl
  handles := List.prefix_rfl
  views := List.prefix_append ..

/-! ## Steps -/

/-- What an operation on a receiver, if it has one, may come to. -/
inductive Step {α : Type} (σ : Store) (receiver : Option SequenceId) :
    Outcome α × Store → Prop
  | refused {σ' : Store} (f : Fault) (h : σ.Unchanged σ') : Step σ receiver (.error f, σ')
  | grown {σ' : Store} (a : α) (h : σ.Grown σ') : Step σ receiver (.ok a, σ')
  | written {s : SequenceId} {q : Sequence} {x y : Bytes} (a : α) (hr : receiver = some s)
      (hs : σ.Holds s q x) (hv : q.variant = .mutable) (hy : y.length = x.length) :
      Step σ receiver (.ok a, σ.written q.buffer y)

/-- What a shuffle in place on `q` leaves behind that is refused a draw. -/
structure HalfShuffled (σ σ' : Store) (q : Sequence) (x : Bytes) (g : Generator) (f : Fault) :
    Prop where
  variant : q.variant = .mutable
  refusal : (Arrange.shuffle g x).refusal = some f
  store : σ' = σ.written q.buffer (Arrange.shuffle g x).content

namespace Step

variable {α β : Type} {receiver : Option SequenceId}

theorem error (f : Fault) : Step (α := α) σ receiver (.error f, σ) :=
  .refused f (.refl σ)

theorem of_unchanged {r : Outcome α × Store} (h : σ.Unchanged r.2) : σ.Step receiver r := by
  obtain ⟨a | f, σ'⟩ := r
  · exact .refused a h
  · exact .grown f h.grown

/-- What is made of the answer does not matter to the store. -/
theorem map {m : StoreM α} (h : σ.Step receiver (m.exec σ)) (g : α → β) :
    σ.Step receiver ((g <$> m).exec σ) := by
  rw [StoreM.exec_map]
  rcases hexec : m.exec σ with ⟨r, σ'⟩
  rw [hexec] at h
  cases h with
  | refused f h => exact .refused f h
  | grown a h => exact .grown (g a) h
  | written a hr hs hv hy => exact .written (g a) hr hs hv hy

end Step
end Store

/-! ## Operations -/

/-- A change of content does not change the length. -/
theorem Mutation.length_result {m : Mutation} {σ : Store} {x y : Bytes}
    (h : m.result σ x = .ok y) : y.length = x.length := by
  cases m with
  | wipe =>
    cases h
    exact List.length_replicate
  | fill v =>
    cases h
    exact List.length_replicate
  | secureWipe g =>
    obtain ⟨y, -, rfl⟩ := map_eq_ok.mp h
    exact y.property
  | overwrite data offset =>
    obtain ⟨source, -, h⟩ := exists_of_bind_eq_ok h
    by_cases hout : offset < 0 ∨ x.length < offset + source.length
    · rw [if_pos hout] at h
      cases h
    · rw [if_neg hout] at h
      cases h
      exact Layout.length_splice x source _ (by omega)
  | setByteAt i v =>
    rw [result] at h
    by_cases hout : i < 0 ∨ x.length ≤ i
    · rw [if_pos hout] at h
      cases h
    · rw [if_neg hout] at h
      cases h
      exact List.length_set ..

namespace StoreM

variable {α : Type} {σ : Store} {s : SequenceId} {q : Sequence} {x : Bytes} {u : Transform}

/-- What holds of a refusal and of what comes after a mutable sequence has passed holds of
both together. -/
theorem exec_mutableOnly_elim {P : Outcome α × Store → Prop} {operation : String}
    {k : Sequence → StoreM α} (herror : ∀ e, P (.error e, σ))
    (hok : ∀ q, σ.sequences[s]? = some q → q.variant = .mutable → P ((k q).exec σ)) :
    P ((mutableOnly operation s >>= k).exec σ) := by
  apply exec_reading_bind_elim herror
  intro q hq
  obtain ⟨r, hr, hq⟩ := exists_of_bind_eq_ok hq
  by_cases hv : r.variant = .mutable
  · rw [if_pos hv] at hq
    cases hq
    exact hok q (Store.sequence?_eq_ok.mp hr) hv
  · rw [if_neg hv] at hq
    cases hq

/-- Any other sequence is refused. -/
theorem exec_mutableOnly_refused (h : σ.sequences[s]? = some q) (hv : q.variant ≠ .mutable)
    (operation : String) (k : Sequence → StoreM α) :
    (mutableOnly operation s >>= k).exec σ =
      (.error (.unsupported operation q.variant), σ) := by
  apply exec_reading_bind_error
  rw [Store.sequence?_eq_ok.mpr h]
  exact if_neg hv

theorem step_construct (v : Variant) (c : Construction) (σ : Store) :
    σ.Step none ((construct v c).exec σ) := by
  rw [exec_construct]
  rcases c.plan v σ with f | ⟨b | x, o⟩
  · exact .error f
  · exact .grown _ (σ.grown_adopted v o b)
  · exact .grown _ (σ.grown_created v o x)

theorem step_convert (s : SequenceId) (c : Conversion) (σ : Store) :
    σ.Step (some s) ((convert s c).exec σ) := by
  apply exec_reading_bind_elim .error
  intro q hq
  apply exec_reading_bind_elim .error
  intro x hx
  cases c with
  | toImmutable => exact .grown _ (σ.grown_created .immutable q.order x)
  | toMutable => exact .grown _ (σ.grown_created .mutable q.order x)
  | toReadOnly =>
    rw [exec_ite]
    by_cases hv : q.variant = .readOnly
    · rw [if_pos hv]
      exact .of_unchanged (.refl σ)
    · rw [if_neg hv]
      exact .grown _ (σ.grown_adopted .readOnly q.order q.buffer)
  | duplicate => exact .grown _ (σ.grown_adopted q.variant q.order q.buffer)
  | withOrder order =>
    apply exec_reading_bind_elim .error
    intro o _
    exact .grown _ (σ.grown_adopted q.variant o q.buffer)
  | slice start stop step =>
    apply exec_reading_bind_elim .error
    intro y _
    exact .grown _ (σ.grown_created q.variant q.order y)

theorem step_mutate (s : SequenceId) (m : Mutation) (σ : Store) :
    σ.Step (some s) ((mutate s m).exec σ) := by
  apply exec_mutableOnly_elim .error
  intro q hq hv
  apply exec_reading_bind_elim .error
  intro y hy
  obtain ⟨x, hx, hy⟩ := exists_of_bind_eq_ok hy
  have hs : σ.Holds s q x := ⟨hq, Store.buffer?_eq_ok.mp hx⟩
  exact .written s rfl hs hv (m.length_result hy)

theorem step_leave (s : SequenceId) (σ : Store) : σ.Step (some s) ((leave s).exec σ) := by
  apply exec_mutableOnly_elim .error
  intro q hq hv
  apply exec_reading_bind_elim .error
  intro x hx
  have hs : σ.Holds s q x := ⟨hq, Store.buffer?_eq_ok.mp hx⟩
  exact .written () rfl hs hv List.length_replicate

/-- A sequence can be entered as a block if it is mutable. -/
theorem enclose_cases (s : SequenceId) (interrupted : Bool) (σ : Store) :
    (∃ q x, σ.Holds s q x ∧ q.variant = .mutable) ∨
      ∃ f, (enclose s interrupted).exec σ = (.error f, σ) := by
  apply exec_mutableOnly_elim (P := fun r => _ ∨ ∃ f, r = (.error f, σ))
  · exact fun f => .inr ⟨f, rfl⟩
  · intro q hq hv
    apply exec_reading_bind_elim (P := fun r => _ ∨ ∃ f, r = (.error f, σ))
    · exact fun f => .inr ⟨f, rfl⟩
    · exact fun x hx => .inl ⟨q, x, ⟨hq, Store.buffer?_eq_ok.mp hx⟩, hv⟩

theorem step_expose (s : SequenceId) (e : Exposure) (σ : Store) :
    σ.Step (some s) ((expose s e).exec σ) := by
  apply exec_reading_bind_elim .error
  intro q hq
  cases e with
  | view => exact .grown _ (σ.grown_watched q.buffer)
  | storage => exact .of_unchanged (.refl σ)
  | array =>
    cases hv : q.variant with
    | mutable => exact .of_unchanged (.refl σ)
    | immutable =>
      apply exec_reading_bind_elim .error
      intro x _
      exact .grown _ (σ.grown_allocated x)
    | readOnly => exact .error _

/-- A transformer that is refused has changed nothing, or it is a shuffle in place. -/
theorem dispatch_error (h : σ.Holds s q x) {f : Fault} (hf : (u.apply false x).content = .error f) :
    (dispatch s u.toTransformer).exec σ = (.error f, σ) ∨
      ∃ g σ', u = .shuffle g ∧ σ.HalfShuffled σ' q x g f ∧
        (dispatch s u.toTransformer).exec σ = (.error f, σ') := by
  cases hg : u.generator? with
  | none => exact .inl (dispatch_unchanged h hg hf)
  | some g =>
    obtain rfl := Transform.eq_shuffle_of_generator? hg
    have hcurrent : (effect q (Transform.shuffle g).toTransformer x).current =
        if inPlace q (Transform.shuffle g).toTransformer then (Arrange.shuffle g x).content
        else x := Transform.current_shuffle g _ x
    rw [dispatch_refused h hf, hcurrent]
    by_cases hp : inPlace q (Transform.shuffle g).toTransformer = true
    · have hrefusal : (Arrange.shuffle g x).refusal = some f := by
        rw [Transform.apply, Transform.content_writtenUpTo] at hf
        exact Arrange.Shuffled.refusal_of_outcome hf
      rw [if_pos hp]
      exact .inr ⟨g, _, rfl, ⟨mutable_of_inPlace hp, hrefusal, rfl⟩, rfl⟩
    · rw [if_neg hp, Store.written_self h.content]
      exact .inl rfl

/-- What is answered on a copy has the length of the array wherever it is written. -/
theorem step_dispatch (h : σ.Holds s q x) (u : Transform) :
    σ.Step (some s) ((dispatch s u.toTransformer).exec σ) ∨
      ∃ g f σ', u = .shuffle g ∧ σ.HalfShuffled σ' q x g f ∧
        (dispatch s u.toTransformer).exec σ = (.error f, σ') := by
  cases hy : (u.apply false x).content with
  | error f =>
    rcases dispatch_error h hy with hexec | ⟨g, σ', hu, hhalf, hexec⟩
    · rw [hexec]
      exact .inl (.error f)
    · exact .inr ⟨g, f, σ', hu, hhalf, hexec⟩
  | ok y =>
    left
    rw [exec_dispatch_library h, hy]
    by_cases hp : inPlace q u.toTransformer = true
    · have hlength : y.length = x.length :=
        u.length_of_supportsInPlace ((Bool.and_eq_true ..).mp hp).2 hy
      simp only [hp, if_true]
      exact .written s rfl h (mutable_of_inPlace hp) hlength
    · simp only [hp]
      exact .grown _ (σ.grown_created q.variant q.order y)

theorem step_request {r : Request} (hr : (Call.request s r).Library) (σ : Store) :
    σ.Step (some s) ((request s r).exec σ) ∨
      ∃ q x g f σ', σ.Holds s q x ∧
        r.transform? σ q.order x = .ok (Transform.shuffle g).toTransformer ∧
        σ.HalfShuffled σ' q x g f ∧ (request s r).exec σ = (.error f, σ') := by
  let P (p : Outcome SequenceId × Store) : Prop := σ.Step (some s) p ∨
    ∃ q x g f σ', σ.Holds s q x ∧
      r.transform? σ q.order x = .ok (Transform.shuffle g).toTransformer ∧
      σ.HalfShuffled σ' q x g f ∧ p = (.error f, σ')
  have herror (f : Fault) : P (.error f, σ) := .inl (.error f)
  apply exec_reading_bind_elim (P := P) herror
  intro q hq
  apply exec_reading_bind_elim (P := P) herror
  intro t ht
  obtain ⟨x, hx, ht⟩ := exists_of_bind_eq_ok ht
  have hs : σ.Holds s q x := ⟨Store.sequence?_eq_ok.mp hq, Store.buffer?_eq_ok.mp hx⟩
  obtain ⟨u, rfl⟩ : ∃ u : Transform, u.toTransformer = t := by
    rcases Request.transform?_library ht with rfl | ⟨u, hu, -⟩
    · exact hr
    · exact ⟨u, hu⟩
  rcases step_dispatch hs u with hstep | ⟨g, f, σ', rfl, hhalf, hexec⟩
  · exact .inl hstep
  · exact .inr ⟨q, x, g, f, σ', hs, ht, hhalf, hexec⟩

theorem unchanged_hashKey (s : SequenceId) (σ : Store) :
    σ.Unchanged ((hashKey s).exec σ).2 := by
  have herror (f : Fault) : σ.Unchanged σ := .refl σ
  apply exec_reading_bind_elim (P := fun r => σ.Unchanged r.2) herror
  intro q hq
  apply exec_reading_bind_elim (P := fun r => σ.Unchanged r.2) herror
  intro x hx
  cases q.variant with
  | mutable => exact .refl σ
  | readOnly => exact .refl σ
  | immutable =>
    cases q.hashed with
    | some key => exact .refl σ
    | none => exact σ.unchanged_remembered s (x, q.order)

theorem unchanged_bind {β : Type} {m : StoreM α} {k : α → StoreM β}
    (hm : σ.Unchanged (m.exec σ).2)
    (hk : ∀ a (σ' : Store), σ'.Unchanged ((k a).exec σ').2) :
    σ.Unchanged ((m >>= k).exec σ).2 := by
  rw [exec_bind]
  rcases hexec : m.exec σ with ⟨r, σ'⟩
  rw [hexec] at hm
  cases r with
  | error f => exact hm
  | ok a => exact hm.trans (hk a σ')

end StoreM

/-! ## Calls -/

/-- What an operation of the library may come to: a step, the end of a block that is left in
a fault of its own, or that of a shuffle which is refused a draw. -/
inductive Call.Result (c : Call) (σ : Store) : Outcome Value × Store → Prop
  | step {r : Outcome Value × Store} (h : σ.Step c.receiver? r) : Result c σ r
  | interrupted {s : SequenceId} {q : Sequence} {x : Bytes} (hc : c = .enclose s true)
      (hs : σ.Holds s q x) (hv : q.variant = .mutable) :
      Result c σ (.error .interrupted, σ.written q.buffer (Bytes.zeros x.length))
  | halfShuffled {s : SequenceId} {r : Request} {q : Sequence} {x : Bytes} {g : Generator} {f : Fault}
      {σ' : Store} (hc : c = .request s r) (hs : σ.Holds s q x)
      (hr : r.transform? σ q.order x = .ok (Transform.shuffle g).toTransformer)
      (h : σ.HalfShuffled σ' q x g f) : Result c σ (.error f, σ')

theorem Call.result_enclose (s : SequenceId) (interrupted : Bool) (σ : Store) :
    (Call.enclose s interrupted).Result σ ((StoreM.enclose s interrupted).exec σ) := by
  rcases StoreM.enclose_cases s interrupted σ with ⟨q, x, hs, hv⟩ | ⟨f, hf⟩
  · rw [StoreM.exec_enclose hs, if_pos hv]
    cases interrupted with
    | true => exact .interrupted rfl hs hv
    | false => exact .step (.written _ rfl hs hv List.length_replicate)
  · rw [hf]
    exact .step (.error f)

theorem Call.result_request {s : SequenceId} {r : Request} (hr : (Call.request s r).Library)
    (σ : Store) : (Call.request s r).Result σ ((Value.sequence <$> StoreM.request s r).exec σ) := by
  rcases StoreM.step_request hr σ with hstep | ⟨q, x, g, f, σ', hs, ht, hhalf, hexec⟩
  · exact .step (hstep.map Value.sequence)
  · rw [StoreM.exec_map, hexec]
    exact .halfShuffled rfl hs ht hhalf

theorem Call.Library.result {c : Call} (hc : c.Library) (σ : Store) :
    c.Result σ (c.run σ) := by
  show c.Result σ (c.perform.exec σ)
  cases c with
  | construct v c => exact .step ((StoreM.step_construct v c σ).map Value.sequence)
  | query s q => exact .step (.of_unchanged (.refl σ))
  | sameHash s t =>
    refine .step (.of_unchanged ?_)
    apply StoreM.unchanged_bind (StoreM.unchanged_hashKey s σ)
    intro a σ'
    apply StoreM.unchanged_bind (StoreM.unchanged_hashKey t σ')
    exact fun _ => .refl
  | rank ss => exact .step (.of_unchanged (.refl σ))
  | request s r => exact Call.result_request hc σ
  | convert s c => exact .step ((StoreM.step_convert s c σ).map Value.sequence)
  | mutate s m => exact .step ((StoreM.step_mutate s m σ).map Value.sequence)
  | enclose s interrupted => exact Call.result_enclose s interrupted σ
  | leave s => exact .step ((StoreM.step_leave s σ).map fun _ => Value.bool false)
  | expose s e => exact .step (StoreM.step_expose s e σ)
  | caller a => exact hc.elim

end Octets
