import Octets.Proofs.Store.Changes
import Octets.Store.Call
/-!
# What the operations do to a store

A computation on a store is executed step by step, and an operation on a sequence that
is there comes down to a few changes of the store. There is one equation for each
operation: `exec_construct`, `exec_convert`, `exec_mutate`, `exec_leave`,
`exec_enclose`, `exec_expose`, `exec_hashKey`, `exec_dispatch`, `exec_request` and
`exec_assign`.
-/

namespace Octets

/-! ## Computations -/

namespace StoreM

variable {α β : Type} {σ σ' : Store} {s : SequenceId} {q : Sequence} {x : Bytes}

/-- The outcome of a computation on a store, and the store after it. -/
def exec (m : StoreM α) (σ : Store) : Outcome α × Store := m.run.run σ

theorem exec_bind (m : StoreM α) (k : α → StoreM β) (σ : Store) :
    (m >>= k).exec σ =
      match m.exec σ with
      | (.ok a, σ') => (k a).exec σ'
      | (.error f, σ') => (.error f, σ') := by
  simp only [exec, ExceptT.run_bind, StateT.run_bind]
  rcases h : StateT.run (ExceptT.run m) σ with ⟨r, σ'⟩
  cases r with
  | ok a => rfl
  | error f => rfl

theorem exec_bind_ok {m : StoreM α} {a : α} (h : m.exec σ = (.ok a, σ')) (k : α → StoreM β) :
    (m >>= k).exec σ = (k a).exec σ' := by
  rw [exec_bind, h]

@[simp] theorem exec_pure (a : α) (σ : Store) : (pure a : StoreM α).exec σ = (.ok a, σ) := rfl

@[simp] theorem exec_reading (f : Store → Outcome α) (σ : Store) :
    (reading f).exec σ = (f σ, σ) := rfl

@[simp] theorem exec_write (b : BufferId) (x : Bytes) (σ : Store) :
    (write b x).exec σ = (.ok (), σ.written b x) := rfl

@[simp] theorem exec_adopt (v : Variant) (o : ByteOrder) (b : BufferId) (σ : Store) :
    (adopt v o b).exec σ = (.ok σ.sequences.length, σ.adopted v o b) := rfl

@[simp] theorem exec_create (v : Variant) (o : ByteOrder) (x : Bytes) (σ : Store) :
    (create v o x).exec σ = (.ok σ.sequences.length, σ.created v o x) := rfl

theorem exec_map (g : α → β) (m : StoreM α) (σ : Store) :
    (g <$> m).exec σ = ((m.exec σ).1.map g, (m.exec σ).2) := by
  rw [← bind_pure_comp, exec_bind]
  rcases m.exec σ with ⟨r, σ'⟩
  cases r with
  | ok a => rfl
  | error f => rfl

theorem exec_ite (c : Prop) [Decidable c] (m n : StoreM α) (σ : Store) :
    (if c then m else n).exec σ = if c then m.exec σ else n.exec σ := by
  by_cases hc : c
  · rw [if_pos hc, if_pos hc]
  · rw [if_neg hc, if_neg hc]

/-- A computation goes on from what it has read. -/
theorem exec_reading_bind {f : Store → Outcome α} {a : α} (h : f σ = .ok a)
    (k : α → StoreM β) : (reading f >>= k).exec σ = (k a).exec σ := by
  apply exec_bind_ok
  rw [exec_reading, h]

/-- A computation that cannot read what it needs changes nothing. -/
theorem exec_reading_bind_error {f : Store → Outcome α} {e : Fault} (h : f σ = .error e)
    (k : α → StoreM β) : (reading f >>= k).exec σ = (.error e, σ) := by
  rw [exec_bind, exec_reading, h]

theorem exec_absent (h : σ.sequences[s]? = none) (k : Sequence → StoreM α) :
    (reading (·.sequence? s) >>= k).exec σ = (.error .unbound, σ) := by
  apply exec_reading_bind_error
  rw [Store.sequence?, h]
  rfl

/-- An operation on a sequence starts from the sequence and its content. -/
theorem exec_receiver (h : σ.Holds s q x) (k : Sequence → Bytes → StoreM α) :
    (do
      let q ← reading (·.sequence? s)
      let x ← reading (·.buffer? q.buffer)
      k q x).exec σ = (k q x).exec σ := by
  rw [exec_reading_bind h.sequence?, exec_reading_bind h.buffer?]

/-! ## Operations -/

theorem exec_construct (v : Variant) (c : Construction) (σ : Store) :
    (construct v c).exec σ =
      match c.plan v σ with
      | .ok (.shared b, o) => (.ok σ.sequences.length, σ.adopted v o b)
      | .ok (.own x, o) => (.ok σ.sequences.length, σ.created v o x)
      | .error f => (.error f, σ) := by
  rw [construct, exec_bind, exec_reading]
  rcases c.plan v σ with f | ⟨b | x, o⟩
  · rfl
  · rfl
  · rfl

theorem exec_convert (h : σ.Holds s q x) (c : Conversion) :
    (convert s c).exec σ =
      match c with
      | .toImmutable => (.ok σ.sequences.length, σ.created .immutable q.order x)
      | .toMutable => (.ok σ.sequences.length, σ.created .mutable q.order x)
      | .toReadOnly =>
        if q.variant = .readOnly then (.ok s, σ)
        else (.ok σ.sequences.length, σ.adopted .readOnly q.order q.buffer)
      | .duplicate => (.ok σ.sequences.length, σ.adopted q.variant q.order q.buffer)
      | .withOrder order =>
        match ByteOrder.named order with
        | .ok o => (.ok σ.sequences.length, σ.adopted q.variant o q.buffer)
        | .error f => (.error f, σ)
      | .slice start stop step =>
        match Layout.slice start stop step x with
        | .ok y => (.ok σ.sequences.length, σ.created q.variant q.order y)
        | .error f => (.error f, σ) := by
  rw [convert, exec_receiver h]
  cases c with
  | toImmutable => rfl
  | toMutable => rfl
  | toReadOnly =>
    by_cases hv : q.variant = .readOnly
    · simp [hv]
    · simp [hv]
  | duplicate => rfl
  | withOrder order =>
    rw [exec_bind, exec_reading]
    cases ho : ByteOrder.named order with
    | ok o => simp only [ho, exec_adopt]
    | error f => simp only [ho]
  | slice start stop step =>
    rw [exec_bind, exec_reading]
    cases hy : Layout.slice start stop step x with
    | ok y => simp only [hy, exec_create]
    | error f => simp only [hy]

/-- Only a mutable sequence passes. -/
theorem exec_mutableOnly (h : σ.Holds s q x) (operation : String) (k : Sequence → StoreM α) :
    (mutableOnly operation s >>= k).exec σ =
      if q.variant = .mutable then (k q).exec σ
      else (.error (.unsupported operation q.variant), σ) := by
  rw [exec_bind, mutableOnly, exec_reading, h.sequence?]
  by_cases hv : q.variant = .mutable
  · simp [hv, bind, Except.bind]
  · simp [hv, bind, Except.bind]

theorem exec_mutableOnly_absent (h : σ.sequences[s]? = none) (operation : String)
    (k : Sequence → StoreM α) :
    (mutableOnly operation s >>= k).exec σ = (.error .unbound, σ) := by
  apply exec_reading_bind_error
  rw [Store.sequence?, h]
  rfl

theorem exec_mutate (h : σ.Holds s q x) (m : Mutation) :
    (mutate s m).exec σ =
      if q.variant = .mutable then
        match m.result σ x with
        | .ok y => (.ok s, σ.written q.buffer y)
        | .error f => (.error f, σ)
      else (.error (.unsupported m.name q.variant), σ) := by
  rw [mutate, exec_mutableOnly h]
  congr 1
  have hread : (σ.buffer? q.buffer >>= m.result σ) = m.result σ x := by
    rw [h.buffer?]
    rfl
  cases hy : m.result σ x with
  | ok y =>
    rw [exec_reading_bind (hread.trans hy)]
    rfl
  | error f => rw [exec_reading_bind_error (hread.trans hy)]

theorem exec_leave (h : σ.Holds s q x) :
    (leave s).exec σ =
      if q.variant = .mutable then (.ok (), σ.written q.buffer (Bytes.zeros x.length))
      else (.error (.unsupported "auto-wipe" q.variant), σ) := by
  rw [leave, exec_mutableOnly h, exec_reading_bind h.buffer?]
  rfl

theorem exec_enclose (h : σ.Holds s q x) (interrupted : Bool) :
    (enclose s interrupted).exec σ =
      if q.variant = .mutable then
        (if interrupted then .error .interrupted else .ok (.entered true x),
          σ.written q.buffer (Bytes.zeros x.length))
      else (.error (.unsupported "auto-wipe" q.variant), σ) := by
  rw [enclose, exec_mutableOnly h]
  by_cases hv : q.variant = .mutable
  · rw [if_pos hv, if_pos hv, exec_reading_bind h.buffer?, exec_bind, exec_leave h, if_pos hv]
    cases interrupted with
    | true => rfl
    | false => rfl
  · rw [if_neg hv, if_neg hv]

theorem exec_expose (h : σ.Holds s q x) (e : Exposure) :
    (expose s e).exec σ =
      match e, q.variant with
      | .view, _ => (.ok (.view σ.views.length), σ.watched q.buffer)
      | .storage, _ | .array, .mutable => (.ok (.buffer q.buffer), σ)
      | .array, .immutable => (.ok (.buffer σ.buffers.length), σ.allocated x)
      | .array, .readOnly => (.error (.unsupported "array" .readOnly), σ) := by
  rw [expose, exec_reading_bind h.sequence?]
  cases e with
  | view => rfl
  | storage => rfl
  | array =>
    cases hv : q.variant with
    | mutable => rfl
    | immutable =>
      show (reading (·.buffer? q.buffer) >>= _).exec σ = _
      rw [exec_reading_bind h.buffer?]
      rfl
    | readOnly => rfl

theorem exec_hashKey (h : σ.Holds s q x) :
    (hashKey s).exec σ =
      match q.variant, q.hashed with
      | .immutable, some key => (.ok key, σ)
      | .immutable, none => (.ok (x, q.order), σ.remembered s (x, q.order))
      | _, _ => (.ok (x, q.order), σ) := by
  rw [hashKey, exec_receiver h]
  cases q.variant with
  | mutable => rfl
  | immutable =>
    cases q.hashed with
    | none => rfl
    | some key => rfl
  | readOnly => rfl

/-- Whether a transformer is asked to work in place on a sequence. -/
def inPlace (q : Sequence) (t : Transformer) : Bool :=
  q.variant.writesInPlace && t.supportsInPlace

theorem mutable_of_inPlace {q : Sequence} {t : Transformer} (h : inPlace q t = true) :
    q.variant = .mutable := by
  cases hv : q.variant with
  | mutable => rfl
  | immutable => simp [inPlace, hv, Variant.writesInPlace] at h
  | readOnly => simp [inPlace, hv, Variant.writesInPlace] at h

/-- What the work of a transformer on a sequence with content `x` comes to. -/
def effect (q : Sequence) (t : Transformer) (x : Bytes) : Effect :=
  t.apply (inPlace q t) x

theorem exec_dispatch (h : σ.Holds s q x) (t : Transformer) :
    (dispatch s t).exec σ =
      match (effect q t x).reply with
      | .error f => (.error f, σ.written q.buffer (effect q t x).current)
      | .ok .given =>
        if inPlace q t then (.ok s, σ.written q.buffer (effect q t x).current)
        else
          (.ok σ.sequences.length, (σ.written q.buffer (effect q t x).current).created
            q.variant q.order (effect q t x).current)
      | .ok (.fresh y) =>
        (.ok σ.sequences.length, (σ.written q.buffer (effect q t x).current).created
          q.variant q.order y) := by
  rw [dispatch, exec_receiver h, exec_bind_ok (exec_write _ _ σ), exec_bind, exec_reading]
  simp only [effect, inPlace]
  rcases (t.apply (q.variant.writesInPlace && t.supportsInPlace) x).reply with f | (_ | y)
  · rfl
  · exact exec_ite (inPlace q t = true) (pure s) (create q.variant q.order _) _
  · rfl

theorem exec_request (h : σ.Holds s q x) (r : Request) :
    (request s r).exec σ =
      match r.transform? σ q.order x with
      | .ok t => (dispatch s t).exec σ
      | .error f => (.error f, σ) := by
  rw [request, exec_reading_bind h.sequence?]
  have hread : (σ.buffer? q.buffer >>= fun y => r.transform? σ q.order y) =
      r.transform? σ q.order x := by
    rw [h.buffer?]
    rfl
  cases ht : r.transform? σ q.order x with
  | ok t => rw [exec_reading_bind (hread.trans ht)]
  | error f => rw [exec_reading_bind_error (hread.trans ht)]

end StoreM

/-- A construction with storage of its own makes a new sequence over a new array. -/
theorem Call.run_construct {σ : Store} {v : Variant} {c : Construction} {x : Bytes}
    {o : ByteOrder} (h : c.plan v σ = .ok (.own x, o)) :
    (Call.construct v c).run σ = (.ok (.sequence σ.sequences.length), σ.created v o x) := by
  show (Value.sequence <$> StoreM.construct v c).exec σ = _
  rw [StoreM.exec_map, StoreM.exec_construct, h]
  rfl

theorem Call.run_construct_refused {σ : Store} {v : Variant} {c : Construction} {f : Fault}
    (h : c.plan v σ = .error f) : (Call.construct v c).run σ = (.error f, σ) := by
  show (Value.sequence <$> StoreM.construct v c).exec σ = _
  rw [StoreM.exec_map, StoreM.exec_construct, h]
  rfl

theorem Call.run_mutate {σ : Store} {s : SequenceId} {q : Sequence} {x : Bytes}
    (h : σ.Holds s q x) (hv : q.variant = .mutable) (m : Mutation) :
    (Call.mutate s m).run σ =
      match m.result σ x with
      | .ok y => (.ok (.sequence s), σ.written q.buffer y)
      | .error f => (.error f, σ) := by
  show (Value.sequence <$> StoreM.mutate s m).exec σ = _
  rw [StoreM.exec_map, StoreM.exec_mutate h, if_pos hv]
  cases m.result σ x with
  | ok y => rfl
  | error f => rfl

theorem Store.Holds.query {σ : Store} {s : SequenceId} {q : Sequence} {x : Bytes}
    (h : σ.Holds s q x) (k : Query) : σ.query s k = k.answer σ q.variant q.order x := by
  rw [Store.query, h.sequence?]
  show (σ.buffer? q.buffer >>= _) = _
  rw [h.buffer?]
  rfl

/-- What is made of checked numbers draws from no generator. -/
theorem Transform.generator?_shiftBy {d : Bits.Direction} {count : Int} {o : ByteOrder}
    {u : Transform} (h : shiftBy d count o = .ok u) : u.generator? = none := by
  obtain ⟨_, -, h⟩ := exists_of_bind_eq_ok h
  cases h
  rfl

theorem Transform.generator?_resizeTo {anchor : Layout.Anchor} {length : Int} {u : Transform}
    (h : resizeTo anchor length = .ok u) : u.generator? = none := by
  obtain ⟨_, -, h⟩ := exists_of_bind_eq_ok h
  cases h
  rfl

theorem Transform.generator?_copyRange {offset length : Int} {u : Transform}
    (h : copyRange offset length = .ok u) : u.generator? = none := by
  obtain ⟨_, -, h⟩ := exists_of_bind_eq_ok h
  obtain ⟨_, -, h⟩ := exists_of_bind_eq_ok h
  cases h
  rfl

theorem Request.generator?_copyOf {x : Bytes} {offset : Int} {length : Option Int} {u : Transform}
    (h : copyOf x offset length = .ok u) : u.generator? = none := by
  cases length with
  | some length => exact Transform.generator?_copyRange h
  | none =>
    obtain ⟨_, -, h⟩ := exists_of_bind_eq_ok h
    exact Transform.generator?_copyRange h

/-- Every request is for a transformer of the library, unless it brings its own. -/
theorem Request.transform?_library {r : Request} {σ : Store} {o : ByteOrder} {x : Bytes}
    {t : Transformer} (h : r.transform? σ o x = .ok t) :
    r = .apply t ∨ ∃ u : Transform, u.toTransformer = t ∧ u.generator? = r.generator? := by
  have hmap {α : Type} {a : Outcome α} {g : α → Transform}
      (hg : ∀ b, a = .ok b → (g b).generator? = none)
      (ha : a.map (fun a => (g a).toTransformer) = .ok t) :
      ∃ u : Transform, u.toTransformer = t ∧ u.generator? = none := by
    obtain ⟨b, hb, ht⟩ := map_eq_ok.mp ha
    exact ⟨g b, ht, hg b hb⟩
  cases r with
  | apply u => exact .inl (congrArg Request.apply (Except.ok.inj h))
  | append parts => exact .inr (hmap (g := .concat) (fun _ _ => rfl) h)
  | appendText u codec => exact .inr (hmap (g := .concat) (fun _ _ => rfl) h)
  | bitwise op operand => exact .inr (hmap (g := .bitwise op) (fun _ _ => rfl) h)
  | negate => exact .inr ⟨_, Except.ok.inj h, rfl⟩
  | shift d count => exact .inr (hmap (g := id) (fun _ => Transform.generator?_shiftBy) h)
  | switchBit position value => exact .inr ⟨_, Except.ok.inj h, rfl⟩
  | copy offset length => exact .inr (hmap (g := id) (fun _ => generator?_copyOf) h)
  | reverse => exact .inr ⟨_, Except.ok.inj h, rfl⟩
  | resize anchor length =>
    exact .inr (hmap (g := id) (fun _ => Transform.generator?_resizeTo) h)
  | sort key descending => exact .inr ⟨_, Except.ok.inj h, rfl⟩
  | shuffle g => exact .inr ⟨_, Except.ok.inj h, rfl⟩
  | hash l algorithm => exact .inr (hmap (g := .digest) (fun _ _ => rfl) h)
  | hmac l key algorithm =>
    right
    change (σ.read key >>= fun k => (l.resolveOr algorithm).map fun d =>
      (Transform.hmac d k).toTransformer) = .ok t at h
    obtain ⟨k, -, h⟩ := exists_of_bind_eq_ok h
    exact hmap (g := fun d => .hmac d k) (fun _ _ => rfl) h

namespace StoreM

variable {σ : Store} {x : Bytes}

/-! ## What a caller does -/

theorem exec_assign {b : BufferId} (h : σ.buffers[b]? = some x) (y : Bytes) :
    (assign b y).exec σ =
      if y.length ≠ x.length ∧ σ.isViewed b then (.error .viewed, σ)
      else (.ok .done, σ.written b y) := by
  have hwrite : (do write b y; return Value.done).exec σ = (.ok .done, σ.written b y) :=
    exec_bind_ok (exec_write b y σ) _
  rw [assign, exec_reading_bind (Store.buffer?_eq_ok.mpr h)]
  by_cases hy : y.length = x.length
  · rw [if_neg (fun hne => hne hy), if_neg (fun hne => hne.1 hy)]
    exact hwrite
  · rw [if_pos hy]
    cases hv : σ.isViewed b with
    | true =>
      rw [if_pos ⟨hy, rfl⟩]
      apply exec_reading_bind_error
      rw [hv]
      rfl
    | false =>
      rw [if_neg (fun hne => Bool.false_ne_true hne.2), exec_reading_bind (a := ())]
      · exact hwrite
      · rw [hv]
        rfl

end StoreM

/-- The array that a caller writes. -/
def CallerAction.target? : CallerAction → Option BufferId
  | .set b _ _ | .push b _ | .assign b _ => some b
  | _ => none

/-- What an action of a caller may come to: nothing changes, there is a new array, the
array that the action names is written, or a view is given up. -/
inductive CallerAction.Result (a : CallerAction) (σ : Store) : Outcome Value × Store → Prop
  | refused (f : Fault) : Result a σ (.error f, σ)
  | allocated (x : Bytes) : Result a σ (.ok (.buffer σ.buffers.length), σ.allocated x)
  | written (b : BufferId) (y : Bytes) (h : a.target? = some b) :
      Result a σ (.ok .done, σ.written b y)
  | released (v : ViewId) : Result a σ (.ok .done, σ.released v)

namespace StoreM

variable {α β : Type} {σ : Store}

/-- What holds of a refusal and of what comes after reading holds of both together. -/
theorem exec_reading_bind_elim {P : Outcome β × Store → Prop} {f : Store → Outcome α}
    {k : α → StoreM β} (herror : ∀ e, P (.error e, σ))
    (hok : ∀ a, f σ = .ok a → P ((k a).exec σ)) : P ((reading f >>= k).exec σ) := by
  cases h : f σ with
  | ok a =>
    rw [exec_reading_bind h]
    exact hok a h
  | error e =>
    rw [exec_reading_bind_error h]
    exact herror e

theorem exec_assign_result {a : CallerAction} {b : BufferId} (h : a.target? = some b)
    (y : Bytes) : a.Result σ ((assign b y).exec σ) := by
  cases hx : σ.buffers[b]? with
  | none =>
    apply exec_reading_bind_elim .refused
    intro x hb
    rw [Store.buffer?_eq_ok, hx] at hb
    cases hb
  | some x =>
    rw [exec_assign hx]
    by_cases hv : y.length ≠ x.length ∧ σ.isViewed b
    · rw [if_pos hv]
      exact .refused .viewed
    · rw [if_neg hv]
      exact .written b y h

theorem exec_act (a : CallerAction) (σ : Store) : a.Result σ ((act a).exec σ) := by
  cases a with
  | create data =>
    apply exec_reading_bind_elim .refused
    intro x _
    exact .allocated x
  | set b i v =>
    apply exec_reading_bind_elim .refused
    intro x _
    apply exec_reading_bind_elim .refused
    intro _ _
    apply exec_reading_bind_elim .refused
    intro y _
    cases Layout.index? x.length i with
    | none => exact .refused .indexOutside
    | some k => exact .written b (x.set k y) rfl
  | push b v =>
    apply exec_reading_bind_elim .refused
    intro x _
    apply exec_reading_bind_elim .refused
    intro y _
    exact exec_assign_result rfl (x ++ [y])
  | assign b y => exact exec_assign_result rfl y
  | writeView v =>
    apply exec_reading_bind_elim .refused
    intro b _
    exact .refused .notWritable
  | release v => exact .released v

end StoreM
end Octets
