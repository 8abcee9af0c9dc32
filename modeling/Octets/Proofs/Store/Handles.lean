import Octets.Proofs.Store.Frame
import Octets.Proofs.Store.Run
/-!
# Handles

A caller knows sequences and arrays by handles. A call goes through one handle at most
and yields one at most. It is a sharing step if what it yields looks at the array of the
handle that it goes through (`Call.shares`); what any other call yields has an array that
is new. `Call.Comes` lists what a call may come to, and there is one lemma for each
operation and `Store.Bounded.comes` for all of them.
-/

namespace Octets

/-- What a caller knows: a sequence, or an array by the number of arrays that it had been
handed out before. -/
inductive Handle
  | sequence (s : SequenceId)
  | array (k : Nat)
  deriving DecidableEq, Repr

/-! ## Sharing steps -/

/-- Whether a request is for a transformer that can work in place. -/
def Request.inPlace : Request → Bool
  | apply t => t.supportsInPlace
  | bitwise .. | negate | shift .. | switchBit .. | reverse | shuffle _ => true
  | sort key _ => key.isNone
  | append _ | appendText .. | copy .. | resize .. | hash .. | hmac .. => false

def Store.isMutable (σ : Store) (s : SequenceId) : Bool :=
  (σ.sequences[s]?).any fun q => q.variant = .mutable

namespace Call

/-- The array that the caller names in a call, to look at it or to write it. -/
def array? : Call → Option BufferId
  | construct _ c => c.array?
  | caller a => a.target?
  | _ => none

/-- The array of the handle that a call goes through: the one that the caller names, or
that of the sequence which the call is on. -/
def through? (σ : Store) (c : Call) : Option BufferId :=
  match c.array? with
  | some b => some b
  | none => c.receiver?.bind fun s => (σ.sequences[s]?).map (·.buffer)

/-- Whether a call is a sharing step where it yields `h`. A sequence that is not immutable
is made over an array of the caller; a sequence is had again as it is, under another order
or as a read-only one; the storage of a mutable one is handed out; or a mutable one is
itself what a change of its content yields. -/
def shares (σ : Store) (c : Call) (h : Handle) : Bool :=
  match c with
  | construct v c => v ≠ .immutable && c.array?.isSome
  | convert _ .duplicate | convert _ (.withOrder _) | convert _ .toReadOnly => true
  | expose s .array => σ.isMutable s
  | request s r => σ.isMutable s && r.inPlace && h = .sequence s
  | mutate s _ => h = .sequence s
  | _ => false

end Call

/-! ## What a call may come to -/

namespace Store

/-- The array of each sequence is there. -/
def Bounded (σ : Store) : Prop := ∀ q ∈ σ.sequences, q.buffer < σ.buffers.length

/-- Nothing has changed but the content of one array, if it is given. -/
structure Touched (σ : Store) (b : Option BufferId) (σ' : Store) : Prop where
  handles : σ'.handles = σ.handles
  count : σ'.buffers.length = σ.buffers.length
  buffers : ∀ c, b ≠ some c → σ'.buffers[c]? = σ.buffers[c]?

end Store

/-- What a call may come to. What it yields shares the array that it goes through, or has
an array that is new. -/
inductive Call.Comes (c : Call) (σ : Store) : Outcome Value × Store → Prop
  | refused {σ' : Store} (f : Fault) (h : σ.Touched (c.through? σ) σ') :
      Comes c σ (.error f, σ')
  | answered {σ' : Store} {v : Value} (hv : v.isPlain = true)
      (h : σ.Touched (c.through? σ) σ') : Comes c σ (.ok v, σ')
  | returned {σ' : Store} {s : SequenceId} {q : Sequence} (hs : c.shares σ (.sequence s) = true)
      (hq : σ.sequences[s]? = some q) (hb : c.through? σ = some q.buffer)
      (h : σ.Touched (c.through? σ) σ') : Comes c σ (.ok (.sequence s), σ')
  | adopted {b : BufferId} (v : Variant) (o : ByteOrder)
      (hs : c.shares σ (.sequence σ.sequences.length) = true) (hb : c.through? σ = some b) :
      Comes c σ (.ok (.sequence σ.sequences.length), σ.adopted v o b)
  | created {σ' : Store} (v : Variant) (o : ByteOrder) (x : Bytes)
      (hs : c.shares σ (.sequence σ.sequences.length) = false)
      (h : σ.Touched (c.through? σ) σ') :
      Comes c σ (.ok (.sequence σ.sequences.length), σ'.created v o x)
  | granted {b : BufferId} (hs : ∀ k, c.shares σ (.array k) = true)
      (hb : c.through? σ = some b) : Comes c σ (.ok (.buffer b), σ)
  | allocated (x : Bytes) (hs : ∀ k, c.shares σ (.array k) = false) :
      Comes c σ (.ok (.buffer σ.buffers.length), σ.allocated x)

namespace Store

variable {σ σ' : Store} {s : SequenceId} {q : Sequence} {x : Bytes}

theorem Unchanged.touched (h : σ.Unchanged σ') (b : Option BufferId) : σ.Touched b σ' where
  handles := h.handles
  count := by rw [h.buffers]
  buffers := fun c _ => by rw [h.buffers]

theorem touched_refl (σ : Store) (b : Option BufferId) : σ.Touched b σ :=
  (Unchanged.refl σ).touched b

theorem touched_written {b : Option BufferId} {c : BufferId} (h : b = some c) (x : Bytes) :
    σ.Touched b (σ.written c x) where
  handles := rfl
  count := List.length_set
  buffers := by
    intro d hd
    have hne : c ≠ d := fun hcd => hd (h.trans (congrArg some hcd))
    exact List.getElem?_set_ne hne

theorem isMutable_eq (h : σ.sequences[s]? = some q) :
    σ.isMutable s = decide (q.variant = .mutable) := by
  rw [isMutable, h, Option.any_some]

/-- The sequence that a call is on is not there, or has some content. -/
theorem Bounded.holds_or_absent (h : σ.Bounded) (s : SequenceId) :
    σ.sequences[s]? = none ∨ ∃ q x, σ.Holds s q x := by
  cases hs : σ.sequences[s]? with
  | none => exact .inl rfl
  | some q =>
    have hb : q.buffer < σ.buffers.length := h q (List.mem_of_getElem? hs)
    exact .inr ⟨q, σ.buffers[q.buffer], hs, List.getElem?_eq_getElem hb⟩

end Store

namespace Call

variable {σ σ' : Store} {s : SequenceId} {q : Sequence} {x : Bytes} {c : Call}

/-- A call on a sequence that names no array goes through that of the sequence. -/
theorem through?_eq (h : σ.sequences[s]? = some q) (ha : c.array? = none)
    (hr : c.receiver? = some s) : c.through? σ = some q.buffer := by
  simp only [through?, ha, hr, Option.bind_some, h, Option.map_some]

theorem Comes.error (f : Fault) : c.Comes σ (.error f, σ) := .refused f (σ.touched_refl _)

/-- The answer to a question, or a refusal, leaves the store as it is. -/
theorem Comes.of_unchanged {r : Outcome Value} (h : σ.Unchanged σ')
    (hr : ∀ v, r = .ok v → v.isPlain = true) : c.Comes σ (r, σ') := by
  cases r with
  | ok v => exact .answered (hr v rfl) (h.touched _)
  | error f => exact .refused f (h.touched _)

theorem comes_construct (v : Variant) (c : Construction) (σ : Store) :
    (Call.construct v c).Comes σ ((Call.construct v c).run σ) := by
  show Comes _ σ ((Value.sequence <$> StoreM.construct v c).exec σ)
  rw [StoreM.exec_map, StoreM.exec_construct]
  rcases hplan : c.plan v σ with f | ⟨b | x, o⟩
  · exact .error f
  · obtain ⟨hv, hb, -⟩ := Construction.plan_shared hplan
    refine .adopted v o ?_ ?_
    · simp [shares, hv, hb]
    · simp only [through?, array?, hb]
  · refine .created v o x ?_ (σ.touched_refl _)
    rcases Construction.plan_own hplan with hv | hc
    · simp [shares, hv]
    · simp [shares, hc]

theorem comes_convert (h : σ.Holds s q x) (c : Conversion) :
    (Call.convert s c).Comes σ ((Call.convert s c).run σ) := by
  have hb : (Call.convert s c).through? σ = some q.buffer := through?_eq h.sequence rfl rfl
  show Comes _ σ ((Value.sequence <$> StoreM.convert s c).exec σ)
  rw [StoreM.exec_map, StoreM.exec_convert h]
  cases c with
  | toImmutable => exact .created .immutable q.order x rfl (σ.touched_refl _)
  | toMutable => exact .created .mutable q.order x rfl (σ.touched_refl _)
  | toReadOnly =>
    by_cases hv : q.variant = .readOnly
    · simp only [hv, if_true]
      exact .returned rfl h.sequence hb (σ.touched_refl _)
    · simp only [hv, if_false]
      exact .adopted .readOnly q.order rfl hb
  | duplicate => exact .adopted q.variant q.order rfl hb
  | withOrder order =>
    cases ho : ByteOrder.named order with
    | ok o =>
      simp only [ho]
      exact .adopted q.variant o rfl hb
    | error f =>
      simp only [ho]
      exact .error f
  | slice start stop step =>
    cases hy : Layout.slice start stop step x with
    | ok y =>
      simp only [hy]
      exact .created q.variant q.order y rfl (σ.touched_refl _)
    | error f =>
      simp only [hy]
      exact .error f

theorem comes_mutate (h : σ.Holds s q x) (m : Mutation) :
    (Call.mutate s m).Comes σ ((Call.mutate s m).run σ) := by
  have hb : (Call.mutate s m).through? σ = some q.buffer := through?_eq h.sequence rfl rfl
  show Comes _ σ ((Value.sequence <$> StoreM.mutate s m).exec σ)
  rw [StoreM.exec_map, StoreM.exec_mutate h]
  by_cases hv : q.variant = .mutable
  · rw [if_pos hv]
    cases m.result σ x with
    | ok y => exact .returned (decide_eq_true rfl) h.sequence hb (Store.touched_written hb y)
    | error f => exact .error f
  · rw [if_neg hv]
    exact .error _

theorem comes_leave (h : σ.Holds s q x) :
    (Call.leave s).Comes σ ((Call.leave s).run σ) := by
  have hb : (Call.leave s).through? σ = some q.buffer := through?_eq h.sequence rfl rfl
  show Comes _ σ ((StoreM.leave s >>= fun _ => pure (Value.bool false)).exec σ)
  rw [StoreM.exec_bind, StoreM.exec_leave h]
  by_cases hv : q.variant = .mutable
  · rw [if_pos hv]
    exact .answered rfl (Store.touched_written hb _)
  · rw [if_neg hv]
    exact .error _

theorem comes_enclose (h : σ.Holds s q x) (interrupted : Bool) :
    (Call.enclose s interrupted).Comes σ ((Call.enclose s interrupted).run σ) := by
  have hb : (Call.enclose s interrupted).through? σ = some q.buffer :=
    through?_eq h.sequence rfl rfl
  show Comes _ σ ((StoreM.enclose s interrupted).exec σ)
  rw [StoreM.exec_enclose h]
  by_cases hv : q.variant = .mutable
  · rw [if_pos hv]
    cases interrupted with
    | true => exact .refused _ (Store.touched_written hb _)
    | false => exact .answered rfl (Store.touched_written hb _)
  · rw [if_neg hv]
    exact .error _

theorem comes_expose (h : σ.Holds s q x) {e : Exposure} (he : e ≠ .storage) :
    (Call.expose s e).Comes σ ((Call.expose s e).run σ) := by
  have hb : (Call.expose s e).through? σ = some q.buffer := through?_eq h.sequence rfl rfl
  show Comes _ σ ((StoreM.expose s e).exec σ)
  rw [StoreM.exec_expose h]
  cases e with
  | storage => exact absurd rfl he
  | view => exact .answered rfl ⟨rfl, rfl, fun _ _ => rfl⟩
  | array =>
    have hshares (k : Nat) :
        (Call.expose s .array).shares σ (.array k) = decide (q.variant = .mutable) :=
      Store.isMutable_eq h.sequence
    cases hv : q.variant with
    | mutable => exact .granted (fun k => by simp [hshares, hv]) hb
    | immutable => exact .allocated x (fun k => by simp [hshares, hv])
    | readOnly => exact .error _

theorem comes_sameHash (s t : SequenceId) (σ : Store) :
    (Call.sameHash s t).Comes σ ((Call.sameHash s t).run σ) := by
  have hsame : σ.Unchanged ((Call.sameHash s t).perform.exec σ).2 := by
    apply StoreM.unchanged_bind (StoreM.unchanged_hashKey s σ)
    intro a σ'
    apply StoreM.unchanged_bind (StoreM.unchanged_hashKey t σ')
    exact fun _ => .refl
  have hplain : ∀ v, ((Call.sameHash s t).perform.exec σ).1 = .ok v → v.isPlain = true := by
    intro v hv
    rw [perform_sameHash, StoreM.exec_map] at hv
    exact isPlain_of_map (fun _ => rfl) hv
  exact .of_unchanged hsame hplain

end Call

/-! ## Requests -/

section Requests

variable {σ σ' : Store} {s : SequenceId} {q : Sequence} {x : Bytes} {t : Transformer}

theorem Request.supportsInPlace_copyOf {offset : Int} {length : Option Int} {u : Transform}
    (h : copyOf x offset length = .ok u) : u.supportsInPlace = false := by
  have hrange {n : Int} (h : Transform.copyRange offset n = .ok u) :
      u.supportsInPlace = false := by
    obtain ⟨_, -, h⟩ := exists_of_bind_eq_ok h
    obtain ⟨_, -, h⟩ := exists_of_bind_eq_ok h
    cases h
    rfl
  cases length with
  | some n => exact hrange h
  | none =>
    obtain ⟨_, -, h⟩ := exists_of_bind_eq_ok h
    exact hrange h

/-- The transformer that a request is for can work in place if the request says so. -/
theorem Request.supportsInPlace_eq {r : Request} {o : ByteOrder}
    (h : r.transform? σ o x = .ok t) : t.supportsInPlace = r.inPlace := by
  have hmade {α : Type} {a : Outcome α} {g : α → Transform} {p : Bool}
      (hg : ∀ i, a = .ok i → (g i).supportsInPlace = p)
      (h : a.map (fun i => (g i).toTransformer) = .ok t) : t.supportsInPlace = p := by
    cases ha : a with
    | ok i =>
      rw [ha] at h
      cases h
      exact hg i ha
    | error f =>
      rw [ha] at h
      cases h
  cases r with
  | apply u | negate | switchBit position value | reverse | sort key descending | shuffle g =>
    cases h
    rfl
  | append parts => exact hmade (g := .concat) (fun _ _ => rfl) h
  | appendText u codec => exact hmade (g := .concat) (fun _ _ => rfl) h
  | bitwise op operand => exact hmade (g := .bitwise op) (fun _ _ => rfl) h
  | shift d count =>
    refine hmade (g := id) ?_ h
    intro u hu
    obtain ⟨_, -, hu⟩ := exists_of_bind_eq_ok hu
    cases hu
    rfl
  | copy offset length => exact hmade (g := id) (fun u hu => supportsInPlace_copyOf hu) h
  | resize anchor length =>
    refine hmade (g := id) ?_ h
    intro u hu
    obtain ⟨_, -, hu⟩ := exists_of_bind_eq_ok hu
    cases hu
    rfl
  | hash l algorithm => exact hmade (g := .digest) (fun _ _ => rfl) h
  | hmac l key algorithm =>
    obtain ⟨k, -, h⟩ := exists_of_bind_eq_ok h
    exact hmade (g := (.hmac · k)) (fun _ _ => rfl) h

theorem Call.comes_request (h : σ.Holds s q x) (r : Request) :
    (Call.request s r).Comes σ ((Call.request s r).run σ) := by
  have hb : (Call.request s r).through? σ = some q.buffer := through?_eq h.sequence rfl rfl
  have hnew : (Call.request s r).shares σ (.sequence σ.sequences.length) = false := by
    simp [shares, h.ne_length]
  show Comes _ σ ((Value.sequence <$> StoreM.request s r).exec σ)
  rw [StoreM.exec_map, StoreM.exec_request h]
  cases ht : r.transform? σ q.order x with
  | error f => exact .error f
  | ok t =>
    have htouched : σ.Touched _ (σ.written q.buffer (StoreM.effect q t x).current) :=
      Store.touched_written hb _
    simp only [StoreM.exec_dispatch h]
    rcases (StoreM.effect q t x).reply with f | (_ | y)
    · exact .refused f htouched
    · by_cases hp : StoreM.inPlace q t = true
      · simp only [hp, if_true]
        refine .returned ?_ h.sequence hb htouched
        have hr : r.inPlace = true := by
          rw [← Request.supportsInPlace_eq ht]
          exact ((Bool.and_eq_true ..).mp hp).2
        simp [shares, Store.isMutable_eq h.sequence, StoreM.mutable_of_inPlace hp, hr]
      · simp only [hp]
        exact .created q.variant q.order _ hnew htouched
    · exact .created q.variant q.order y hnew htouched

end Requests

/-! ## What is left as it is -/

namespace Call.Comes

variable {c : Call} {σ : Store} {r : Outcome Value × Store}

/-- An array that a call does not go through is not written. -/
theorem buffer_of_ne (h : c.Comes σ r) {b : BufferId} {x : Bytes}
    (hx : σ.buffers[b]? = some x) (hb : c.through? σ ≠ some b) : r.2.buffers[b]? = some x := by
  have happend {l : List Bytes} {y : Bytes} (hl : l[b]? = some x) : (l ++ [y])[b]? = some x :=
    Store.getElem?_of_isPrefix (List.prefix_append ..) hl
  cases h with
  | refused f h => exact (h.buffers b hb).trans hx
  | answered hv h => exact (h.buffers b hb).trans hx
  | returned hs hq hb' h => exact (h.buffers b hb).trans hx
  | adopted v o hs hb' => exact hx
  | created v o y hs h => exact happend ((h.buffers b hb).trans hx)
  | granted hs hb' => exact hx
  | allocated y hs => exact happend hx

theorem count_le (h : c.Comes σ r) : σ.buffers.length ≤ r.2.buffers.length := by
  cases h with
  | refused f h => exact Nat.le_of_eq h.count.symm
  | answered hv h => exact Nat.le_of_eq h.count.symm
  | returned hs hq hb h => exact Nat.le_of_eq h.count.symm
  | adopted v o hs hb => exact Nat.le_refl _
  | @created σ' v o y hs h =>
    rw [← h.count]
    exact (σ'.grown_created v o y).buffers.length_le
  | granted hs hb => exact Nat.le_refl _
  | allocated y hs => exact (σ.grown_allocated y).buffers.length_le

/-- Every sequence keeps its variant, its order and its array. -/
theorem handles (h : c.Comes σ r) : σ.handles <+: r.2.handles := by
  cases h with
  | refused f h => exact h.handles ▸ List.prefix_rfl
  | answered hv h => exact h.handles ▸ List.prefix_rfl
  | returned hs hq hb h => exact h.handles ▸ List.prefix_rfl
  | adopted v o hs hb => exact (σ.grown_adopted v o _).handles
  | @created σ' v o y hs h => exact h.handles ▸ (σ'.grown_created v o y).handles
  | granted hs hb => exact List.prefix_rfl
  | allocated y hs => exact List.prefix_rfl

end Call.Comes

/-! ## All calls -/

theorem Call.comes_act (a : CallerAction) (σ : Store) :
    (Call.caller a).Comes σ ((Call.caller a).run σ) := by
  show Comes _ σ ((StoreM.act a).exec σ)
  have hresult := StoreM.exec_act a σ
  rcases hexec : (StoreM.act a).exec σ with ⟨r, σ'⟩
  rw [hexec] at hresult
  cases hresult with
  | refused f => exact .error f
  | allocated x => exact .allocated x fun _ => rfl
  | written b y hb =>
    have hthrough : (Call.caller a).through? σ = some b := by
      simp only [through?, array?, hb]
    exact .answered rfl (Store.touched_written hthrough y)
  | released v => exact .answered rfl ⟨rfl, rfl, fun _ _ => rfl⟩

/-- A call on a sequence that is not there is refused. -/
theorem Call.run_absent {c : Call} {σ : Store} {s : SequenceId} (hr : c.receiver? = some s)
    (h : σ.sequences[s]? = none) : c.run σ = (.error .unbound, σ) := by
  have hmap {α : Type} {m : StoreM α} (g : α → Value) (hm : m.exec σ = (.error .unbound, σ)) :
      (g <$> m).exec σ = (.error .unbound, σ) := by
    rw [StoreM.exec_map, hm]
    rfl
  cases c with
  | construct v c => cases hr
  | query t k =>
    cases hr
    show (σ.query s k, σ) = _
    rw [Store.query, Store.sequence?, h]
    rfl
  | sameHash t u =>
    cases hr
    show (StoreM.hashKey s >>= _).exec σ = _
    rw [StoreM.exec_bind, StoreM.hashKey, StoreM.exec_absent h]
  | rank ss => cases hr
  | request t r => 
    cases hr
    exact hmap _ (StoreM.exec_absent h _)
  | convert t c => 
    cases hr
    exact hmap _ (StoreM.exec_absent h _)
  | mutate t m => 
    cases hr
    exact hmap _ (StoreM.exec_mutableOnly_absent h _ _)
  | enclose t interrupted => 
    cases hr
    exact StoreM.exec_mutableOnly_absent h _ _
  | leave t =>
    cases hr
    exact hmap (fun _ => Value.bool false) (StoreM.exec_mutableOnly_absent h _ _)
  | expose t e => 
    cases hr
    exact StoreM.exec_absent h _
  | caller a => cases hr

/-- What any call may come to, unless it asks for the storage that is kept from the caller. -/
theorem Store.Bounded.comes {σ : Store} (h : σ.Bounded) {c : Call}
    (hc : ∀ s, c ≠ .expose s .storage) : c.Comes σ (c.run σ) := by
  have hon {s : SequenceId} (hr : c.receiver? = some s)
      (hs : ∀ q x, σ.Holds s q x → c.Comes σ (c.run σ)) : c.Comes σ (c.run σ) := by
    rcases h.holds_or_absent s with habsent | ⟨q, x, hq⟩
    · rw [Call.run_absent hr habsent]
      exact .error .unbound
    · exact hs q x hq
  cases c with
  | construct v c => exact Call.comes_construct v c σ
  | query s k => exact .of_unchanged (.refl σ) fun a ha => Store.isPlain_query ha
  | sameHash s t => exact Call.comes_sameHash s t σ
  | rank ss => exact .of_unchanged (.refl σ) fun a ha => isPlain_of_map (fun _ => rfl) ha
  | request s r => exact hon rfl fun _ _ hs => Call.comes_request hs r
  | convert s c => exact hon rfl fun _ _ hs => Call.comes_convert hs c
  | mutate s m => exact hon rfl fun _ _ hs => Call.comes_mutate hs m
  | enclose s interrupted => exact hon rfl fun _ _ hs => Call.comes_enclose hs interrupted
  | leave s => exact hon rfl fun _ _ hs => Call.comes_leave hs
  | expose s e =>
    have he : e ≠ .storage := fun he => hc s (congrArg (Call.expose s) he)
    exact hon rfl fun _ _ hs => Call.comes_expose hs he
  | caller a => exact Call.comes_act a σ

end Octets
