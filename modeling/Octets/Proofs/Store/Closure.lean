import Octets.Proofs.Store.Dispatch
/-!
# Transforms and variants

A transform of a sequence yields a sequence of the same variant and order. That is the
receiver itself exactly if the receiver is mutable, the transformer can work in place and
it has answered with the array that it was given; else it is a new sequence over a new
array (`StoreM.transformed_dispatch`), whatever transformer a caller may bring. What the
library's own transformers say of themselves is true, so that what can work in place on a
mutable sequence does: `transforms_closed`.
-/

namespace Octets

/-- What a transform of the sequence `s` that yields `k` leaves behind. -/
structure Store.Transformed (σ σ' : Store) (s : SequenceId) (q : Sequence) (x : Bytes)
    (t : Transformer) (k : SequenceId) : Prop where
  /-- What is yielded has the variant and the order of the receiver, and the content that
  the transformer has answered with. -/
  closed : ∃ p y, σ'.Holds k p y ∧ p.variant = q.variant ∧ p.order = q.order ∧
    (StoreM.effect q t x).content = .ok y
  itself : k = s ↔
    q.variant = .mutable ∧ t.supportsInPlace = true ∧ (t.apply true x).reply = .ok .given
  /-- The receiver stays over its array. -/
  receiver : σ'.sequences[s]? = some q
  /-- Another sequence is new, and so is its array. -/
  fresh : k ≠ s → σ.sequences[k]? = none ∧
    ∃ p, σ'.sequences[k]? = some p ∧ σ.buffers[p.buffer]? = none ∧ p.buffer ≠ q.buffer
  /-- Making it, a transformer of the library has not written the receiver. -/
  unwritten : ∀ u : Transform, t = u.toTransformer → k ≠ s → σ'.buffers[q.buffer]? = some x

namespace StoreM

variable {σ σ' : Store} {s k : SequenceId} {q : Sequence} {x : Bytes} {t : Transformer}

theorem inPlace_eq_true :
    inPlace q t = true ↔ q.variant = .mutable ∧ t.supportsInPlace = true := by
  constructor
  · intro h
    exact ⟨mutable_of_inPlace h, ((Bool.and_eq_true ..).mp h).2⟩
  · rintro ⟨hv, hp⟩
    rw [inPlace, hv, hp]
    rfl

/-- The receiver, rewritten with what the transformer has left in its array. -/
theorem transformed_written (h : σ.Holds s q x) (hp : inPlace q t = true)
    (hr : (effect q t x).reply = .ok .given) :
    σ.Transformed (σ.written q.buffer (effect q t x).current) s q x t s where
  closed := by
    have hcontent : (effect q t x).content = .ok (effect q t x).current := by
      rw [Effect.content, hr]
      rfl
    exact ⟨q, _, h.written _, rfl, rfl, hcontent⟩
  itself := by
    obtain ⟨hv, ht⟩ := inPlace_eq_true.mp hp
    rw [effect, hp] at hr
    exact ⟨fun _ => ⟨hv, ht, hr⟩, fun _ => rfl⟩
  receiver := h.sequence
  fresh := fun hne => absurd rfl hne
  unwritten := fun _ _ hne => absurd rfl hne

/-- A new sequence, the array of the receiver being as the transformer has left it. -/
theorem transformed_created (h : σ.Holds s q x) {y : Bytes}
    (hr : ¬ (inPlace q t = true ∧ (effect q t x).reply = .ok .given))
    (hy : (effect q t x).content = .ok y) :
    σ.Transformed ((σ.written q.buffer (effect q t x).current).created q.variant q.order y)
      s q x t σ.sequences.length where
  closed := ⟨_, y, Store.holds_created _ q.variant q.order y, rfl, rfl, hy⟩
  itself := by
    constructor
    · intro hs
      exact absurd hs h.ne_length
    · rintro ⟨hv, ht, hgiven⟩
      have hp : inPlace q t = true := inPlace_eq_true.mpr ⟨hv, ht⟩
      refine absurd ⟨hp, ?_⟩ hr
      rw [effect, hp]
      exact hgiven
  receiver := ((h.written _).created q.variant q.order y).sequence
  fresh := by
    intro _
    have hlength : (σ.written q.buffer (effect q t x).current).buffers.length =
        σ.buffers.length := List.length_set
    refine ⟨List.getElem?_eq_none (Nat.le_refl _), _, (Store.holds_created ..).sequence, ?_, ?_⟩
    · exact List.getElem?_eq_none (Nat.le_of_eq hlength.symm)
    · exact Nat.ne_of_gt (hlength.symm ▸ h.lt)
  unwritten := by
    rintro u rfl -
    have hcurrent : (effect q u.toTransformer x).current = x := by
      cases hp : inPlace q u.toTransformer with
      | false =>
        rw [effect, hp]
        exact u.current_apply_false x
      | true =>
        cases hreply : (effect q u.toTransformer x).reply with
        | error f =>
          rw [Effect.content, hreply] at hy
          cases hy
        | ok r =>
          cases r with
          | given => exact absurd ⟨hp, hreply⟩ hr
          | fresh z => exact Transform.current_of_fresh hreply
    rw [hcurrent, Store.written_self h.content]
    exact (h.created q.variant q.order y).content

/-- Whatever the transformer does, the variant decides what is yielded. -/
theorem transformed_dispatch (h : σ.Holds s q x)
    (hk : (dispatch s t).exec σ = (.ok k, σ')) : σ.Transformed σ' s q x t k := by
  rw [exec_dispatch h] at hk
  cases hreply : (effect q t x).reply with
  | error f =>
    rw [hreply] at hk
    cases hk
  | ok r =>
    rw [hreply] at hk
    cases r with
    | fresh y =>
      cases hk
      refine transformed_created h ?_ ?_
      · rintro ⟨-, hgiven⟩
        cases hreply.symm.trans hgiven
      · rw [Effect.content, hreply]
        rfl
    | given =>
      cases hp : inPlace q t with
      | true =>
        rw [hp] at hk
        cases hk
        exact transformed_written h hp hreply
      | false =>
        rw [hp] at hk
        cases hk
        refine transformed_created h ?_ ?_
        · rintro ⟨htrue, -⟩
          cases hp.symm.trans htrue
        · rw [Effect.content, hreply]
          rfl

end StoreM

theorem Call.run_request {σ : Store} {s : SequenceId} {q : Sequence} {x : Bytes}
    (h : σ.Holds s q x) {r : Request} {t : Transformer}
    (ht : r.transform? σ q.order x = .ok t) :
    (Call.request s r).run σ =
      (((StoreM.dispatch s t).exec σ).1.map Value.sequence, ((StoreM.dispatch s t).exec σ).2) := by
  show (Value.sequence <$> StoreM.request s r).exec σ = _
  rw [StoreM.exec_map, StoreM.exec_request h, ht]

theorem Call.run_request_refused {σ : Store} {s : SequenceId} {q : Sequence} {x : Bytes}
    (h : σ.Holds s q x) {r : Request} {f : Fault} (hr : r.transform? σ q.order x = .error f) :
    (Call.request s r).run σ = (.error f, σ) := by
  show (Value.sequence <$> StoreM.request s r).exec σ = _
  rw [StoreM.exec_map, StoreM.exec_request h, hr]
  rfl

/-- What a request on `s` that can be worked off in place comes to: a mutable sequence has the
content `y` from then on, any other one has made a new one of it. -/
def Store.rewriting (σ : Store) (s : SequenceId) (q : Sequence) (y : Bytes) :
    Outcome Value × Store :=
  if q.variant = .mutable then (.ok (.sequence s), σ.written q.buffer y)
  else (.ok (.sequence σ.sequences.length), σ.created q.variant q.order y)

theorem Call.run_rewriting {σ : Store} {s : SequenceId} {q : Sequence} {x y : Bytes}
    (h : σ.Holds s q x) {r : Request} {u : Transform}
    (ht : r.transform? σ q.order x = .ok u.toTransformer) (hu : u.supportsInPlace = true)
    (hy : (u.apply false x).content = .ok y) :
    (Call.request s r).run σ = σ.rewriting s q y := by
  rw [Call.run_request h ht, StoreM.exec_dispatch_library h, hy, Store.rewriting]
  simp only [StoreM.inPlace_eq_true, Transform.toTransformer, hu, and_true]
  by_cases hv : q.variant = .mutable
  · rw [if_pos hv, if_pos hv]
    rfl
  · rw [if_neg hv, if_neg hv]
    rfl

/-- How transforms go by the variant of the receiver. -/
structure Store.ClosedUnderTransforms (σ : Store) : Prop where
  /-- A request for a transformer, the library's own or a caller's. -/
  yields : ∀ {s k : SequenceId} {q : Sequence} {x : Bytes} {r : Request} {t : Transformer}
    {σ' : Store}, σ.Holds s q x → r.transform? σ q.order x = .ok t →
    (Call.request s r).run σ = (.ok (.sequence k), σ') → σ.Transformed σ' s q x t k
  /-- A transformer of the library says that it can work in place exactly if it answers with
  the array that it is given to write, whatever array it accepts. -/
  declared : ∀ u : Transform, u.supportsInPlace = true ↔
    ∀ x r, (u.apply true x).reply = .ok r → r = .given
  /-- It neither answers with an array that it is not given to write, nor writes it. -/
  copied : ∀ (u : Transform) (x : Bytes),
    (u.apply false x).reply ≠ .ok .given ∧ (u.apply false x).current = x
  /-- What can work in place on a mutable sequence, and is not refused, yields the sequence
  itself over its own array. -/
  kept : ∀ {s : SequenceId} {q : Sequence} {x y : Bytes} {r : Request} {u : Transform},
    σ.Holds s q x → q.variant = .mutable → r.transform? σ q.order x = .ok u.toTransformer →
    u.supportsInPlace = true → (u.apply true x).content = .ok y →
    (Call.request s r).run σ = (.ok (.sequence s), σ.written q.buffer y)

theorem transforms_closed (σ : Store) : σ.ClosedUnderTransforms where
  yields := by
    intro s k q x r t σ' h ht hrun
    rw [Call.run_request h ht] at hrun
    obtain ⟨hk, hσ⟩ := Prod.mk.inj hrun
    apply StoreM.transformed_dispatch h
    rw [← hσ]
    cases hexec : ((StoreM.dispatch s t).exec σ).1 with
    | error f =>
      rw [hexec] at hk
      cases hk
    | ok k' =>
      rw [hexec] at hk
      cases hk
      exact congrArg (·, _) hexec
  declared := Transform.supportsInPlace_iff
  copied := fun u x => ⟨u.reply_apply_false x, u.current_apply_false x⟩
  kept := by
    intro s q x y r u h hv ht hu hy
    have hp : StoreM.inPlace q u.toTransformer = true := StoreM.inPlace_eq_true.mpr ⟨hv, hu⟩
    rw [u.content_apply] at hy
    rw [Call.run_request h ht, StoreM.exec_dispatch_library h, hy]
    simp only [hp, if_true]
    rfl

end Octets
