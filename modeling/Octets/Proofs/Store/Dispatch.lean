import Octets.Proofs.Store.Execution
import Octets.Proofs.Transform
/-!
# Transformers of the library on a sequence

A transformer of the library on a sequence comes down to the content that it answers
with on a copy: `exec_dispatch_library`. If it refuses, the store is left as it is, unless
a shuffle has begun to write (`dispatch_unchanged`). Otherwise there is a sequence of the
same variant and order with that content, in the array of the receiver or in one of its
own, and nothing else has changed: `dispatch_yields`.
-/

namespace Octets

/-- What an operation on `q` that yields `t` with the content `y` leaves behind. -/
structure Store.Yields (σ σ' : Store) (q : Sequence) (t : SequenceId) (y : Bytes) : Prop where
  result : ∃ r, σ'.Holds t r y ∧ r.variant = q.variant ∧ r.order = q.order ∧
    (r.buffer = q.buffer ∨ r.buffer = σ.buffers.length)
  frame : ∀ s r z, σ.Holds s r z → r.buffer ≠ q.buffer → σ'.Holds s r z
  grown : σ.buffers.length ≤ σ'.buffers.length

namespace StoreM

variable {σ : Store} {s : SequenceId} {q : Sequence} {x y : Bytes} {u : Transform}

/-- What is answered on a copy is written in place, or is the content of a new sequence. Where
it is refused, what has been written by then stays. -/
theorem exec_dispatch_library (h : σ.Holds s q x) (u : Transform) :
    (dispatch s u.toTransformer).exec σ =
      match (u.apply false x).content with
      | .ok y =>
        if inPlace q u.toTransformer then (.ok s, σ.written q.buffer y)
        else (.ok σ.sequences.length, σ.created q.variant q.order y)
      | .error f => (.error f, σ.written q.buffer (effect q u.toTransformer x).current) := by
  have hself : σ.written q.buffer x = σ := Store.written_self h.content
  rw [exec_dispatch h]
  rcases u.apply_cases with ⟨-, r, hr, -⟩ | ⟨hp, y, hy⟩
  · have heffect : effect q u.toTransformer x =
        Transform.writtenUpTo (inPlace q u.toTransformer) x (r x) := hr _ x
    rw [heffect, hr, Transform.content_writtenUpTo]
    obtain ⟨z, refusal⟩ := r x
    cases refusal with
    | some f => rfl
    | none =>
      cases inPlace q u.toTransformer with
      | true => rfl
      | false => exact congrArg (fun σ' : Store => (_, σ'.created q.variant q.order z)) hself
  · have hcopy : inPlace q u.toTransformer = false := by
      simp [inPlace, Transform.toTransformer, hp]
    have heffect : effect q u.toTransformer x = Transform.made x (y x) := hy _ x
    rw [heffect, hy, hcopy]
    cases y x with
    | error f => rfl
    | ok z => exact congrArg (fun σ' : Store => (_, σ'.created q.variant q.order z)) hself

theorem dispatch_refused (h : σ.Holds s q x) {f : Fault}
    (hf : (u.apply false x).content = .error f) : (dispatch s u.toTransformer).exec σ =
      (.error f, σ.written q.buffer (effect q u.toTransformer x).current) := by
  rw [exec_dispatch_library h, hf]

/-- A refusal leaves the array as it is, but where a draw is refused. -/
theorem current_effect (hdraws : u.generator? = none) {f : Fault}
    (hf : (u.apply false x).content = .error f) : (effect q u.toTransformer x).current = x := by
  rw [← u.content_apply (inPlace q u.toTransformer)] at hf
  exact Transform.current_of_refused hdraws (Effect.reply_of_content hf)

theorem dispatch_unchanged (h : σ.Holds s q x) (hdraws : u.generator? = none) {f : Fault}
    (hf : (u.apply false x).content = .error f) :
    (dispatch s u.toTransformer).exec σ = (.error f, σ) := by
  rw [dispatch_refused h hf, current_effect hdraws hf, Store.written_self h.content]

/-- The receiver itself, rewritten. -/
theorem yields_written (h : σ.Holds s q x) (y : Bytes) :
    σ.Yields (σ.written q.buffer y) q s y where
  result := ⟨q, h.written y, rfl, rfl, .inl rfl⟩
  frame := fun _ _ _ hr hne => hr.written_of_ne hne.symm y
  grown := Nat.le_of_eq (List.length_set ..).symm

/-- A new sequence beside the receiver. -/
theorem yields_created (σ : Store) (q : Sequence) (y : Bytes) :
    σ.Yields (σ.created q.variant q.order y) q σ.sequences.length y where
  result := ⟨_, Store.holds_created _ q.variant q.order y, rfl, rfl, .inr rfl⟩
  frame := fun _ _ _ hr _ => hr.created q.variant q.order y
  grown := by simp [Store.created, Store.adopted, Store.allocated]

theorem dispatch_yields (h : σ.Holds s q x) (hy : (u.apply false x).content = .ok y) :
    ∃ t σ', (dispatch s u.toTransformer).exec σ = (.ok t, σ') ∧ σ.Yields σ' q t y := by
  rw [exec_dispatch_library h, hy]
  by_cases hp : inPlace q u.toTransformer = true
  · exact ⟨s, _, if_pos hp, yields_written h y⟩
  · exact ⟨σ.sequences.length, _, if_neg hp, yields_created σ q y⟩

end StoreM
end Octets
