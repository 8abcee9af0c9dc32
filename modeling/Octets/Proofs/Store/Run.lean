import Octets.Proofs.Store.Construction
import Octets.Proofs.Store.Execution
import Octets.Proofs.Transform
/-!
# Runs

A world is a store together with the arrays that its caller has been handed out. A run
is any finite series of calls. The caller wraps and writes only arrays it has been
handed out, brings honest transformers, and does not ask for the storage that is kept
from it.
-/

namespace Octets

/-- A store, and the arrays that the caller has been handed out. -/
structure World where
  store : Store
  held : List BufferId

/-- The arrays that an outcome hands out. -/
def handedOut : Outcome Value → List BufferId
  | .ok (.buffer b) => [b]
  | _ => []

/-- What a caller may ask for once it has been handed out some arrays. -/
def Call.Permitted (held : List BufferId) : Call → Prop
  | .construct _ c => ∀ b, c.array? = some b → b ∈ held
  | .request _ (.apply t) => t.Honest
  | .expose _ e => e ≠ .storage
  | .caller a => ∀ b, a.target? = some b → b ∈ held
  | _ => True

namespace World

/-- Nothing is there and nothing has been handed out. -/
def initial : World := ⟨Store.empty, []⟩

/-- The world after a call. -/
def after (w : World) (c : Call) : World :=
  ⟨(c.run w.store).2, handedOut (c.run w.store).1 ++ w.held⟩

/-- The worlds that calls lead to, one after another. -/
inductive Run (w : World) : World → Prop
  | here : Run w w
  | next {w' : World} {c : Call} (run : Run w w') (hc : c.Permitted w'.held) :
      Run w (w'.after c)

end World

/-! ## What is handed out -/

theorem handedOut_map {α : Type} {g : α → Value} (hg : ∀ a, handedOut (.ok (g a)) = [])
    (r : Outcome α) : handedOut (r.map g) = [] := by
  cases r with
  | error f => rfl
  | ok a => exact hg a

/-- Neither a sequence nor an array. -/
def Value.isPlain : Value → Bool
  | .sequence _ | .buffer _ => false
  | _ => true

theorem handedOut_of_isPlain {a : Value} (h : a.isPlain = true) : handedOut (.ok a) = [] := by
  cases a with
  | buffer b => cases h
  | _ => rfl

theorem isPlain_of_map {α : Type} {g : α → Value} (hg : ∀ a, (g a).isPlain = true)
    {r : Outcome α} {a : Value} (h : r.map g = .ok a) : a.isPlain = true := by
  cases r with
  | ok b =>
    cases h
    exact hg b
  | error f => cases h

/-- No answer to a question is a sequence or an array. -/
theorem Query.isPlain_answer {σ : Store} {v : Variant} {o : ByteOrder} {x : Bytes} {k : Query}
    {a : Value} (h : k.answer σ v o x = .ok a) : a.isPlain = true := by
  have hnumbered (k : IntegerKind) (i : Int) : (Query.numbered k i).isPlain = true := by
    rw [Query.numbered]
    by_cases hk : k = .char
    · rw [if_pos hk]
      rfl
    · rw [if_neg hk]
      rfl
  cases k with
  | integer k => exact isPlain_of_map (hnumbered k) h
  | integerAt k i => exact isPlain_of_map (hnumbered k) h
  | order | length | bitLength | isEmpty | isMutable | isReadOnly | entropy | bigInteger
  | encode | bytes | list | description =>
    cases h
    rfl
  | _ => exact isPlain_of_map (fun _ => rfl) h

theorem Store.isPlain_query {σ : Store} {s : SequenceId} {k : Query} {a : Value}
    (h : σ.query s k = .ok a) : a.isPlain = true := by
  obtain ⟨r, -, h⟩ := exists_of_bind_eq_ok h
  obtain ⟨x, -, h⟩ := exists_of_bind_eq_ok h
  exact Query.isPlain_answer h

theorem handedOut_query (σ : Store) (s : SequenceId) (k : Query) :
    handedOut (σ.query s k) = [] := by
  cases h : σ.query s k with
  | ok a => exact handedOut_of_isPlain (Store.isPlain_query h)
  | error f => rfl

/-- Comparing two hashes tells no more than whether they are the same. -/
theorem Call.perform_sameHash (s t : SequenceId) : (Call.sameHash s t).perform =
    (fun p => Value.bool (p.1 = p.2)) <$> (do
      let a ← StoreM.hashKey s
      let b ← StoreM.hashKey t
      return (a, b)) := by
  simp only [Call.perform, map_eq_pure_bind, bind_assoc, pure_bind]

/-! ## Worlds after calls -/

namespace World

variable {σ : Store} {held : List BufferId} {c : Call}

theorem after_eq {r : Outcome Value} {σ' : Store} (h : c.perform.exec σ = (r, σ')) :
    (⟨σ, held⟩ : World).after c = ⟨σ', handedOut r ++ held⟩ := by
  show (⟨(c.perform.exec σ).2, handedOut (c.perform.exec σ).1 ++ held⟩ : World) = _
  rw [h]

/-- A call that yields anything but an array hands out nothing. -/
theorem after_map {α : Type} {m : StoreM α} {g : α → Value} (h : c.perform = g <$> m)
    (hg : ∀ a, handedOut (.ok (g a)) = []) :
    (⟨σ, held⟩ : World).after c = ⟨(m.exec σ).2, held⟩ := by
  have hexec : c.perform.exec σ = ((m.exec σ).1.map g, (m.exec σ).2) := by
    rw [h, StoreM.exec_map]
  rw [after_eq hexec, handedOut_map hg]
  rfl

end World
end Octets
