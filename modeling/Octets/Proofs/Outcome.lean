import Octets.Fault
/-!
# Outcomes

What has been computed from an outcome has been computed from a value, and a refusal comes
through as it is.
-/

namespace Octets

theorem exists_of_bind_eq_ok {α β : Type} {r : Outcome α} {k : α → Outcome β} {b : β}
    (h : r >>= k = .ok b) : ∃ a, r = .ok a ∧ k a = .ok b := by
  cases r with
  | error f => cases h
  | ok a => exact ⟨a, rfl, h⟩

theorem map_eq_ok {α β : Type} {r : Outcome α} {f : α → β} {b : β} :
    r.map f = .ok b ↔ ∃ a, r = .ok a ∧ f a = b := by
  cases r with
  | error e => exact ⟨nofun, fun ⟨_, h, _⟩ => nomatch h⟩
  | ok a =>
    constructor
    · intro h
      exact ⟨a, rfl, Except.ok.inj h⟩
    · rintro ⟨_, ⟨⟩, rfl⟩
      rfl

/-- What is refused before an answer is put together is refused. -/
theorem refused_iff_of_pure {α β : Type} {r : Outcome α} {g : α → β} {kind : FaultKind} :
    (∃ f, (r >>= fun a => pure (g a)) = .error f ∧ f.kind = kind) ↔
      ∃ f, r = .error f ∧ f.kind = kind := by
  cases r with
  | error e => simp [bind, Except.bind]
  | ok a => simp [bind, Except.bind, pure, Except.pure]

end Octets
