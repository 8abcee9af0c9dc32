import Octets.Proofs.Store.Changes
import Octets.Store.Construction
/-!
# What a construction shares

`plan_shared`: a new sequence shares an array only if the construction wraps that very
array and the variant is not the immutable one. Every other construction gives it
storage of its own.
-/

namespace Octets.Construction

/-- The array that a construction may look at instead of copying it. -/
def array? : Construction → Option BufferId
  | wrap (.buffer b) _ | plain (.buffer b) _ => some b
  | _ => none

/-! ## Storage of its own -/

/-- Under an order that is named, all depends on what is computed from it. -/
theorem ownBy_eq {order : Option String} {o : ByteOrder} (ho : ByteOrder.named order = .ok o)
    (f : ByteOrder → Outcome Bytes) : ownBy order f = (f o).map fun x => (.own x, o) := by
  rw [ownBy, ho]
  show (f o >>= fun x => pure (Storage.own x, o)) = _
  cases f o with
  | error e => rfl
  | ok x => rfl

/-- A plan that shares no array. -/
def Owns (plan : Outcome (Storage × ByteOrder)) : Prop :=
  ∀ b o, plan ≠ .ok (.shared b, o)

theorem owns_ok (x : Bytes) (o : ByteOrder) : Owns (.ok (.own x, o)) := by
  intro b o' h
  cases h

theorem owns_error (f : Fault) : Owns (.error f) := by
  intro b o h
  cases h

/-- A plan shares nothing if it shares nothing whatever has been computed before. -/
theorem owns_bind {α : Type} (m : Outcome α) {k : α → Outcome (Storage × ByteOrder)}
    (hk : ∀ a, Owns (k a)) : Owns (m >>= k) := by
  cases m with
  | ok a => exact hk a
  | error f => exact owns_error f

theorem owns_ownUnder (order : Option String) (x : Bytes) : Owns (ownUnder order x) :=
  owns_bind _ (owns_ok x)

theorem owns_ownBy (order : Option String) (f : ByteOrder → Outcome Bytes) :
    Owns (ownBy order f) := by
  apply owns_bind
  intro o
  apply owns_bind
  intro x
  exact owns_ok x o

theorem owns_ownStandard (x : Outcome Bytes) : Owns (ownStandard x) := by
  cases x with
  | ok x => exact owns_ok x _
  | error f => exact owns_error f

/-! ## Shared storage -/

variable {v : Variant} {σ : Store} {b : BufferId} {o : ByteOrder} {data : Operand}

theorem storageOf_shared (h : storageOf v σ data = .ok (.shared b)) :
    v ≠ .immutable ∧ data = .buffer b ∧ b < σ.buffers.length := by
  have hown (r : Outcome Bytes) : r.map Storage.own ≠ .ok (.shared b) := by
    intro hr
    cases r with
    | ok x => cases hr
    | error f => cases hr
  cases data with
  | buffer c =>
    rw [storageOf] at h
    by_cases hv : v = .immutable
    · rw [if_pos hv] at h
      exact absurd h (hown _)
    · rw [if_neg hv] at h
      cases hx : σ.buffer? c with
      | error f =>
        rw [hx] at h
        cases h
      | ok x =>
        rw [hx] at h
        cases h
        exact ⟨hv, rfl, (List.getElem?_eq_some_iff.mp (Store.buffer?_eq_ok.mp hx)).1⟩
  | bytes x => exact absurd h (hown (.ok x))
  | ints vs => exact absurd h (hown (σ.read (.ints vs)))
  | sequence s => exact absurd h (hown (σ.read (.sequence s)))
  | view w => exact absurd h (hown (σ.read (.view w)))
  | part w offset length => exact absurd h (hown (σ.read (.part w offset length)))
  | other => exact absurd h (hown (σ.read .other))

/-- Storage under an order that is named is shared if it was before the order is known. -/
theorem named_shared {storage : Outcome Storage} {order : Option String}
    (h : (do
      let storage ← storage
      let o ← ByteOrder.named order
      return (storage, o)) = .ok (.shared b, o)) : storage = .ok (.shared b) := by
  obtain ⟨r, hr, h⟩ := exists_of_bind_eq_ok h
  obtain ⟨o', -, h⟩ := exists_of_bind_eq_ok h
  cases h
  exact hr

/-- A construction that wraps no array shares none. -/
theorem owns_plan {c : Construction} (h : c.array? = none) : Owns (c.plan v σ) := by
  have hnamed {data : Operand} {order : Option String} (hd : ∀ b, data ≠ .buffer b) :
      Owns (do
        let storage ← storageOf v σ data
        let o ← ByteOrder.named order
        return (storage, o)) := by
    intro b o hplan
    exact hd b (storageOf_shared (named_shared hplan)).2.1
  cases c with
  | wrap data order =>
    cases data with
    | buffer b => cases h
    | sequence s =>
      apply owns_bind
      intro q
      apply owns_bind
      intro x
      apply owns_bind
      intro o
      exact owns_ok x o
    | _ => exact hnamed (fun b => nofun)
  | plain data order =>
    cases data with
    | buffer b => cases h
    | _ => exact hnamed (fun b => nofun)
  | copyOf data order => exact owns_bind _ (owns_ownUnder order)
  | allocate length fill order => exact owns_bind _ (fun _ => owns_ownUnder order _)
  | empty order => exact owns_ownUnder order []
  | ofChar t order => exact owns_bind _ (fun _ => owns_ownBy order _)
  | ofInteger k v order => exact owns_ownBy order _
  | ofIntegers k vs order => exact owns_ownBy order _
  | ofReal k r order => exact owns_ownBy order _
  | ofBigInteger v order => exact owns_ownBy order _
  | parse t e order => exact owns_ownBy order _
  | parseRadix t radix order => exact owns_bind _ (fun _ => owns_ownBy order _)
  | random length g => exact owns_bind _ (fun _ => owns_ownStandard _)
  | _ => exact owns_ownStandard _

/-- The array that a construction wraps is all that its plan looks at, apart from the order. -/
theorem plan_of_array {c : Construction} (h : c.array? = some b) :
    ∃ order, c.plan v σ = (do
      let storage ← storageOf v σ (.buffer b)
      let o ← ByteOrder.named order
      return (storage, o)) := by
  cases c with
  | wrap data order | plain data order =>
    cases data with
    | buffer d =>
      cases h
      exact ⟨order, rfl⟩
    | _ => cases h
  | _ => cases h

/-- Only an array that is there and is wrapped by a sequence which is not immutable is
shared. -/
theorem plan_shared {c : Construction} (h : c.plan v σ = .ok (.shared b, o)) :
    v ≠ .immutable ∧ c.array? = some b ∧ b < σ.buffers.length := by
  cases hc : c.array? with
  | none => exact absurd h (owns_plan hc b o)
  | some d =>
    obtain ⟨order, hplan⟩ := plan_of_array (v := v) (σ := σ) hc
    obtain ⟨hv, hd, hb⟩ := storageOf_shared (named_shared (hplan ▸ h))
    cases hd
    exact ⟨hv, rfl, hb⟩

/-- What is planned to be new wraps no array, or is the storage of an immutable sequence. -/
theorem plan_own {c : Construction} {x : Bytes} (h : c.plan v σ = .ok (.own x, o)) :
    v = .immutable ∨ c.array? = none := by
  cases hc : c.array? with
  | none => exact .inr rfl
  | some d =>
    left
    obtain ⟨order, hplan⟩ := plan_of_array (v := v) (σ := σ) hc
    obtain ⟨r, hr, h⟩ := exists_of_bind_eq_ok (hplan ▸ h)
    obtain ⟨o', -, h⟩ := exists_of_bind_eq_ok h
    cases h
    by_cases hv : v = .immutable
    · exact hv
    · rw [storageOf, if_neg hv] at hr
      cases hx : σ.buffer? d with
      | ok y =>
        rw [hx] at hr
        cases hr
      | error f =>
        rw [hx] at hr
        cases hr

end Octets.Construction
