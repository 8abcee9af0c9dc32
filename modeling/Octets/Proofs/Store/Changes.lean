import Octets.Proofs.Outcome
import Octets.Store.Basic
/-!
# Changes of a store

Every change of a store is one of six: a new array, new content for one, a new
sequence, a new view, a view given up, a hash remembered. None of them takes a sequence
or an array away, and `Holds` follows a sequence and its content through each.
-/

namespace Octets

/-! ## The changes -/

namespace Store

/-- The store with one more array. -/
def allocated (σ : Store) (x : Bytes) : Store :=
  { σ with buffers := σ.buffers ++ [x] }

/-- The store with new content in one array. -/
def written (σ : Store) (b : BufferId) (x : Bytes) : Store :=
  { σ with buffers := σ.buffers.set b x }

/-- The store with one more sequence, over an array that is there. -/
def adopted (σ : Store) (v : Variant) (o : ByteOrder) (b : BufferId) : Store :=
  { σ with sequences := σ.sequences ++ [⟨v, o, b, none⟩] }

/-- The store with one more sequence, over an array of its own. -/
def created (σ : Store) (v : Variant) (o : ByteOrder) (x : Bytes) : Store :=
  (σ.allocated x).adopted v o σ.buffers.length

/-- The store with one more view. -/
def watched (σ : Store) (b : BufferId) : Store :=
  { σ with views := σ.views ++ [some b] }

/-- The store with a view given up. -/
def released (σ : Store) (v : ViewId) : Store :=
  { σ with views := σ.views.set v none }

/-- The store with the hash of a sequence remembered. -/
def remembered (σ : Store) (s : SequenceId) (key : Bytes × ByteOrder) : Store :=
  { σ with sequences := σ.sequences.modify s fun q => { q with hashed := some key } }

/-! ## A sequence and its content -/

/-- A sequence of the store and its content. -/
structure Holds (σ : Store) (s : SequenceId) (q : Sequence) (x : Bytes) : Prop where
  sequence : σ.sequences[s]? = some q
  content : σ.buffers[q.buffer]? = some x

variable {σ : Store} {s : SequenceId} {q : Sequence} {b : BufferId} {x : Bytes}

theorem sequence?_eq_ok : σ.sequence? s = .ok q ↔ σ.sequences[s]? = some q := by
  rw [sequence?]
  cases σ.sequences[s]? with
  | none => simp
  | some r => simp

theorem buffer?_eq_ok : σ.buffer? b = .ok x ↔ σ.buffers[b]? = some x := by
  rw [buffer?]
  cases σ.buffers[b]? with
  | none => simp
  | some y => simp

theorem Holds.sequence? (h : σ.Holds s q x) : σ.sequence? s = .ok q :=
  sequence?_eq_ok.mpr h.sequence

theorem Holds.buffer? (h : σ.Holds s q x) : σ.buffer? q.buffer = .ok x :=
  buffer?_eq_ok.mpr h.content

theorem Holds.content? (h : σ.Holds s q x) : σ.content? s = .ok x := by
  rw [Store.content?, h.sequence?]
  exact h.buffer?

theorem Holds.lt (h : σ.Holds s q x) : q.buffer < σ.buffers.length :=
  (List.getElem?_eq_some_iff.mp h.content).1

theorem Holds.ne_length (h : σ.Holds s q x) : σ.sequences.length ≠ s :=
  Nat.ne_of_gt (List.getElem?_eq_some_iff.mp h.sequence).1

theorem Holds.mem (h : σ.Holds s q x) : q ∈ σ.sequences :=
  List.mem_of_getElem? h.sequence

/-! ## What the changes leave as it is -/

theorem Holds.allocated (h : σ.Holds s q x) (y : Bytes) : (σ.allocated y).Holds s q x where
  sequence := h.sequence
  content := by
    show (σ.buffers ++ [y])[q.buffer]? = some x
    rw [List.getElem?_append_left h.lt]
    exact h.content

theorem Holds.adopted (h : σ.Holds s q x) (v : Variant) (o : ByteOrder) (b : BufferId) :
    (σ.adopted v o b).Holds s q x where
  sequence := by
    show (σ.sequences ++ [_])[s]? = some q
    rw [List.getElem?_append_left (List.getElem?_eq_some_iff.mp h.sequence).1]
    exact h.sequence
  content := h.content

theorem Holds.created (h : σ.Holds s q x) (v : Variant) (o : ByteOrder) (y : Bytes) :
    (σ.created v o y).Holds s q x :=
  (h.allocated y).adopted v o σ.buffers.length

theorem Holds.written_of_ne (h : σ.Holds s q x) {b : BufferId} (hb : b ≠ q.buffer)
    (y : Bytes) : (σ.written b y).Holds s q x where
  sequence := h.sequence
  content := by
    show (σ.buffers.set b y)[q.buffer]? = some x
    rw [List.getElem?_set_ne hb]
    exact h.content

theorem Holds.written (h : σ.Holds s q x) (y : Bytes) :
    (σ.written q.buffer y).Holds s q y where
  sequence := h.sequence
  content := List.getElem?_set_self h.lt

theorem sequences_remembered (σ : Store) (s t : SequenceId) (key : Bytes × ByteOrder) :
    (σ.remembered s key).sequences[t]? =
      (σ.sequences[t]?).map fun q => if s = t then { q with hashed := some key } else q :=
  List.getElem?_modify ..

/-- Remembering a hash changes nothing else about a sequence. -/
theorem Holds.remembered {t : SequenceId} (h : σ.Holds t q x) (s : SequenceId)
    (key : Bytes × ByteOrder) : ∃ k, (σ.remembered s key).Holds t { q with hashed := k } x := by
  have hq := sequences_remembered σ s t key
  rw [h.sequence, Option.map_some] at hq
  by_cases hst : s = t
  · rw [if_pos hst] at hq
    exact ⟨some key, hq, h.content⟩
  · rw [if_neg hst] at hq
    exact ⟨q.hashed, hq, h.content⟩

theorem mem_remembered {key : Bytes × ByteOrder} (h : q ∈ (σ.remembered s key).sequences) :
    ∃ r k, r ∈ σ.sequences ∧ q = { r with hashed := k } := by
  obtain ⟨t, ht⟩ := List.mem_iff_getElem?.mp h
  rw [sequences_remembered, Option.map_eq_some_iff] at ht
  obtain ⟨r, hr, hq⟩ := ht
  by_cases hst : s = t
  · rw [if_pos hst] at hq
    exact ⟨r, some key, List.mem_of_getElem? hr, hq.symm⟩
  · rw [if_neg hst] at hq
    exact ⟨r, r.hashed, List.mem_of_getElem? hr, hq.symm⟩

/-- A new sequence over an array that is there. -/
theorem holds_adopted (hx : σ.buffers[b]? = some x) (v : Variant) (o : ByteOrder) :
    (σ.adopted v o b).Holds σ.sequences.length ⟨v, o, b, none⟩ x where
  sequence := List.getElem?_concat_length
  content := hx

/-- A new sequence with an array of its own. -/
theorem holds_created (σ : Store) (v : Variant) (o : ByteOrder) (x : Bytes) :
    (σ.created v o x).Holds σ.sequences.length ⟨v, o, σ.buffers.length, none⟩ x :=
  holds_adopted (σ := σ.allocated x) List.getElem?_concat_length v o

/-- Content that is there already is not changed by writing it. -/
theorem written_self (h : σ.buffers[b]? = some x) : σ.written b x = σ := by
  obtain ⟨hb, rfl⟩ := List.getElem?_eq_some_iff.mp h
  rw [written, List.set_getElem_self]

/-- Of two contents written to one array the later one is there. -/
theorem written_written (σ : Store) (b : BufferId) (x y : Bytes) :
    (σ.written b x).written b y = σ.written b y := by
  simp [written]

end Store
end Octets
