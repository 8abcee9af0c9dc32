import Mathlib.Logic.Relation
import Octets.Proofs.Store.Handles
/-!
# Sharing

Each sharing step links the handle that it goes through with the one that it yields, and
a run is followed together with its links (`World.Traced`). Two handles look at one array
exactly if links connect them: a call keeps this (`World.Linked.after`), so that it holds
wherever a run leads (`World.Traced.linked`). Hence what is written through a handle is
read through those that are connected to it and through no others: `sharing_exact`.
-/

namespace Octets

/-- The handle in an outcome, where `k` arrays have been handed out before. -/
def yielded? (k : Nat) : Outcome Value → Option Handle
  | .ok (.sequence s) => some (.sequence s)
  | .ok (.buffer _) => some (.array k)
  | _ => none

namespace World

/-- The array that a handle looks at. -/
def array? (w : World) : Handle → Option BufferId
  | .sequence s => w.store.array? (.sequence s)
  | .array k => w.held.reverse[k]?

/-- What is read through a handle. -/
def content? (w : World) (h : Handle) : Option Bytes :=
  (w.array? h).bind fun b => w.store.buffers[b]?

/-- The handle that a call yields, if it yields one. -/
def yield? (w : World) (c : Call) : Option Handle :=
  yielded? w.held.length (c.run w.store).1

/-- What a caller may ask for: an array that it names it has been handed out, as the one
of number `k`, and the storage that is kept from it stays so. -/
structure Allows (w : World) (k : Nat) (c : Call) : Prop where
  named : ∀ b, c.array? = some b → w.array? (.array k) = some b
  kept : ∀ s, c ≠ .expose s .storage

end World

/-- The handle that a call goes through, `k` being the number of an array that it names. -/
def Call.handle? (k : Nat) (c : Call) : Option Handle :=
  match c.array? with
  | some _ => some (.array k)
  | none => c.receiver?.map .sequence

namespace World

/-- The two handles that a call makes look at one array, if it is a sharing step. -/
def link? (w : World) (k : Nat) (c : Call) : Option (Handle × Handle) := do
  let g ← c.handle? k
  let h ← w.yield? c
  if c.shares w.store h then some (g, h) else none

/-- The worlds that calls lead to, with the handles that the sharing steps among them have
linked. -/
inductive Traced : World → List (Handle × Handle) → Prop
  | initial : Traced initial []
  | next {w : World} {links : List (Handle × Handle)} {k : Nat} {c : Call}
      (trace : Traced w links) (hc : w.Allows k c) :
      Traced (w.after c) ((w.link? k c).toList ++ links)

end World

/-- Two handles are connected if links lead from one to the other. -/
def Connected (links : List (Handle × Handle)) : Handle → Handle → Prop :=
  Relation.EqvGen fun g h => (g, h) ∈ links

theorem Connected.mono {links links' : List (Handle × Handle)} (hl : links ⊆ links')
    {g h : Handle} (hgh : Connected links g h) : Connected links' g h :=
  Relation.EqvGen.mono (fun _ _ hm => hl hm) g h hgh

namespace World

/-- What a call does to the handles. -/
inductive Moves (w : World) (c : Call) : Prop
  /-- None is new; what is yielded is the handle that the call goes through. -/
  | same (harray : ∀ g, (w.after c).array? g = w.array? g)
      (hyield : ∀ h, w.yield? c = some h → c.shares w.store h = true ∧
        ∃ b, c.through? w.store = some b ∧ w.array? h = some b)
  /-- The one that is yielded is new, over the array that the call goes through. -/
  | shared {h : Handle} {b : BufferId} (hyield : w.yield? c = some h)
      (hs : c.shares w.store h = true) (hb : c.through? w.store = some b)
      (hnew : w.array? h = none)
      (harray : ∀ g, (w.after c).array? g = if g = h then some b else w.array? g)
  /-- The one that is yielded is new, and so is its array. -/
  | fresh {h : Handle} (hyield : w.yield? c = some h) (hs : c.shares w.store h = false)
      (hnew : w.array? h = none)
      (hcount : w.store.buffers.length < (w.after c).store.buffers.length)
      (harray : ∀ g, (w.after c).array? g =
        if g = h then some w.store.buffers.length else w.array? g)

variable {w : World} {c : Call} {k : Nat}

theorem getElem?_append_singleton {α : Type} (l : List α) (a : α) (i : Nat) :
    (l ++ [a])[i]? = if i = l.length then some a else l[i]? := by
  by_cases hi : i = l.length
  · rw [if_pos hi, hi, List.getElem?_concat_length]
  · rw [if_neg hi, List.getElem?_append]
    split
    · rfl
    · rw [List.getElem?_eq_none (by simp; omega), List.getElem?_eq_none (by omega)]

section Arrays

variable {σ σ' : Store} {held : List BufferId} {b : BufferId}

/-- Handles are the sequences of the store and the arrays that have been handed out. -/
theorem array?_congr (h : σ'.handles = σ.handles) (g : Handle) :
    (⟨σ', held⟩ : World).array? g = (⟨σ, held⟩ : World).array? g := by
  cases g with
  | sequence s => rw [array?, array?, Store.array?_sequence, Store.array?_sequence, h]
  | array k => rfl

/-- There is one more sequence. -/
theorem array?_adopted {v : Variant} {o : ByteOrder} (h : σ'.handles = σ.handles ++ [(v, o, b)])
    (g : Handle) : (⟨σ', held⟩ : World).array? g =
      if g = .sequence σ.sequences.length then some b else (⟨σ, held⟩ : World).array? g := by
  have hlength : σ.handles.length = σ.sequences.length := List.length_map ..
  cases g with
  | sequence s =>
    rw [array?, array?, Store.array?_sequence, Store.array?_sequence, h,
      getElem?_append_singleton, hlength]
    by_cases hs : s = σ.sequences.length
    · simp [hs]
    · simp [hs]
  | array k => simp [array?]

/-- One more array is handed out. -/
theorem array?_granted (h : σ'.handles = σ.handles) (g : Handle) :
    (⟨σ', b :: held⟩ : World).array? g =
      if g = .array held.length then some b else (⟨σ, held⟩ : World).array? g := by
  cases g with
  | sequence s =>
    rw [if_neg nofun, array?, array?, Store.array?_sequence, Store.array?_sequence, h]
  | array k =>
    rw [array?, array?, List.reverse_cons, getElem?_append_singleton, List.length_reverse]
    by_cases hk : k = held.length
    · simp [hk]
    · simp [hk]

end Arrays

theorem array?_sequence_length (w : World) :
    w.array? (.sequence w.store.sequences.length) = none := by
  rw [array?, Store.array?, List.getElem?_eq_none (Nat.le_refl _)]
  rfl

theorem array?_array_length (w : World) : w.array? (.array w.held.length) = none := by
  rw [array?, List.getElem?_eq_none (by simp)]

/-- A call that a caller may make moves the handles. -/
theorem moves (hw : w.store.Bounded) (hc : w.Allows k c) : w.Moves c := by
  obtain ⟨σ, held⟩ := w
  have hcomes : c.Comes σ (c.run σ) := hw.comes hc.kept
  rcases hrun : c.run σ with ⟨r, σ'⟩
  have hafter : (⟨σ, held⟩ : World).after c = ⟨σ', handedOut r ++ held⟩ := after_eq hrun
  have hyield : (⟨σ, held⟩ : World).yield? c = yielded? held.length r := by
    rw [yield?, hrun]
  rw [hrun] at hcomes
  cases hcomes with
  | refused f h =>
    refine .same ?_ ?_
    · rw [hafter]
      exact array?_congr h.handles
    · rw [hyield]
      exact fun _ => nofun
  | @answered _ a hv h =>
    have hplain : yielded? held.length (.ok a) = none := by
      cases a with
      | sequence s | buffer b => cases hv
      | _ => rfl
    refine .same ?_ ?_
    · rw [hafter]
      rw [handedOut_of_isPlain hv]
      exact array?_congr h.handles
    · rw [hyield, hplain]
      exact fun _ => nofun
  | @returned _ s q hs hq hb h =>
    refine .same ?_ ?_
    · rw [hafter]
      exact array?_congr h.handles
    · rw [hyield]
      rintro _ ⟨⟩
      exact ⟨hs, q.buffer, hb, by simp [array?, Store.array?, hq]⟩
  | @adopted b v o hs hb =>
    refine .shared hyield hs hb (array?_sequence_length ⟨σ, held⟩) ?_
    have hhandles : (σ.adopted v o b).handles = σ.handles ++ [(v, o, b)] := List.map_append
    rw [hafter]
    exact array?_adopted hhandles
  | @created σ' v o x hs h =>
    have hhandles : (σ'.created v o x).handles = σ.handles ++ [(v, o, σ.buffers.length)] := by
      rw [← h.handles, ← h.count]
      simp [Store.handles, Store.created, Store.adopted, Store.allocated]
    refine .fresh hyield hs (array?_sequence_length ⟨σ, held⟩) ?_ ?_
    · rw [hafter]
      simp [Store.created, Store.adopted, Store.allocated, h.count]
    · rw [hafter]
      exact array?_adopted hhandles
  | granted hs hb =>
    refine .shared hyield (hs _) hb (array?_array_length ⟨σ, held⟩) ?_
    rw [hafter]
    exact array?_granted rfl
  | allocated x hs =>
    refine .fresh hyield (hs _) (array?_array_length ⟨σ, held⟩) ?_ ?_
    · rw [hafter]
      simp [Store.allocated]
    · rw [hafter]
      exact array?_granted rfl

namespace Moves

variable {g h : Handle} {b : BufferId}

/-- Handles that there are look where they did. -/
theorem kept (hm : w.Moves c) (hg : w.array? g = some b) :
    (w.after c).array? g = some b := by
  have hne {h : Handle} (hnew : w.array? h = none) : g ≠ h := by
    rintro rfl
    rw [hnew] at hg
    cases hg
  cases hm with
  | same harray _ => rw [harray, hg]
  | shared _ _ _ hnew harray => rw [harray, if_neg (hne hnew), hg]
  | fresh _ _ hnew _ harray => rw [harray, if_neg (hne hnew), hg]

/-- A handle that was not there before is the one that the call yields. -/
theorem old_or_yielded (hm : w.Moves c) (hg : (w.after c).array? g = some b) :
    w.array? g = some b ∨ w.yield? c = some g := by
  cases hm with
  | same harray _ => exact .inl (harray g ▸ hg)
  | @shared h _ hyield _ _ _ harray =>
    by_cases hgh : g = h
    · exact .inr (hgh ▸ hyield)
    · rw [harray, if_neg hgh] at hg
      exact .inl hg
  | @fresh h hyield _ _ _ harray =>
    by_cases hgh : g = h
    · exact .inr (hgh ▸ hyield)
    · rw [harray, if_neg hgh] at hg
      exact .inl hg

/-- What a sharing step yields looks at the array that the step goes through. -/
theorem yielded_shared (hm : w.Moves c) (hy : w.yield? c = some h)
    (hs : c.shares w.store h = true) :
    ∃ b, c.through? w.store = some b ∧ (w.after c).array? h = some b := by
  cases hm with
  | same harray hyield =>
    obtain ⟨-, b, hb, hh⟩ := hyield h hy
    exact ⟨b, hb, harray h ▸ hh⟩
  | shared hyield _ hb _ harray =>
    cases hyield.symm.trans hy
    exact ⟨_, hb, (harray h).trans (if_pos rfl)⟩
  | fresh hyield hs' _ _ _ =>
    cases hyield.symm.trans hy
    rw [hs'] at hs
    cases hs

/-- What any other call yields looks at an array that was not there before. -/
theorem yielded_fresh (hm : w.Moves c) (hy : w.yield? c = some h)
    (hs : c.shares w.store h = false) : ∃ b, (w.after c).array? h = some b ∧
      w.store.buffers.length ≤ b ∧ b < (w.after c).store.buffers.length := by
  cases hm with
  | same _ hyield =>
    rw [(hyield h hy).1] at hs
    cases hs
  | shared hyield hs' _ _ _ =>
    cases hyield.symm.trans hy
    rw [hs'] at hs
    cases hs
  | fresh hyield _ _ hlt harray =>
    cases hyield.symm.trans hy
    exact ⟨_, (harray h).trans (if_pos rfl), Nat.le_refl _, hlt⟩

end Moves

/-- A call goes through the array of the handle that it goes through. -/
theorem Allows.through?_eq (hc : w.Allows k c) :
    c.through? w.store = (c.handle? k).bind w.array? := by
  rw [Call.through?, Call.handle?]
  cases ha : c.array? with
  | some b => exact (hc.named b ha).symm
  | none =>
    cases c.receiver? with
    | none => rfl
    | some s => rfl

theorem link?_eq_some {l : Handle × Handle} : w.link? k c = some l ↔
    c.handle? k = some l.1 ∧ w.yield? c = some l.2 ∧ c.shares w.store l.2 = true := by
  simp only [link?, Option.bind_eq_bind, Option.bind_eq_some_iff]
  constructor
  · rintro ⟨g, hg, h, hh, hl⟩
    split at hl
    · cases hl
      exact ⟨hg, hh, ‹_›⟩
    · cases hl
  · rintro ⟨hg, hh, hs⟩
    exact ⟨l.1, hg, l.2, hh, if_pos hs⟩

/-! ## Links -/

/-- The arrays that handles look at are there, and two handles look at one array exactly
if links connect them. -/
structure Linked (w : World) (links : List (Handle × Handle)) : Prop where
  bounded : ∀ h b, w.array? h = some b → b < w.store.buffers.length
  sound : ∀ l ∈ links, ∃ b, w.array? l.1 = some b ∧ w.array? l.2 = some b
  complete : ∀ g h b, w.array? g = some b → w.array? h = some b → Connected links g h

variable {links : List (Handle × Handle)} {g h : Handle}

theorem Linked.bounded_store (hw : w.Linked links) : w.store.Bounded := by
  intro q hq
  obtain ⟨s, hs⟩ := List.mem_iff_getElem?.mp hq
  apply hw.bounded (.sequence s)
  rw [array?, Store.array?, hs]
  rfl

theorem Linked.array?_eq (hw : w.Linked links) (hgh : Connected links g h) :
    w.array? g = w.array? h := by
  induction hgh with
  | rel g h hl =>
    obtain ⟨b, hg, hh⟩ := hw.sound _ hl
    rw [hg, hh]
  | refl g => rfl
  | symm g h _ ih => exact ih.symm
  | trans f g h _ _ ihf ihg => exact ihf.trans ihg

/-- The handle that a call yields is connected to all that look where it does. -/
theorem Linked.connected_yielded (hw : w.Linked links) (hc : w.Allows k c)
    (hy : w.yield? c = some h) {b : BufferId} (hh : (w.after c).array? h = some b)
    (hg : w.array? g = some b) : Connected ((w.link? k c).toList ++ links) g h := by
  have hmoves := moves hw.bounded_store hc
  cases hs : c.shares w.store h with
  | true =>
    obtain ⟨b', hb, hh'⟩ := hmoves.yielded_shared hy hs
    cases hh'.symm.trans hh
    rw [hc.through?_eq, Option.bind_eq_some_iff] at hb
    obtain ⟨f, hf, hfb⟩ := hb
    have hlink : (f, h) ∈ (w.link? k c).toList ++ links := by
      rw [link?_eq_some (l := (f, h)) |>.mpr ⟨hf, hy, hs⟩]
      exact List.mem_cons_self ..
    have hgf : Connected ((w.link? k c).toList ++ links) g f :=
      (hw.complete g f b hg hfb).mono (List.subset_append_right ..)
    exact .trans g f h hgf (.rel f h hlink)
  | false =>
    obtain ⟨b', hh', hle, -⟩ := hmoves.yielded_fresh hy hs
    cases hh'.symm.trans hh
    exact absurd (hw.bounded g b hg) (Nat.not_lt.mpr hle)

/-- A call that a caller may make keeps the links exact, the one that it makes included. -/
theorem Linked.after (hw : w.Linked links) (hc : w.Allows k c) :
    (w.after c).Linked ((w.link? k c).toList ++ links) := by
  have hmoves := moves hw.bounded_store hc
  have hcount : w.store.buffers.length ≤ (w.after c).store.buffers.length :=
    (hw.bounded_store.comes hc.kept).count_le
  have hthrough {f : Handle} (hf : c.handle? k = some f) :
      c.through? w.store = w.array? f := by
    rw [hc.through?_eq, hf, Option.bind_some]
  constructor
  · intro h b hh
    rcases hmoves.old_or_yielded hh with hold | hy
    · exact Nat.lt_of_lt_of_le (hw.bounded h b hold) hcount
    · cases hs : c.shares w.store h with
      | true =>
        obtain ⟨b', hb, hh'⟩ := hmoves.yielded_shared hy hs
        cases hh'.symm.trans hh
        rw [hc.through?_eq, Option.bind_eq_some_iff] at hb
        obtain ⟨f, -, hf⟩ := hb
        exact Nat.lt_of_lt_of_le (hw.bounded f b hf) hcount
      | false =>
        obtain ⟨b', hh', -, hlt⟩ := hmoves.yielded_fresh hy hs
        cases hh'.symm.trans hh
        exact hlt
  · intro l hl
    rcases List.mem_append.mp hl with hl | hl
    · obtain ⟨hf, hy, hs⟩ := link?_eq_some.mp (Option.mem_toList.mp hl)
      obtain ⟨b, hb, hh⟩ := hmoves.yielded_shared hy hs
      exact ⟨b, hmoves.kept ((hthrough hf).symm.trans hb), hh⟩
    · obtain ⟨b, hg, hh⟩ := hw.sound l hl
      exact ⟨b, hmoves.kept hg, hmoves.kept hh⟩
  · intro g h b hg hh
    rcases hmoves.old_or_yielded hg with hg' | hyg
    · rcases hmoves.old_or_yielded hh with hh' | hyh
      · exact (hw.complete g h b hg' hh').mono (List.subset_append_right ..)
      · exact hw.connected_yielded hc hyh hh hg'
    · rcases hmoves.old_or_yielded hh with hh' | hyh
      · exact .symm h g (hw.connected_yielded hc hyg hg hh')
      · cases hyg.symm.trans hyh
        exact .refl g

theorem linked_initial : initial.Linked [] where
  bounded := by
    intro h b hh
    cases h with
    | sequence s => cases hh
    | array k => cases hh
  sound := fun _ => nofun
  complete := by
    intro g h b hg
    cases g with
    | sequence s => cases hg
    | array k => cases hg

/-- Whatever the caller does, the links are exact. -/
theorem Traced.linked (trace : Traced w links) : w.Linked links := by
  induction trace with
  | initial => exact linked_initial
  | next trace hc ih => exact ih.after hc

/-- A call can be followed if it names no array but one that has been handed out and does
not ask for the storage that is kept. -/
theorem exists_allows (hheld : ∀ b, c.array? = some b → b ∈ w.held)
    (hkept : ∀ s, c ≠ .expose s .storage) : ∃ k, w.Allows k c := by
  cases ha : c.array? with
  | none => exact ⟨0, fun b hb => (nomatch ha.symm.trans hb), hkept⟩
  | some b =>
    obtain ⟨k, hk⟩ := List.mem_iff_getElem?.mp (List.mem_reverse.mpr (hheld b ha))
    refine ⟨k, ?_, hkept⟩
    intro b' hb
    cases ha.symm.trans hb
    exact hk

/-! ## Reading and writing through handles -/

theorem content?_eq {b : BufferId} (h : w.array? g = some b) :
    w.content? g = w.store.buffers[b]? := by
  rw [content?, h, Option.bind_some]

theorem exists_array? {x : Bytes} (h : w.content? g = some x) :
    ∃ b, w.array? g = some b ∧ w.store.buffers[b]? = some x :=
  Option.bind_eq_some_iff.mp h

/-- A call through a handle leaves alone what is not connected to it. -/
theorem Linked.content?_unconnected (hw : w.Linked links) (hc : w.Allows k c) {x : Bytes}
    (hx : w.content? h = some x)
    (hfar : ∀ g, c.handle? k = some g → ¬ Connected links g h) :
    (w.after c).content? h = some x := by
  obtain ⟨b, hb, hx⟩ := exists_array? hx
  rw [content?_eq ((moves hw.bounded_store hc).kept hb)]
  apply (hw.bounded_store.comes hc.kept).buffer_of_ne hx
  intro hthrough
  rw [hc.through?_eq, Option.bind_eq_some_iff] at hthrough
  obtain ⟨g, hg, hgb⟩ := hthrough
  exact hfar g hg (hw.complete g h b hgb hb)

/-- After a call, connected handles read the same. -/
theorem Linked.content?_connected (hw : w.Linked links) (hc : w.Allows k c)
    (hgh : Connected links g h) {x : Bytes} (hx : w.content? h = some x) :
    ∃ y, (w.after c).content? g = some y ∧ (w.after c).content? h = some y := by
  obtain ⟨b, hb, hx⟩ := exists_array? hx
  have hmoves := moves hw.bounded_store hc
  have hlt : b < (w.after c).store.buffers.length :=
    Nat.lt_of_lt_of_le (hw.bounded h b hb) (hw.bounded_store.comes hc.kept).count_le
  refine ⟨(w.after c).store.buffers[b], ?_, ?_⟩
  · rw [content?_eq (hmoves.kept ((hw.array?_eq hgh).trans hb)), List.getElem?_eq_getElem hlt]
  · rw [content?_eq (hmoves.kept hb), List.getElem?_eq_getElem hlt]

/-- After a call, a sequence answers from what it reads, in its own order. -/
theorem Linked.query_after (hw : w.Linked links) (hc : w.Allows k c) {s : SequenceId}
    {q : Sequence} (hq : w.store.sequences[s]? = some q) {y : Bytes}
    (hy : (w.after c).content? (.sequence s) = some y) (p : Query) :
    (w.after c).store.query s p = p.answer (w.after c).store q.variant q.order y := by
  have hhandle : w.store.handles[s]? = some (q.variant, q.order, q.buffer) := by
    rw [Store.handles, List.getElem?_map, hq, Option.map_some]
  have hhandles : w.store.handles <+: (w.after c).store.handles :=
    (hw.bounded_store.comes hc.kept).handles
  have hafter := Store.getElem?_of_isPrefix hhandles hhandle
  rw [Store.handles, List.getElem?_map, Option.map_eq_some_iff] at hafter
  obtain ⟨r, hr, hrq⟩ := hafter
  have hb : (w.after c).array? (.sequence s) = some r.buffer := by
    rw [array?, Store.array?, hr, Option.map_some]
  have hholds : (w.after c).store.Holds s r y := ⟨hr, (content?_eq hb).symm.trans hy⟩
  obtain ⟨hv, ho, -⟩ : r.variant = q.variant ∧ r.order = q.order ∧ r.buffer = q.buffer := by
    simpa using hrq
  rw [hholds.query, hv, ho]

end World

/-- The calls that zero a sequence: wiping it, and leaving a block of it, be it that the
block has ended in a fault. -/
def Call.Wipes (s : SequenceId) (c : Call) : Prop :=
  c = .mutate s .wipe ∨ c = .leave s ∨ ∃ interrupted, c = .enclose s interrupted

theorem Call.Wipes.run {c : Call} {σ : Store} {s : SequenceId} {q : Sequence} {x : Bytes}
    (hc : c.Wipes s) (h : σ.Holds s q x) (hv : q.variant = .mutable) :
    (c.run σ).2 = σ.written q.buffer (Bytes.zeros x.length) := by
  rcases hc with rfl | rfl | ⟨interrupted, rfl⟩
  · show ((Value.sequence <$> StoreM.mutate s .wipe).exec σ).2 = _
    rw [StoreM.exec_map, StoreM.exec_mutate h, if_pos hv]
    rfl
  · show ((StoreM.leave s >>= fun _ => pure (Value.bool false)).exec σ).2 = _
    rw [StoreM.exec_bind, StoreM.exec_leave h, if_pos hv]
    rfl
  · show ((StoreM.enclose s interrupted).exec σ).2 = _
    rw [StoreM.exec_enclose h, if_pos hv]

/-- Any caller may zero a sequence that it knows. -/
theorem Call.Wipes.allows {c : Call} {s : SequenceId} (hc : c.Wipes s) (w : World) (k : Nat) :
    w.Allows k c := by
  rcases hc with rfl | rfl | ⟨interrupted, rfl⟩ <;> exact ⟨fun _ => nofun, fun _ => nofun⟩

namespace World

/-- Zeros are read through all that are connected to a mutable sequence that is zeroed. -/
theorem Linked.content?_wiped {w : World} {links : List (Handle × Handle)} (hw : w.Linked links)
    {c : Call} {s : SequenceId} {h : Handle} (hc : c.Wipes s)
    (hs : w.store.isMutable s = true) (hsh : Connected links (.sequence s) h) {x : Bytes}
    (hx : w.content? h = some x) : (w.after c).content? h = some (Bytes.zeros x.length) := by
  obtain ⟨q, hq, hv⟩ := (Option.any_eq_true ..).mp hs
  obtain ⟨b, hb, hx⟩ := exists_array? hx
  have hqb : w.array? (.sequence s) = some q.buffer := by
    rw [array?, Store.array?, hq, Option.map_some]
  cases hb.symm.trans ((hw.array?_eq hsh).symm.trans hqb)
  have hstore : (w.after c).store = w.store.written q.buffer (Bytes.zeros x.length) :=
    hc.run ⟨hq, hx⟩ (of_decide_eq_true hv)
  rw [content?_eq ((moves hw.bounded_store (hc.allows w 0)).kept hb), hstore]
  exact List.getElem?_set_self (hw.bounded h _ hb)

/-- How sharing goes in a world where links have been made. -/
structure SharesAlong (w : World) (links : List (Handle × Handle)) : Prop where
  /-- A caller may go on with any call on arrays that have been handed out to it. -/
  followed : ∀ {c : Call}, (∀ b, c.array? = some b → b ∈ w.held) →
    (∀ s, c ≠ .expose s .storage) → ∃ k, w.Allows k c
  /-- Two handles look at one array exactly if sharing steps connect them. -/
  same : ∀ {g h : Handle} {a b : BufferId}, w.array? g = some a → w.array? h = some b →
    (a = b ↔ Connected links g h)
  /-- A sharing step yields a handle for the array of the one that it goes through. -/
  shared : ∀ {k : Nat} {c : Call} {h : Handle}, w.Allows k c → w.yield? c = some h →
    c.shares w.store h = true →
    ∃ g b, c.handle? k = some g ∧ w.array? g = some b ∧ (w.after c).array? h = some b
  /-- Any other call yields a handle for an array that no handle has looked at. -/
  fresh : ∀ {k : Nat} {c : Call} {h : Handle}, w.Allows k c → w.yield? c = some h →
    c.shares w.store h = false →
    ∃ b, (w.after c).array? h = some b ∧ ∀ g, w.array? g ≠ some b
  /-- What a call writes through a handle is read through all that are connected to it. -/
  connected : ∀ {k : Nat} {c : Call} {g h : Handle} {x : Bytes}, w.Allows k c →
    c.handle? k = some g → Connected links g h → w.content? h = some x →
    ∃ y, (w.after c).content? g = some y ∧ (w.after c).content? h = some y
  /-- What is read through any other handle stays as it is. -/
  unconnected : ∀ {k : Nat} {c : Call} {h : Handle} {x : Bytes}, w.Allows k c →
    w.content? h = some x → (∀ g, c.handle? k = some g → ¬ Connected links g h) →
    (w.after c).content? h = some x
  /-- A sequence answers from what is read through it, in the order that it had. -/
  ordered : ∀ {k : Nat} {c : Call} {s : SequenceId} {q : Sequence} {y : Bytes},
    w.Allows k c → w.store.sequences[s]? = some q →
    (w.after c).content? (.sequence s) = some y →
    ∀ p : Query, (w.after c).store.query s p = p.answer (w.after c).store q.variant q.order y
  /-- After a mutable sequence has been zeroed, all that are connected to it read zeros. -/
  wiped : ∀ {c : Call} {s : SequenceId} {h : Handle} {x : Bytes}, c.Wipes s →
    w.store.isMutable s = true → Connected links (.sequence s) h → w.content? h = some x →
    (w.after c).content? h = some (Bytes.zeros x.length)

end World

/-- Wherever a run has led, sharing is what its sharing steps have made it. -/
theorem sharing_exact {w : World} {links : List (Handle × Handle)}
    (trace : World.Traced w links) : w.SharesAlong links where
  followed := World.exists_allows
  same := by
    intro g h a b hg hh
    constructor
    · rintro rfl
      exact trace.linked.complete g h a hg hh
    · intro hgh
      have hab := trace.linked.array?_eq hgh
      rw [hg, hh] at hab
      exact Option.some.inj hab
  shared := by
    intro k c h hc hy hs
    obtain ⟨b, hb, hh⟩ := (World.moves trace.linked.bounded_store hc).yielded_shared hy hs
    rw [hc.through?_eq, Option.bind_eq_some_iff] at hb
    obtain ⟨g, hg, hgb⟩ := hb
    exact ⟨g, b, hg, hgb, hh⟩
  fresh := by
    intro k c h hc hy hs
    obtain ⟨b, hh, hle, -⟩ := (World.moves trace.linked.bounded_store hc).yielded_fresh hy hs
    refine ⟨b, hh, ?_⟩
    intro g hg
    exact Nat.not_lt.mpr hle (trace.linked.bounded g b hg)
  connected := fun hc _ hgh hx => trace.linked.content?_connected hc hgh hx
  unconnected := fun hc hx hfar => trace.linked.content?_unconnected hc hx hfar
  ordered := fun hc hq hy p => trace.linked.query_after hc hq hy p
  wiped := fun hc hs hsh hx => trace.linked.content?_wiped hc hs hsh hx

/-- A mutable sequence made over an array, its duplicate and the storage that is handed out
share; the immutable copy stays apart. -/
theorem sharing_exact_copied :
    let w := [.caller (.create (.bytes [1, 2])), .construct .mutable (.wrap (.buffer 0) none),
      .convert 0 .duplicate, .expose 1 .array, .convert 1 .toImmutable].foldl World.after
        World.initial
    let links := [(.sequence 1, .array 1), (.sequence 0, .sequence 1), (.array 0, .sequence 0)]
    World.Traced w links ∧ w.SharesAlong links := by
  have hfree {w : World} {c : Call} (ha : c.array? = none)
      (hc : ∀ s, c ≠ .expose s .storage) : w.Allows 0 c :=
    ⟨fun b hb => (nomatch ha.symm.trans hb), hc⟩
  have trace1 : World.Traced _ _ :=
    .next (c := .caller (.create (.bytes [1, 2]))) .initial (hfree rfl fun _ => nofun)
  have trace2 := trace1.next (k := 0) (c := .construct .mutable (.wrap (.buffer 0) none))
    ⟨fun _ hb => hb, fun _ => nofun⟩
  have trace3 := trace2.next (c := .convert 0 .duplicate) (hfree rfl fun _ => nofun)
  have trace4 := trace3.next (c := .expose 1 .array) (hfree rfl fun _ => nofun)
  have trace5 := trace4.next (c := .convert 1 .toImmutable) (hfree rfl fun _ => nofun)
  exact ⟨trace5, sharing_exact trace5⟩

end Octets
