import Octets.Proofs.Store.Step
/-!
# What the library writes

An operation that is refused leaves every array and every sequence as it is, unless it is a
shuffle in place that is refused a draw, which leaves the bytes in another order
(`refused_unchanged`). Any other one writes at most the array of its receiver, if the
receiver is mutable, and keeps its length (`Call.Library.writes`); so what operands
read changes only where they share that array, and no live view ever stands in the way
(`library_framed`).
-/

namespace Octets

/-! ## Refusals -/

/-- An operation that is refused has changed nothing. Only a block that a fault has ended has
its storage zeroed, and a shuffle in place that is refused a draw has moved bytes by then. -/
theorem refused_unchanged {c : Call} (hc : c.Library) {σ σ' : Store} {f : Fault}
    (h : c.run σ = (.error f, σ')) :
    σ.Unchanged σ' ∨
    (∃ s q x, c = .enclose s true ∧ f = .interrupted ∧ σ.Holds s q x ∧
      q.variant = .mutable ∧ σ' = σ.written q.buffer (Bytes.zeros x.length)) ∨
    ∃ s r q x g, c = .request s r ∧ σ.Holds s q x ∧
      r.transform? σ q.order x = .ok (Transform.shuffle g).toTransformer ∧
      σ.HalfShuffled σ' q x g f ∧ (Arrange.shuffle g x).content.Perm x := by
  have hresult := hc.result σ
  rw [h] at hresult
  cases hresult with
  | step hstep =>
    cases hstep with
    | refused f hsame => exact .inl hsame
  | interrupted hcall hs hv => exact .inr (.inl ⟨_, _, _, hcall, rfl, hs, hv, rfl⟩)
  | @halfShuffled s r q x g f σ' hcall hs hr hhalf =>
    exact .inr (.inr ⟨s, r, q, x, g, hcall, hs, hr, hhalf, Arrange.shuffle_perm g x⟩)

/-- Two bytes would reach beyond the end of an array that a view looks at as well. -/
theorem refused_unchanged_overwrite :
    let c : Call := .mutate 0 (.overwrite (.bytes [3, 4]) 1)
    let σ : Store := ⟨[[1, 2]], [⟨.mutable, .big, 0, none⟩], [some 0]⟩
    let σ' := (c.run σ).2
    c.run σ = (.error (.overwriteOutside 1 3 2), σ') ∧
      (σ.Unchanged σ' ∨
      (∃ s q x, c = .enclose s true ∧ Fault.overwriteOutside 1 3 2 = .interrupted ∧
        σ.Holds s q x ∧ q.variant = .mutable ∧
        σ' = σ.written q.buffer (Bytes.zeros x.length)) ∨
      ∃ s r q x g, c = .request s r ∧ σ.Holds s q x ∧
        r.transform? σ q.order x = .ok (Transform.shuffle g).toTransformer ∧
        σ.HalfShuffled σ' q x g (.overwriteOutside 1 3 2) ∧
        (Arrange.shuffle g x).content.Perm x) :=
  ⟨rfl, refused_unchanged (c := .mutate 0 (.overwrite (.bytes [3, 4]) 1)) trivial rfl⟩

/-- The generator grants the first draw and refuses the second: the last byte has been swapped
with the first by then, in the array of a mutable sequence. -/
theorem shuffle_refused_midway :
    let g : Generator := ⟨fun _ i => if i = 2 then .ok 0 else .error .interrupted,
      fun _ => .error .interrupted⟩
    let c : Call := .request 0 (.shuffle g)
    let σ : Store := ⟨[[1, 2, 3]], [⟨.mutable, .big, 0, none⟩], []⟩
    let σ' : Store := ⟨[[3, 2, 1]], [⟨.mutable, .big, 0, none⟩], []⟩
    c.Library ∧ c.run σ = (.error .interrupted, σ') ∧ (∀ s, c ≠ .enclose s true) ∧
      ¬ σ.Unchanged σ' := by
  refine ⟨trivial, rfl, fun _ => nofun, fun h => ?_⟩
  have hsame : [[3, 2, 1]] = [[(1 : UInt8), 2, 3]] := h.buffers
  exact absurd hsame (by decide)

/-! ## Writes -/

/-- The array that an operation may write: that of its receiver, if it is mutable. -/
def Call.target? (c : Call) (σ : Store) : Option BufferId := do
  let s ← c.receiver?
  let q ← σ.sequences[s]?
  if q.variant = .mutable then some q.buffer else none

theorem Call.target?_eq_some {c : Call} {σ : Store} {b : BufferId} :
    c.target? σ = some b ↔ ∃ s q, c.receiver? = some s ∧ σ.sequences[s]? = some q ∧
      q.variant = .mutable ∧ q.buffer = b := by
  simp [target?, Option.bind_eq_some_iff]

/-- What an operation may do that writes at most one array: it adds to the store, or it
gives that array new content of the same length. -/
inductive Store.Writes (σ : Store) (target : Option BufferId) : Store → Prop
  | grown {σ' : Store} (h : σ.Grown σ') : Writes σ target σ'
  | written {b : BufferId} {x y : Bytes} (hb : target = some b) (hx : σ.buffers[b]? = some x)
      (hy : y.length = x.length) : Writes σ target (σ.written b y)

theorem Call.Library.writes {c : Call} (hc : c.Library) (σ : Store) :
    σ.Writes (c.target? σ) (c.run σ).2 := by
  have hresult := hc.result σ
  rcases hrun : c.run σ with ⟨r, σ'⟩
  rw [hrun] at hresult
  cases hresult with
  | step hstep =>
    cases hstep with
    | refused f h => exact .grown h.grown
    | grown a h => exact .grown h
    | written a hr hs hv hy =>
      exact .written (target?_eq_some.mpr ⟨_, _, hr, hs.sequence, hv, rfl⟩) hs.content hy
  | interrupted hcall hs hv =>
    have hr := congrArg receiver? hcall
    exact .written (target?_eq_some.mpr ⟨_, _, hr, hs.sequence, hv, rfl⟩) hs.content
      List.length_replicate
  | @halfShuffled s r q x g f σ' hcall hs ht hhalf =>
    have hr := congrArg receiver? hcall
    rw [hhalf.store]
    exact .written (target?_eq_some.mpr ⟨_, _, hr, hs.sequence, hhalf.variant, rfl⟩) hs.content
      (Arrange.length_shuffle g x)

namespace Store

/-- The array that an operand looks at. -/
def array? (σ : Store) : Operand → Option BufferId
  | .sequence s => (σ.sequences[s]?).map (·.buffer)
  | .buffer b => some b
  | .view v | .part v _ _ => (σ.views[v]?).bind id
  | .bytes _ | .ints _ | .other => none

variable {σ σ' : Store} {target : Option BufferId} {b : BufferId} {x y : Bytes} {o : Operand}

theorem view?_eq_ok {v : ViewId} : σ.view? v = .ok b ↔ (σ.views[v]?).bind id = some b := by
  rw [view?]
  cases (σ.views[v]?).bind id with
  | none => simp
  | some c => simp

theorem array?_sequence (σ : Store) (s : SequenceId) :
    σ.array? (.sequence s) = (σ.handles[s]?).map fun h => h.2.2 := by
  simp only [array?, handles, List.getElem?_map, Option.map_map]
  rfl

theorem getElem?_of_isPrefix {α : Type} {l l' : List α} (h : l <+: l') {i : Nat} {a : α}
    (ha : l[i]? = some a) : l'[i]? = some a := by
  obtain ⟨rest, rfl⟩ := h
  rw [List.getElem?_append_left (List.getElem?_eq_some_iff.mp ha).1]
  exact ha

/-- An operand reads what it has read if it looks at the same array with the same content. -/
theorem read_of_array (h : σ.read o = .ok x)
    (harray : ∀ b, σ.array? o = some b → σ'.array? o = some b)
    (hcontent : ∀ b y, σ.array? o = some b → σ.buffers[b]? = some y → σ'.buffers[b]? = some y) :
    σ'.read o = .ok x := by
  cases o with
  | bytes y => exact h
  | ints vs => exact h
  | other => exact h
  | sequence s =>
    obtain ⟨q, hq, hx⟩ := exists_of_bind_eq_ok h
    have hb : σ.array? (.sequence s) = some q.buffer := by
      simp [array?, sequence?_eq_ok.mp hq]
    obtain ⟨r, hr, hrb⟩ := Option.map_eq_some_iff.mp (harray _ hb)
    have hs : σ'.Holds s r x := ⟨hr, hrb ▸ hcontent _ _ hb (buffer?_eq_ok.mp hx)⟩
    exact hs.content?
  | buffer b => exact buffer?_eq_ok.mpr (hcontent b x rfl (buffer?_eq_ok.mp h))
  | view v =>
    obtain ⟨b, hv, hx⟩ := exists_of_bind_eq_ok h
    have hb := view?_eq_ok.mp hv
    have hread := buffer?_eq_ok.mpr (hcontent b x hb (buffer?_eq_ok.mp hx))
    rw [read, view?_eq_ok.mpr (harray b hb)]
    exact hread
  | part v offset length =>
    obtain ⟨b, hv, hx⟩ := exists_of_bind_eq_ok h
    obtain ⟨y, hy, hx⟩ := exists_of_bind_eq_ok hx
    have hb := view?_eq_ok.mp hv
    have hread := buffer?_eq_ok.mpr (hcontent b y hb (buffer?_eq_ok.mp hy))
    rw [read, view?_eq_ok.mpr (harray b hb)]
    show (σ'.buffer? b >>= fun y => pure (y.window offset length)) = .ok x
    rw [hread]
    exact hx

namespace Writes

variable (h : σ.Writes target σ')

include h

theorem handles : σ.handles <+: σ'.handles := by
  cases h with
  | grown h => exact h.handles
  | written hb hx hy => exact List.prefix_rfl

theorem views : σ.views <+: σ'.views := by
  cases h with
  | grown h => exact h.views
  | written hb hx hy => exact List.prefix_rfl

/-- An array that is not the target is not written. -/
theorem buffer_of_ne (hx : σ.buffers[b]? = some x) (hb : target ≠ some b) :
    σ'.buffers[b]? = some x := by
  cases h with
  | grown h => exact getElem?_of_isPrefix h.buffers hx
  | @written c _ _ hc _ _ =>
    have hne : c ≠ b := by
      rintro rfl
      exact hb hc
    simpa [Store.written, List.getElem?_set_ne hne] using hx

/-- The target keeps its length. -/
theorem length_eq (hx : σ.buffers[b]? = some x) :
    ∃ y, σ'.buffers[b]? = some y ∧ y.length = x.length := by
  cases h with
  | grown h => exact ⟨x, getElem?_of_isPrefix h.buffers hx, rfl⟩
  | @written c z y hc hz hy =>
    by_cases hcb : c = b
    · subst hcb
      have hxz : x = z := by simpa [hx] using hz
      refine ⟨y, List.getElem?_set_self (List.getElem?_eq_some_iff.mp hx).1, ?_⟩
      rw [hy, hxz]
    · refine ⟨x, ?_, rfl⟩
      simpa [Store.written, List.getElem?_set_ne hcb] using hx

theorem array?_eq (ho : σ.array? o = some b) : σ'.array? o = some b := by
  cases o with
  | sequence s =>
    rw [array?_sequence, Option.map_eq_some_iff] at ho ⊢
    obtain ⟨a, ha, hb⟩ := ho
    exact ⟨a, getElem?_of_isPrefix h.handles ha, hb⟩
  | buffer c => exact ho
  | view v | part v _ _ =>
    obtain ⟨a, ha, hb⟩ := Option.bind_eq_some_iff.mp ho
    exact Option.bind_eq_some_iff.mpr ⟨a, getElem?_of_isPrefix h.views ha, hb⟩
  | _ => cases ho

end Writes

end Store

/-! ## Frames -/

/-- What an operation leaves as it is. -/
structure Call.Framed (c : Call) (σ : Store) : Prop where
  /-- No array but that of a mutable receiver is written. -/
  arrays : ∀ (b : BufferId) (x : Bytes), σ.buffers[b]? = some x → c.target? σ ≠ some b →
    (c.run σ).2.buffers[b]? = some x
  /-- No array changes its length. -/
  lengths : ∀ (b : BufferId) (x : Bytes), σ.buffers[b]? = some x →
    ∃ y : Bytes, (c.run σ).2.buffers[b]? = some y ∧ y.length = x.length
  /-- What has been written could have been written under a live view as well. -/
  unpinned : ∀ (b : BufferId) (y : Bytes), b < σ.buffers.length →
    (c.run σ).2.buffers[b]? = some y → (StoreM.assign b y).exec σ = (.ok .done, σ.written b y)
  /-- An operand that does not look at the array of a mutable receiver reads as before. -/
  operands : ∀ (o : Operand) (x : Bytes), σ.read o = .ok x →
    (∀ b, c.target? σ = some b → σ.array? o ≠ some b) → (c.run σ).2.read o = .ok x

/-- Runs of operations of the library none of which has a mutable receiver. -/
inductive Store.Looks (σ : Store) : Store → Prop
  | here : Looks σ σ
  | next {σ' : Store} {c : Call} (run : Looks σ σ') (hc : c.Library)
      (hv : ∀ (s : SequenceId) (q : Sequence), c.receiver? = some s →
        σ'.sequences[s]? = some q → q.variant ≠ .mutable) :
      Looks σ (c.run σ').2

/-- What the library leaves as it is in a store. -/
structure Store.Framed (σ : Store) : Prop where
  calls : ∀ c : Call, c.Library → c.Framed σ
  /-- No run on immutable and read-only sequences writes anything. -/
  looks : ∀ σ', σ.Looks σ' → σ.buffers <+: σ'.buffers
  /-- Whatever changes content, or enters or leaves a block, needs a mutable sequence. -/
  refuses : ∀ (s : SequenceId) (q : Sequence), σ.sequences[s]? = some q →
    q.variant ≠ .mutable →
    ∀ c : Call, ((∃ m, c = .mutate s m) ∨ (∃ i, c = .enclose s i) ∨ c = .leave s) →
    ∃ f, c.run σ = (.error f, σ) ∧ f.kind = .capability

theorem Call.Library.framed {c : Call} (hc : c.Library) (σ : Store) : c.Framed σ where
  arrays b x hx hb := (hc.writes σ).buffer_of_ne hx hb
  lengths b x hx := (hc.writes σ).length_eq hx
  unpinned b y hb hy := by
    have hx : σ.buffers[b]? = some σ.buffers[b] := List.getElem?_eq_getElem hb
    obtain ⟨z, hz, hlength⟩ := (hc.writes σ).length_eq hx
    have hyz : y = z := by simpa [hy] using hz
    rw [StoreM.exec_assign hx, if_neg]
    rintro ⟨hne, -⟩
    exact hne (hyz ▸ hlength)
  operands o x hx ho := by
    have hwrites := hc.writes σ
    apply Store.read_of_array hx
    · exact fun b => hwrites.array?_eq
    · intro b y hb hy
      exact hwrites.buffer_of_ne hy fun ht => ho b ht hb

namespace Store

variable {σ σ' : Store}

theorem Looks.buffers (h : σ.Looks σ') : σ.buffers <+: σ'.buffers := by
  induction h with
  | here => exact List.prefix_rfl
  | @next σ' c run hc hv ih =>
    have hwrites := hc.writes σ'
    generalize (c.run σ').2 = σ'' at hwrites ⊢
    cases hwrites with
    | grown h => exact ih.trans h.buffers
    | written hb hx hy =>
      obtain ⟨s, q, hr, hq, hmutable, -⟩ := Call.target?_eq_some.mp hb
      exact absurd hmutable (hv s q hr hq)

end Store

theorem library_framed (σ : Store) : σ.Framed where
  calls c hc := hc.framed σ
  looks σ' h := h.buffers
  refuses := by
    intro s q hq hv c hc
    rcases hc with ⟨m, rfl⟩ | ⟨i, rfl⟩ | rfl
    · refine ⟨.unsupported m.name q.variant, ?_, rfl⟩
      show (Value.sequence <$> StoreM.mutate s m).exec σ = _
      rw [StoreM.exec_map, StoreM.mutate, StoreM.exec_mutableOnly_refused hq hv]
      rfl
    · exact ⟨_, StoreM.exec_mutableOnly_refused hq hv _ _, rfl⟩
    · refine ⟨.unsupported "auto-wipe" q.variant, ?_, rfl⟩
      show (StoreM.leave s >>= _).exec σ = _
      rw [StoreM.exec_bind, StoreM.leave, StoreM.exec_mutableOnly_refused hq hv]

end Octets
