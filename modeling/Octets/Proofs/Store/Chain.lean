import Octets.Proofs.Store.Dispatch
/-!
# Chains of transforms

A chain is a series of transforms, each applied to what the one before it has yielded;
a transform that is refused leaves the sequence that it was applied to, so that the chain
goes on from there, unless it is a shuffle, which may have moved bytes by then. Chains run
in lockstep on any number of sequences with arrays of their own, whatever their variants.

* `answers`: what a chain yields, step by step, from content and order alone;
* `lockstep_eq`: every sequence yields just that, whether it is rewritten or copied.
-/

namespace Octets

/-! ## Links -/

/-- An operand in a chain: fixed bytes, or the sequence that the link is applied to. -/
inductive Feed
  | fixed (x : Bytes)
  | receiver

def Feed.operand (s : SequenceId) : Feed → Operand
  | fixed x => .bytes x
  | receiver => .sequence s

/-- A transform in a chain. -/
inductive Link
  /-- A transformer of the library, which may be refused when it is set up. -/
  | apply (t : Outcome Transform)
  | append (parts : List Feed)
  | appendText (t codec : Text)
  | bitwise (op : Bits.Operation) (operand : Feed)
  | negate
  | shift (d : Bits.Direction) (count : Int)
  | switchBit (position : Int) (value : Option Bool)
  | copy (offset : Int) (length : Option Int)
  | reverse
  | resize (anchor : Layout.Anchor) (length : Int)
  | sort (key : Option SortKey) (descending : Bool)
  | shuffle (g : Generator)
  | hash (l : DigestLibrary) (algorithm : Option Text)
  | hmac (l : DigestLibrary) (key : Feed) (algorithm : Option Text)

namespace Link

/-- The request that a link makes of a sequence. -/
def request (s : SequenceId) : Link → Outcome Request
  | apply t => t.map fun t => .apply t.toTransformer
  | append parts => .ok (.append (parts.map (Feed.operand s)))
  | appendText t codec => .ok (.appendText t codec)
  | bitwise op operand => .ok (.bitwise op (operand.operand s))
  | negate => .ok .negate
  | shift d count => .ok (.shift d count)
  | switchBit position value => .ok (.switchBit position value)
  | copy offset length => .ok (.copy offset length)
  | reverse => .ok .reverse
  | resize anchor length => .ok (.resize anchor length)
  | sort key descending => .ok (.sort key descending)
  | shuffle g => .ok (.shuffle g)
  | hash l algorithm => .ok (.hash l algorithm)
  | hmac l key algorithm => .ok (.hmac l (key.operand s) algorithm)

/-- The generator that a link has been given, if it shuffles. -/
def generator? : Link → Option Generator
  | shuffle g => some g
  | apply (.ok t) => t.generator?
  | _ => none

/-- Apply a link to a sequence. -/
def perform (l : Link) (s : SequenceId) : StoreM SequenceId := do
  let r ← StoreM.reading fun _ => l.request s
  StoreM.request s r

/-- Apply a link to one sequence after another; a refusal does not stop the others. -/
def performAll (l : Link) : List SequenceId → Store → List (Outcome SequenceId) × Store
  | [], σ => ([], σ)
  | s :: ss, σ =>
    let first := (l.perform s).exec σ
    let rest := performAll l ss first.2
    (first.1 :: rest.1, rest.2)

end Link

/-! ## Chains -/

/-- The content and the order of what an operation yields. -/
def Store.glance (σ : Store) (r : Outcome SequenceId) : Outcome (Bytes × ByteOrder) := do
  let q ← σ.sequence? (← r)
  let x ← σ.buffer? q.buffer
  return (x, q.order)

/-- Where a chain goes on from: what a link has yielded, or where it was refused. -/
def Link.next (s : SequenceId) : Outcome SequenceId → SequenceId
  | .ok t => t
  | .error _ => s

/-- Whether a chain ends with a link: a shuffle that has been refused a draw. -/
def Link.ends (l : Link) (round : List (Outcome SequenceId)) : Bool :=
  l.generator?.isSome && round.any fun r => !r.isOk

/-- What a chain yields on some sequences: for every link one look at all of them. -/
def lockstep : List Link → List SequenceId → Store → List (List (Outcome (Bytes × ByteOrder)))
  | [], _, _ => []
  | l :: ls, ss, σ =>
    let round := l.performAll ss σ
    round.1.map round.2.glance ::
      if l.ends round.1 then [] else lockstep ls (List.zipWith Link.next ss round.1) round.2

/-- A store that holds nothing but one sequence. -/
def Store.alone (o : ByteOrder) (x : Bytes) : Store :=
  ⟨[x], [⟨.readOnly, o, 0, none⟩], []⟩

/-- The content that a link yields, if a transformer does not write what it is given. -/
def Link.answer (l : Link) (o : ByteOrder) (x : Bytes) : Outcome Bytes := do
  let r ← l.request 0
  let t ← r.transform? (Store.alone o x) o x
  (t.apply false x).content

/-- What a chain yields from content and order alone. -/
def answers : List Link → ByteOrder → Bytes → List (Outcome (Bytes × ByteOrder))
  | [], _, _ => []
  | l :: ls, o, x =>
    match l.answer o x with
    | .ok y => .ok (y, o) :: answers ls o y
    | .error f => .error f :: if l.generator?.isSome then [] else answers ls o x

/-! ## One link on one sequence -/

variable {σ : Store} {s : SequenceId} {q : Sequence} {x y : Bytes} {o : ByteOrder}

theorem Store.holds_alone (o : ByteOrder) (x : Bytes) :
    (Store.alone o x).Holds 0 ⟨.readOnly, o, 0, none⟩ x where
  sequence := rfl
  content := rfl

theorem Feed.read_operand (h : σ.content? s = .ok x) (a : Feed) :
    σ.read (a.operand s) = (Store.alone o x).read (a.operand 0) := by
  cases a with
  | fixed y => rfl
  | receiver => exact h.trans (Store.holds_alone o x).content?.symm

theorem Feed.readAll_operand (h : σ.content? s = .ok x) (parts : List Feed) :
    σ.readAll (parts.map (Feed.operand s)) =
      (Store.alone o x).readAll (parts.map (Feed.operand 0)) := by
  induction parts with
  | nil => rfl
  | cons a parts ih =>
    rw [Store.readAll, Store.readAll] at ih ⊢
    simp only [List.map_cons, List.foldr_cons]
    rw [ih, Feed.read_operand h]

namespace Link

/-- The transformer that a link comes to. -/
def transformer? (l : Link) (σ : Store) (s : SequenceId) (o : ByteOrder) (x : Bytes) :
    Outcome Transformer := do
  let r ← l.request s
  r.transform? σ o x

/-- The transformer depends on the content and the order of the receiver alone. -/
theorem transformer?_alone (h : σ.content? s = .ok x) (l : Link) :
    l.transformer? σ s o x = l.transformer? (Store.alone o x) 0 o x := by
  cases l with
  | apply t =>
    cases t with
    | ok t => rfl
    | error f => rfl
  | append parts =>
    show (σ.readAll _).map _ = ((Store.alone o x).readAll _).map _
    rw [Feed.readAll_operand h]
  | bitwise op operand =>
    show (σ.read _).map _ = ((Store.alone o x).read _).map _
    rw [Feed.read_operand h]
  | hmac k key algorithm =>
    show (σ.read _ >>= _) = ((Store.alone o x).read _ >>= _)
    rw [Feed.read_operand h]
  | _ => rfl

theorem request_eq_apply {l : Link} {t : Transformer} (h : l.request s = .ok (.apply t)) :
    ∃ u : Transform, u.toTransformer = t ∧ u.generator? = l.generator? := by
  cases l with
  | apply u =>
    cases u with
    | ok u =>
      cases h
      exact ⟨u, rfl, rfl⟩
    | error f => cases h
  | _ => cases h

theorem generator?_request {l : Link} {r : Request} (h : l.request s = .ok r)
    (hr : ∀ t, r ≠ .apply t) : r.generator? = l.generator? := by
  cases l with
  | apply u =>
    obtain ⟨u, -, rfl⟩ := map_eq_ok.mp h
    exact absurd rfl (hr _)
  | _ =>
    cases h
    rfl

/-- A link comes to a transformer of the library. -/
theorem transformer?_library {l : Link} {t : Transformer} (h : l.transformer? σ s o x = .ok t) :
    ∃ u : Transform, u.toTransformer = t ∧ u.generator? = l.generator? := by
  obtain ⟨r, hr, h⟩ := exists_of_bind_eq_ok h
  by_cases happly : ∃ u, r = .apply u
  · obtain ⟨u, rfl⟩ := happly
    cases h
    exact request_eq_apply hr
  · rcases Request.transform?_library h with heq | ⟨u, hu, hg⟩
    · exact absurd ⟨t, heq⟩ happly
    · exact ⟨u, hu, hg.trans (generator?_request hr fun u heq => happly ⟨u, heq⟩)⟩

theorem answer_eq (l : Link) (o : ByteOrder) (x : Bytes) :
    l.answer o x =
      l.transformer? (Store.alone o x) 0 o x >>= fun t => (t.apply false x).content := by
  rw [answer, transformer?]
  cases l.request 0 with
  | ok r => rfl
  | error f => rfl

theorem exec_perform (h : σ.Holds s q x) (l : Link) :
    (l.perform s).exec σ =
      match l.transformer? σ s q.order x with
      | .ok t => (StoreM.dispatch s t).exec σ
      | .error f => (.error f, σ) := by
  rw [perform, transformer?]
  cases hr : l.request s with
  | error f =>
    rw [StoreM.exec_reading_bind_error (f := fun _ => .error f) rfl]
    rfl
  | ok r =>
    rw [StoreM.exec_reading_bind (f := fun _ => .ok r) rfl, StoreM.exec_request h]
    rfl

/-- A link that is refused writes no other array, and a link that does not shuffle leaves the
store as it is. -/
theorem perform_refused (h : σ.Holds s q x) {l : Link} {f : Fault}
    (hf : l.answer q.order x = .error f) :
    ∃ z, (l.perform s).exec σ = (.error f, σ.written q.buffer z) ∧
      (l.generator? = none → z = x) := by
  have hself : σ.written q.buffer x = σ := Store.written_self h.content
  rw [answer_eq, ← transformer?_alone h.content?] at hf
  rw [exec_perform h]
  cases ht : l.transformer? σ s q.order x with
  | error e =>
    rw [ht] at hf
    cases hf
    exact ⟨x, congrArg (Prod.mk _) hself.symm, fun _ => rfl⟩
  | ok t =>
    rw [ht] at hf
    obtain ⟨u, rfl, hg⟩ := transformer?_library ht
    refine ⟨_, StoreM.dispatch_refused h hf, fun hnone => ?_⟩
    exact StoreM.current_effect (hg.trans hnone) hf

/-- A link that is not refused yields the content it answers with. -/
theorem perform_yields (h : σ.Holds s q x) {l : Link} (hy : l.answer q.order x = .ok y) :
    ∃ t σ', (l.perform s).exec σ = (.ok t, σ') ∧ σ.Yields σ' q t y := by
  rw [answer_eq, ← transformer?_alone h.content?] at hy
  rw [exec_perform h]
  cases ht : l.transformer? σ s q.order x with
  | error e =>
    rw [ht] at hy
    cases hy
  | ok t =>
    rw [ht] at hy
    obtain ⟨u, rfl, -⟩ := transformer?_library ht
    exact StoreM.dispatch_yields h hy

end Link

theorem Store.glance_ok (h : σ.Holds s q x) : σ.glance (.ok s) = .ok (x, q.order) := by
  show (σ.sequence? s >>= fun q => σ.buffer? q.buffer >>= fun x => pure (x, q.order)) = _
  rw [h.sequence?]
  show (σ.buffer? q.buffer >>= _) = _
  rw [h.buffer?]
  rfl

/-! ## One link on all sequences -/

/-- Sequences with one content and one order, in arrays of their own. -/
inductive Store.Alike (σ : Store) (o : ByteOrder) (x : Bytes) :
    List SequenceId → List BufferId → Prop
  | nil : Alike σ o x [] []
  | cons {s : SequenceId} {ss : List SequenceId} {q : Sequence} {bs : List BufferId}
      (holds : σ.Holds s q x) (order : q.order = o) (apart : q.buffer ∉ bs)
      (rest : Alike σ o x ss bs) : Alike σ o x (s :: ss) (q.buffer :: bs)

/-- What sequences in the arrays `bs` leave behind that yield ones in the arrays `cs`. -/
structure Store.Moves (σ σ' : Store) (bs cs : List BufferId) : Prop where
  arrays : ∀ c ∈ cs, c ∈ bs ∨ σ.buffers.length ≤ c
  frame : ∀ s r z, σ.Holds s r z → r.buffer ∉ bs → σ'.Holds s r z

namespace Store.Moves

variable {σ₁ σ' : Store} {bs cs : List BufferId}

theorem nil (σ : Store) : σ.Moves σ [] [] where
  arrays := fun _ => nofun
  frame := fun _ _ _ hr _ => hr

/-- One sequence yields, then the others do. -/
theorem cons {t : SequenceId} {c : BufferId} (hyields : σ.Yields σ₁ q t y)
    (hc : c = q.buffer ∨ c = σ.buffers.length) (h : σ₁.Moves σ' bs cs) :
    σ.Moves σ' (q.buffer :: bs) (c :: cs) where
  arrays := by
    intro d hd
    rcases List.mem_cons.mp hd with rfl | hd
    · rcases hc with rfl | rfl
      · exact .inl (List.mem_cons_self ..)
      · exact .inr (Nat.le_refl _)
    · rcases h.arrays d hd with hb | hb
      · exact .inl (List.mem_cons_of_mem _ hb)
      · exact .inr (Nat.le_trans hyields.grown hb)
  frame := by
    intro s r z hr hb
    have hne : r.buffer ≠ q.buffer := fun heq => hb (heq ▸ List.mem_cons_self ..)
    have hr₁ : σ₁.Holds s r z := hyields.frame s r z hr hne
    exact h.frame s r z hr₁ fun hmem => hb (List.mem_cons_of_mem _ hmem)

/-- An array that was there and not among the old ones is not among the new ones. -/
theorem not_mem {b : BufferId} (h : σ.Moves σ' bs cs) (hbs : b ∉ bs)
    (hlt : b < σ.buffers.length) : b ∉ cs := by
  intro hmem
  rcases h.arrays b hmem with hb | hb
  · exact hbs hb
  · exact Nat.not_lt_of_le hb hlt

end Store.Moves

namespace Store.Alike

variable {σ' : Store} {ss : List SequenceId} {bs : List BufferId}

theorem lt (h : σ.Alike o x ss bs) : ∀ b ∈ bs, b < σ.buffers.length := by
  induction h with
  | nil =>
    intro b hb
    cases hb
  | cons holds order apart rest ih =>
    intro b hb
    rcases List.mem_cons.mp hb with rfl | hb
    · exact holds.lt
    · exact ih b hb

/-- Sequences stay alike where their arrays are not touched. -/
theorem of_frame (h : σ.Alike o x ss bs)
    (frame : ∀ s r z, σ.Holds s r z → r.buffer ∈ bs → σ'.Holds s r z) :
    σ'.Alike o x ss bs := by
  induction h with
  | nil => exact .nil
  | cons holds order apart rest ih =>
    refine .cons (frame _ _ _ holds (List.mem_cons_self ..)) order apart (ih ?_)
    intro s r z hr hb
    exact frame s r z hr (List.mem_cons_of_mem _ hb)

/-- Sequences stay alike where an array apart from theirs is written. -/
theorem written (h : σ.Alike o x ss bs) {b : BufferId} (hb : b ∉ bs) (z : Bytes) :
    (σ.written b z).Alike o x ss bs := by
  apply h.of_frame
  intro s r y hr hmem
  apply hr.written_of_ne
  rintro rfl
  exact hb hmem

/-- Sequences that are alike are refused alike. -/
theorem performAll_refused (h : σ.Alike o x ss bs) {l : Link} {f : Fault}
    (hf : l.answer o x = .error f) :
    ∃ σ', l.performAll ss σ = (List.replicate ss.length (.error f), σ') ∧
      (l.generator? = none → σ' = σ) := by
  induction ss generalizing σ bs with
  | nil => exact ⟨σ, rfl, fun _ => rfl⟩
  | cons s ss ih =>
    cases h with
    | @cons _ _ q bs holds order apart rest =>
      obtain ⟨z, hexec, hz⟩ := Link.perform_refused holds (order ▸ hf)
      obtain ⟨σ', hall, hσ⟩ := ih (rest.written apart z)
      refine ⟨σ', ?_, fun hnone => ?_⟩
      · rw [Link.performAll, hexec]
        show (.error f :: (l.performAll ss _).1, (l.performAll ss _).2) = _
        rw [hall]
        rfl
      · rw [hσ hnone, hz hnone, Store.written_self holds.content]

/-- Sequences stay alike where one with an array of its own yields. -/
theorem of_yields {t : SequenceId} (h : σ.Alike o x ss bs) (hyields : σ.Yields σ' q t y)
    (apart : q.buffer ∉ bs) : σ'.Alike o x ss bs := by
  apply h.of_frame
  intro s r z hs hb
  apply hyields.frame s r z hs
  intro heq
  exact apart (heq ▸ hb)

/-- Neither an array apart from those of the sequences nor a new one is among them. -/
theorem fresh {b c : BufferId} (h : σ.Alike o x ss bs) (apart : b ∉ bs)
    (hc : c = b ∨ c = σ.buffers.length) : c ∉ bs := by
  rcases hc with rfl | rfl
  · exact apart
  · intro hmem
    exact Nat.lt_irrefl _ (h.lt _ hmem)

/-- Sequences that are alike yield sequences that are alike. -/
theorem performAll_yields (h : σ.Alike o x ss bs) {l : Link} (hy : l.answer o x = .ok y) :
    ∃ ts cs σ', l.performAll ss σ = (ts.map .ok, σ') ∧ σ'.Alike o y ts cs ∧
      σ.Moves σ' bs cs := by
  induction ss generalizing σ bs with
  | nil =>
    cases h
    exact ⟨[], [], σ, rfl, .nil, .nil σ⟩
  | cons s ss ih =>
    cases h with
    | @cons _ _ q bs holds order apart rest =>
      obtain ⟨t, σ₁, hexec, hyields⟩ := Link.perform_yields holds (order ▸ hy)
      obtain ⟨r, hr, _, hro, hrb⟩ := hyields.result
      obtain ⟨ts, cs, σ₂, hall, halike, hmoves⟩ := ih (rest.of_yields hyields apart)
      have hfresh : r.buffer ∉ bs := rest.fresh apart hrb
      refine ⟨t :: ts, r.buffer :: cs, σ₂, ?_, ?_, hmoves.cons hyields hrb⟩
      · rw [Link.performAll, hexec]
        show (.ok t :: (l.performAll ss σ₁).1, (l.performAll ss σ₁).2) = _
        rw [hall]
        rfl
      · have hapart : r.buffer ∉ cs := hmoves.not_mem hfresh hr.lt
        exact .cons (hmoves.frame t r y hr hfresh) (hro.trans order) hapart halike

/-- Sequences that are alike look alike. -/
theorem map_glance (h : σ.Alike o x ss bs) :
    (ss.map .ok).map σ.glance = List.replicate ss.length (.ok (x, o)) := by
  induction h with
  | nil => rfl
  | cons holds order apart rest ih =>
    rw [List.map_cons, List.map_cons, ih, ← order, glance_ok holds]
    rfl

end Store.Alike

/-! ## Chains in lockstep -/

namespace Link

theorem length_performAll (l : Link) (ss : List SequenceId) (σ : Store) :
    (l.performAll ss σ).1.length = ss.length := by
  induction ss generalizing σ with
  | nil => rfl
  | cons s ss ih => exact congrArg (· + 1) (ih _)

/-- A chain goes on from what has been yielded. -/
theorem zipWith_next_ok {ss ts : List SequenceId} (h : ts.length = ss.length) :
    List.zipWith next ss (ts.map .ok) = ts := by
  induction ss generalizing ts with
  | nil => rw [List.length_eq_zero_iff.mp h, List.zipWith_nil_left]
  | cons s ss ih =>
    cases ts with
    | nil => cases h
    | cons t ts =>
      rw [List.map_cons, List.zipWith_cons_cons, ih (Nat.succ.inj h)]
      rfl

/-- A chain goes on from where it was refused. -/
theorem zipWith_next_error (ss : List SequenceId) (f : Fault) :
    List.zipWith next ss (List.replicate ss.length (.error f)) = ss := by
  induction ss with
  | nil => rfl
  | cons s ss ih =>
    rw [List.length_cons, List.replicate_succ, List.zipWith_cons_cons, ih]
    rfl

/-- A refused shuffle is the end, and no other refusal is. -/
theorem ends_error {l : Link} {ss : List SequenceId} (hss : ss ≠ []) {f : Fault} :
    l.ends (List.replicate ss.length (.error f)) = l.generator?.isSome := by
  obtain ⟨s, ss, rfl⟩ := List.exists_cons_of_ne_nil hss
  rw [ends, List.length_cons, List.replicate_succ, List.any_cons]
  exact Bool.and_true _

theorem ends_ok (l : Link) (ts : List SequenceId) : l.ends (ts.map .ok) = false := by
  have hnone : ((ts.map .ok).any fun r : Outcome SequenceId => !r.isOk) = false := by
    rw [List.any_map]
    exact List.any_eq_false.mpr fun _ _ => nofun
  rw [ends, hnone, Bool.and_false]

end Link

/-- What a chain yields is the same for all sequences of one content and one order,
whatever their variants. -/
theorem lockstep_eq {ss : List SequenceId} (hss : ss ≠ []) {bs : List BufferId}
    (h : σ.Alike o x ss bs) (ls : List Link) :
    lockstep ls ss σ = (answers ls o x).map (List.replicate ss.length) := by
  induction ls generalizing σ ss bs x with
  | nil => rfl
  | cons l ls ih =>
    cases ha : l.answer o x with
    | error f =>
      obtain ⟨σ', hall, hσ⟩ := h.performAll_refused ha
      have hglance : (List.replicate ss.length (.error f)).map σ'.glance =
          List.replicate ss.length (.error f) := by
        rw [List.map_replicate]
        rfl
      simp only [lockstep, answers, ha, hall, hglance, Link.ends_error hss,
        Link.zipWith_next_error, List.map_cons]
      cases hg : l.generator? with
      | none =>
        rw [hσ hg]
        exact congrArg _ (ih hss h)
      | some g => rfl
    | ok y =>
      obtain ⟨ts, cs, σ', hall, halike, _⟩ := h.performAll_yields ha
      have hlength : ts.length = ss.length := by
        have := l.length_performAll ss σ
        rwa [hall, List.length_map] at this
      have hts : ts ≠ [] := by
        rintro rfl
        exact hss (List.length_eq_zero_iff.mp hlength.symm)
      simp only [lockstep, answers, ha, hall, halike.map_glance, l.ends_ok ts, Bool.false_eq_true,
        if_false, Link.zipWith_next_ok hlength, ih hts halike, hlength, List.map_cons]

/-- A mutable, an immutable and a read-only sequence with one content and one order, in
arrays of their own, cannot be told apart by any chain of transforms: at every step all
three are refused for the same cause, or all three have the same content and order. Nor
can a transformer of the library be told from what it does to a copy. -/
theorem variants_alike {m i r : SequenceId} {bm bi br : BufferId}
    {km ki kr : Option (Bytes × ByteOrder)} (hm : σ.Holds m ⟨.mutable, o, bm, km⟩ x)
    (hi : σ.Holds i ⟨.immutable, o, bi, ki⟩ x) (hr : σ.Holds r ⟨.readOnly, o, br, kr⟩ x)
    (hmi : bm ≠ bi) (hmr : bm ≠ br) (hir : bi ≠ br) (ls : List Link) :
    lockstep ls [m, i, r] σ = (answers ls o x).map (fun a => [a, a, a]) ∧
      ∀ (t : Transform) (y : Bytes), (t.apply true y).content = (t.apply false y).content := by
  constructor
  · have hr' : σ.Alike o x [r] [br] := .cons hr rfl (List.not_mem_nil) .nil
    have hir' : σ.Alike o x [i, r] [bi, br] := by
      refine .cons hi rfl ?_ hr'
      intro h
      exact hir (List.mem_singleton.mp h)
    have hmir' : σ.Alike o x [m, i, r] [bm, bi, br] := by
      refine .cons hm rfl ?_ hir'
      intro h
      rcases List.mem_cons.mp h with h | h
      · exact hmi h
      · exact hmr (List.mem_singleton.mp h)
    exact lockstep_eq (List.cons_ne_nil _ _) hmir' ls
  · intro t y
    exact t.content_apply true y

/-- The second link is refused for the length of its operand, and the third one goes on
from the first. -/
theorem variants_alike_xor :
    let ls := [.bitwise .xor .receiver, .bitwise .and (.fixed [7]), .append [.fixed [7], .receiver]]
    lockstep ls [0, 1, 2] ⟨[[1, 2], [1, 2], [1, 2]], [⟨.mutable, .little, 0, none⟩,
        ⟨.immutable, .little, 1, none⟩, ⟨.readOnly, .little, 2, none⟩], []⟩ =
        (answers ls .little [1, 2]).map (fun a => [a, a, a]) ∧
      answers ls .little [1, 2] = [.ok ([0, 0], .little), .error (.operandLength "and" 2 1),
        .ok ([0, 0, 7, 0, 0], .little)] ∧
      ∀ (t : Transform) (y : Bytes), (t.apply true y).content = (t.apply false y).content := by
  intro ls
  have h := variants_alike (m := 0) (i := 1) (r := 2) (o := .little) (x := [1, 2])
    (σ := ⟨[[1, 2], [1, 2], [1, 2]], [⟨.mutable, .little, 0, none⟩,
      ⟨.immutable, .little, 1, none⟩, ⟨.readOnly, .little, 2, none⟩], []⟩)
    ⟨rfl, rfl⟩ ⟨rfl, rfl⟩ ⟨rfl, rfl⟩ (by decide) (by decide) (by decide) ls
  exact ⟨h.1, rfl, h.2⟩

end Octets
