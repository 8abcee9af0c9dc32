import Octets.Proofs.Lexicographic
import Octets.Proofs.Store.Hashes
/-!
# Comparison, equality and hash

Sequences compare by their contents alone, and that as the lists of their bytes do
(`Store.Ordered`). They are equal if contents and orders are the same (`Store.Equated`).
What is equal has the same hash, wherever in a run the hashes are asked for, and the hash
of an immutable sequence lasts. All in one: `equality_hash_and_order`.
-/

namespace Octets

/-- What a sequence yields when it is compared with another one. -/
def Store.Compares (σ : Store) (a b : SequenceId) (v : Int) : Prop :=
  σ.query a (.compare (.sequence b)) = .ok (.int v)

/-- A sequence says that it equals another one. -/
def Store.Same (σ : Store) (a b : SequenceId) : Prop :=
  σ.query a (.equals (.sequence b)) = .ok (.bool true)

/-- How sequences compare. -/
structure Store.Ordered (σ : Store) : Prop where
  /-- Any two of them do, as -1, 0 or 1. -/
  total : ∀ {a b : SequenceId}, a < σ.sequences.length → b < σ.sequences.length →
    ∃ v, σ.Compares a b v ∧ (v = -1 ∨ v = 0 ∨ v = 1)
  swap : ∀ {a b : SequenceId} {v : Int}, σ.Compares a b v → σ.Compares b a (-v)
  trans : ∀ {a b c : SequenceId} {u v : Int}, σ.Compares a b u → σ.Compares b c v →
    u ≤ 0 → v ≤ 0 → ∃ r, σ.Compares a c r ∧ r ≤ 0 ∧ (r = 0 ↔ u = 0 ∧ v = 0)
  /-- Zero stands for the same content. -/
  content : ∀ {a b : SequenceId} {v : Int}, σ.Compares a b v →
    σ.query a (.equalsContent b) = .ok (.bool (v = 0))
  relations : ∀ {a b : SequenceId} {v : Int}, σ.Compares a b v →
    σ.query a (.relate .less (.sequence b)) = .ok (.bool (v < 0)) ∧
    σ.query a (.relate .lessEqual (.sequence b)) = .ok (.bool (v ≤ 0)) ∧
    σ.query a (.relate .greater (.sequence b)) = .ok (.bool (0 < v)) ∧
    σ.query a (.relate .greaterEqual (.sequence b)) = .ok (.bool (0 ≤ v))
  /-- Variants and orders play no part. -/
  contents : ∀ {a a' b b' : SequenceId}, σ.content? a = σ.content? a' →
    σ.content? b = σ.content? b' →
    σ.query a (.compare (.sequence b)) = σ.query a' (.compare (.sequence b'))
  /-- Contents of one length compare as the numbers that they write. -/
  numbers : ∀ {a b : SequenceId} {x y : Bytes}, σ.content? a = .ok x → σ.content? b = .ok y →
    x.length = y.length → σ.Compares a b ((x.value : Int) - y.value).sign
  /-- A proper initial part is smaller. -/
  initial : ∀ {a b : SequenceId} {x y : Bytes}, σ.content? a = .ok x → σ.content? b = .ok y →
    x <+: y → x ≠ y → σ.Compares a b (-1)

/-- When sequences are equal. -/
structure Store.Equated (σ : Store) : Prop where
  compares : ∀ {a b : SequenceId} {q r : Sequence} {v : Int}, σ.sequences[a]? = some q →
    σ.sequences[b]? = some r → σ.Compares a b v →
    σ.query a (.equals (.sequence b)) = .ok (.bool (v = 0 ∧ q.order = r.order))
  refl : ∀ {a : SequenceId}, a < σ.sequences.length → σ.Same a a
  symm : ∀ {a b : SequenceId}, σ.Same a b → σ.Same b a
  trans : ∀ {a b c : SequenceId}, σ.Same a b → σ.Same b c → σ.Same a c
  /-- Variants play no part. -/
  variants : ∀ {a a' : SequenceId} {q q' : Sequence} {x : Bytes}, σ.Holds a q x →
    σ.Holds a' q' x → q.order = q'.order → ∀ b,
    σ.query a (.equals (.sequence b)) = σ.query a' (.equals (.sequence b)) ∧
    σ.query b (.equals (.sequence a)) = σ.query b (.equals (.sequence a'))

/-- How order, equality and hash go together. -/
structure World.Coherent (w : World) : Prop where
  ordered : w.store.Ordered
  equated : w.store.Equated
  /-- A hash is taken of content and order as they are now, whatever has been kept. -/
  current : ∀ {a : SequenceId} {q : Sequence} {x : Bytes}, w.store.Holds a q x →
    ((StoreM.hashKey a).exec w.store).1 = .ok (x, q.order)
  hashes : ∀ {a b : SequenceId}, w.store.Same a b →
    ∃ key, ((StoreM.hashKey a).exec w.store).1 = .ok key ∧
      ((StoreM.hashKey b).exec w.store).1 = .ok key ∧
      ((Call.sameHash a b).run w.store).1 = .ok (.bool true)
  /-- What the hash of an immutable sequence is taken of is the same from then on, and the
  same as for all that ever equals the sequence. -/
  lasting : ∀ {a : SequenceId} {q : Sequence} {w' : World},
    w.store.sequences[a]? = some q → q.variant = .immutable → w.Run w' →
    ∃ key, ((StoreM.hashKey a).exec w.store).1 = .ok key ∧
      ((StoreM.hashKey a).exec w'.store).1 = .ok key ∧
      ∀ b, w'.store.Same a b → ((StoreM.hashKey b).exec w'.store).1 = .ok key

namespace Store

variable {σ : Store} {a b c : SequenceId}

/-! ## Order -/

/-- A question about nothing but the content is answered from it. -/
theorem query_of_content {k : Query} {f : Bytes → Outcome Value}
    (hk : ∀ v o x, k.answer σ v o x = f x) (a : SequenceId) :
    σ.query a k = σ.content? a >>= f := by
  rw [query, content?]
  cases σ.sequence? a with
  | error e => rfl
  | ok q =>
    show (σ.buffer? q.buffer >>= _) = (σ.buffer? q.buffer >>= f)
    cases σ.buffer? q.buffer with
    | error e => rfl
    | ok x => exact hk q.variant q.order x

theorem query_compare (σ : Store) (a b : SequenceId) :
    σ.query a (.compare (.sequence b)) =
      σ.content? a >>= fun x => (σ.content? b).map fun y => .int (Search.compare x y) :=
  query_of_content (fun _ _ _ => rfl) a

theorem query_content_ok {k : Query} (g : Bytes → Bytes → Value) {x y : Bytes}
    (hk : ∀ v o x, k.answer σ v o x = (σ.content? b).map (g x)) (hx : σ.content? a = .ok x)
    (hy : σ.content? b = .ok y) : σ.query a k = .ok (g x y) := by
  rw [query_of_content hk, hx]
  show (σ.content? b).map (g x) = _
  rw [hy]
  rfl

theorem compares_iff {v : Int} : σ.Compares a b v ↔
    ∃ x y, σ.content? a = .ok x ∧ σ.content? b = .ok y ∧ Search.compare x y = v := by
  rw [Compares]
  constructor
  · intro h
    rw [query_compare] at h
    obtain ⟨x, hx, h⟩ := exists_of_bind_eq_ok h
    obtain ⟨y, hy, h⟩ := map_eq_ok.mp h
    exact ⟨x, y, hx, hy, Value.int.inj h⟩
  · rintro ⟨x, y, hx, hy, rfl⟩
    exact query_content_ok (fun x y => .int (Search.compare x y)) (fun _ _ _ => rfl) hx hy

theorem holds_of_content? {q : Sequence} {x : Bytes} (hq : σ.sequences[a]? = some q)
    (hx : σ.content? a = .ok x) : σ.Holds a q x := by
  rw [content?, sequence?_eq_ok.mpr hq] at hx
  exact ⟨hq, buffer?_eq_ok.mp hx⟩

theorem Bounded.exists_holds (h : σ.Bounded) (ha : a < σ.sequences.length) :
    ∃ q x, σ.Holds a q x :=
  ⟨_, h.holds (List.getElem?_eq_getElem ha)⟩

theorem Bounded.ordered (h : σ.Bounded) : σ.Ordered where
  total := by
    intro a b ha hb
    obtain ⟨q, x, hq⟩ := h.exists_holds ha
    obtain ⟨r, y, hr⟩ := h.exists_holds hb
    exact ⟨_, compares_iff.mpr ⟨x, y, hq.content?, hr.content?, rfl⟩, Search.compare_mem x y⟩
  swap := by
    intro a b v hv
    obtain ⟨x, y, hx, hy, rfl⟩ := compares_iff.mp hv
    exact compares_iff.mpr ⟨y, x, hy, hx, Search.compare_swap x y⟩
  trans := by
    intro a b c u v hu hv hu0 hv0
    obtain ⟨x, y, hx, hy, rfl⟩ := compares_iff.mp hu
    obtain ⟨y', z, hy', hz, rfl⟩ := compares_iff.mp hv
    obtain rfl : y = y' := Except.ok.inj (hy.symm.trans hy')
    exact ⟨_, compares_iff.mpr ⟨x, z, hx, hz, rfl⟩, Search.compare_trans hu0 hv0,
      Search.compare_trans_eq_zero hu0 hv0⟩
  content := by
    intro a b v hv
    obtain ⟨x, y, hx, hy, rfl⟩ := compares_iff.mp hv
    rw [query_content_ok (fun x y => .bool (x = y)) (fun _ _ _ => rfl) hx hy]
    simp only [Search.compare_eq_zero]
  relations := by
    intro a b v hv
    obtain ⟨x, y, hx, hy, rfl⟩ := compares_iff.mp hv
    have hrelate (k : Relation) :
        σ.query a (.relate k (.sequence b)) = .ok (.bool (k.holds (Search.compare x y))) :=
      query_content_ok (fun x y => .bool (k.holds (Search.compare x y))) (fun _ _ _ => rfl) hx hy
    exact ⟨hrelate .less, hrelate .lessEqual, hrelate .greater, hrelate .greaterEqual⟩
  contents := by
    intro a a' b b' ha hb
    rw [query_compare, query_compare, ha, hb]
  numbers := by
    intro a b x y hx hy hlength
    exact compares_iff.mpr ⟨x, y, hx, hy, Search.compare_eq_sign hlength⟩
  initial := by
    intro a b x y hx hy hprefix hne
    exact compares_iff.mpr ⟨x, y, hx, hy, Search.compare_of_prefix hprefix hne⟩

/-! ## Equality -/

theorem equal_eq (σ : Store) (o : ByteOrder) (x : Bytes) (b : SequenceId) :
    Query.equal σ o x (.sequence b) = (σ.key? b).map fun k => decide ((x, o) = k) := by
  rw [Query.equal, key?]
  cases σ.sequence? b with
  | error e => rfl
  | ok r =>
    show (σ.buffer? r.buffer >>= _) = (σ.buffer? r.buffer >>= _).map _
    cases σ.buffer? r.buffer with
    | error e => rfl
    | ok y =>
      show Except.ok (decide (o = r.order) && decide (x = y)) =
        Except.ok (decide ((x, o) = (y, r.order)))
      rw [Bool.and_comm, ← Bool.decide_and]
      simp only [Prod.mk.injEq]

/-- Content and order are all that equality looks at. -/
theorem query_equals (σ : Store) (a b : SequenceId) :
    σ.query a (.equals (.sequence b)) =
      σ.key? a >>= fun k => (σ.key? b).map fun k' => .bool (k = k') := by
  rw [query, key?]
  cases σ.sequence? a with
  | error e => rfl
  | ok q =>
    show (σ.buffer? q.buffer >>= _) = ((σ.buffer? q.buffer >>= _) >>= _)
    cases σ.buffer? q.buffer with
    | error e => rfl
    | ok x =>
      show (Query.equal σ q.order x (.sequence b)).map Value.bool = (σ.key? b).map _
      rw [equal_eq]
      cases σ.key? b with
      | error e => rfl
      | ok k => rfl

theorem same_iff : σ.Same a b ↔ ∃ k, σ.key? a = .ok k ∧ σ.key? b = .ok k := by
  rw [Same, query_equals]
  constructor
  · intro h
    obtain ⟨k, hk, h⟩ := exists_of_bind_eq_ok h
    obtain ⟨k', hk', h⟩ := map_eq_ok.mp h
    obtain rfl : k = k' := of_decide_eq_true (Value.bool.inj h)
    exact ⟨k, hk, hk'⟩
  · rintro ⟨k, hk, hk'⟩
    rw [hk, hk']
    exact congrArg (Except.ok ∘ Value.bool) (decide_eq_true rfl)

theorem Bounded.equated (h : σ.Bounded) : σ.Equated where
  compares := by
    intro a b q r v hq hr hv
    obtain ⟨x, y, hx, hy, rfl⟩ := compares_iff.mp hv
    have ha : σ.key? a = .ok (x, q.order) := (holds_of_content? hq hx).key?
    have hb : σ.key? b = .ok (y, r.order) := (holds_of_content? hr hy).key?
    rw [query_equals, ha, hb]
    show Except.ok (Value.bool _) = _
    simp only [Prod.mk.injEq, Search.compare_eq_zero]
  refl := by
    intro a ha
    obtain ⟨q, x, hq⟩ := h.exists_holds ha
    exact same_iff.mpr ⟨_, hq.key?, hq.key?⟩
  symm := by
    intro a b hab
    obtain ⟨k, ha, hb⟩ := same_iff.mp hab
    exact same_iff.mpr ⟨k, hb, ha⟩
  trans := by
    intro a b c hab hbc
    obtain ⟨k, ha, hb⟩ := same_iff.mp hab
    obtain ⟨k', hb', hc⟩ := same_iff.mp hbc
    obtain rfl : k = k' := Except.ok.inj (hb.symm.trans hb')
    exact same_iff.mpr ⟨k, ha, hc⟩
  variants := by
    intro a a' q q' x hq hq' ho b
    have hkey : σ.key? a = σ.key? a' := by rw [hq.key?, hq'.key?, ho]
    rw [query_equals, query_equals, query_equals, query_equals, hkey]
    exact ⟨rfl, rfl⟩

end Store

/-! ## Order, equality and hash together -/

namespace World

variable {w : World}

theorem Isolated.hashKey_eq (h : w.Isolated) (hw : w.store.Current) (a : SequenceId) :
    ((StoreM.hashKey a).exec w.store).1 = w.store.key? a := by
  obtain ⟨σ', hexec, -⟩ := StoreM.exec_hashKey_current h.bounded hw a
  rw [hexec]

theorem Isolated.coherent (h : w.Isolated) (hw : w.store.Current) : w.Coherent where
  ordered := Store.Bounded.ordered h.bounded
  equated := Store.Bounded.equated h.bounded
  current := by
    intro a q x hq
    rw [h.hashKey_eq hw, hq.key?]
  hashes := by
    intro a b hab
    obtain ⟨k, ha, hb⟩ := Store.same_iff.mp hab
    refine ⟨k, (h.hashKey_eq hw a).trans ha, (h.hashKey_eq hw b).trans hb, ?_⟩
    rw [(StoreM.exec_sameHash h.bounded hw a b).1, ha, hb]
    exact congrArg (Except.ok ∘ Value.bool) (decide_eq_true rfl)
  lasting := by
    intro a q w' hq hv hrun
    have hkey' := (h.run hrun).isolated.hashKey_eq (h.current_run hw hrun)
    obtain ⟨x, hx⟩ := Store.Bounded.holds h.bounded hq
    obtain ⟨kept, hx'⟩ := (h.run hrun).keeps a q x hv hx
    refine ⟨(x, q.order), (h.hashKey_eq hw a).trans hx.key?, (hkey' a).trans hx'.key?, ?_⟩
    intro b hab
    obtain ⟨k, ha, hb⟩ := Store.same_iff.mp hab
    rw [hkey' b, hb, ← ha, hx'.key?]

end World

/-- In every world that the caller can bring about, sequences are ordered by their contents,
equality is that of contents and orders, and equal sequences have equal hashes. -/
theorem equality_hash_and_order {w : World} (hw : World.initial.Run w) : w.Coherent := by
  have hcurrent : w.store.Current := World.isolated_initial.current_run nofun hw
  exact (World.isolated_initial.run hw).isolated.coherent hcurrent

/-- An immutable copy has been asked for its hash, and what it was made of is zeroed. -/
theorem equality_hash_and_order_kept :
    let w := [.construct .mutable (.copyOf (.bytes [1, 2]) none), .convert 0 .toImmutable,
      .sameHash 1 0, .mutate 0 .wipe].foldl World.after World.initial
    (w.store.sequences[1]?).map (·.hashed) = some (some ([1, 2], .big)) ∧ w.Coherent := by
  have h1 : World.initial.Run _ :=
    .next (c := .construct .mutable (.copyOf (.bytes [1, 2]) none)) .here (fun _ => nofun)
  have h2 := h1.next (c := .convert 0 .toImmutable) trivial
  have h3 := h2.next (c := .sameHash 1 0) trivial
  have h4 := h3.next (c := .mutate 0 .wipe) trivial
  exact ⟨rfl, equality_hash_and_order h4⟩

end Octets
