import Octets.Proofs.IntegerViews
import Octets.Proofs.Reversal
import Octets.Proofs.Store.Chain
/-!
# The order of a sequence

A little sequence behaves as a big one over the reversed bytes: questions about the whole
of it have the same answers, what is found at a place in the one is found as far from the
other end in the other, and a change of bits yields the reversed content
(`order_mirrored`). It is nowhere more than a way to read what is stored. Integers are read by
a reader of another library, of which no more is known than that it is faithful.
-/

namespace Octets

/-- The questions about the number that a sequence writes as a whole, or about its bits. -/
inductive Query.OfWhole : Query → Prop
  | bigInteger : OfWhole .bigInteger
  | uuid : OfWhole .uuid
  | integer (k : IntegerKind) : OfWhole (.integer k)
  | real (k : RealKind) : OfWhole (.real k)
  | bitAt (p : Int) : OfWhole (.bitAt p)
  | encode (e : Encoding) : OfWhole (.encode e)

/-- The requests that change bits by their position. -/
inductive Request.OnBits : Request → Prop
  | shift (d : Bits.Direction) (count : Int) : OnBits (.shift d count)
  | switchBit (position : Int) (value : Option Bool) : OnBits (.switchBit position value)

/-- Content and order of what a request yields. -/
def Store.outcome (σ : Store) (s : SequenceId) (r : Request) : Outcome (Bytes × ByteOrder) :=
  ((StoreM.request s r).exec σ).2.glance ((StoreM.request s r).exec σ).1

/-- What is read from a stream over little bytes `x`, and from one over the reversed bytes. -/
structure IntegerReader.Mirrors (r : IntegerReader) (x : Bytes) : Prop where
  exact : ∀ k : IntegerKind, r.exact k .little x = r.exact k .big x.reverse
  readAt : ∀ (k : IntegerKind) (i v : Int), r.readAt k .little x i = .ok v ↔
    r.readAt k .big x.reverse (x.length - k.width - i) = .ok v
  array : ∀ k : IntegerKind, r.array k .little x = (r.array k .big x.reverse).map List.reverse

/-- How a little sequence `s` with the content `x` and a big one `t` go together, their integers
being read by `r`. -/
structure Mirrored (r : IntegerReader) (σ τ : Store) (s t : SequenceId) (x : Bytes) : Prop where
  encoded : ∀ e : Encoding, e.encode x .little = e.encode x.reverse .big
  decoded : ∀ (e : Encoding) (text : Text),
    e.decode text .little = (e.decode text .big).map List.reverse
  /-- They answer alike as a whole, be it with a refusal. -/
  whole : ∀ k : Query, k.OfWhole → σ.query s k = τ.query t k
  /-- Integers are what is read from a stream over the content, -/
  answered : r.Answers σ s .little x ∧ r.Answers τ t .big x.reverse
  /-- and the streams mirror each other as the sequences do. -/
  streamed : r.Mirrors x
  /-- What is read `i` bytes after the start of the one is read up to `i` bytes before the end
  of the other. -/
  placed : ∀ (k : IntegerKind) (i : Int) (v : Value), σ.query s (.integerAt k i) = .ok v ↔
    τ.query t (.integerAt k (x.length - k.width - i)) = .ok v
  /-- The numbers that fill the one fill the other backwards. -/
  filled : ∀ k : IntegerKind, ∃ vs : Outcome (List Int),
    τ.query t (.integers k) = vs.map .ints ∧
    σ.query s (.integers k) = (vs.map List.reverse).map .ints
  filledReal : ∀ k : RealKind, ∃ rs : Outcome (List Binary64),
    τ.query t (.reals k) = rs.map .reals ∧
    σ.query s (.reals k) = (rs.map List.reverse).map .reals
  /-- A change of bits yields the reversed content, or is refused alike. -/
  changed : ∀ r : Request, r.OnBits → ∃ y : Outcome Bytes,
    τ.outcome t r = y.map (·, .big) ∧
    σ.outcome s r = (y.map List.reverse).map (·, .little)

variable {σ τ : Store} {s t : SequenceId} {q p : Sequence} {x : Bytes}

/-- A request for a transformer of the library yields what that answers with on a copy. -/
theorem Store.outcome_library (h : σ.Holds s q x) {r : Request} {u : Transform}
    (hr : r.transform? σ q.order x = .ok u.toTransformer) :
    σ.outcome s r = (u.apply false x).content.map (·, q.order) := by
  have hrequest : (StoreM.request s r).exec σ = (StoreM.dispatch s u.toTransformer).exec σ := by
    rw [StoreM.exec_request h, hr]
  rw [outcome, hrequest]
  cases hy : (u.apply false x).content with
  | error f =>
    rw [StoreM.dispatch_refused h hy]
    rfl
  | ok y =>
    obtain ⟨k, σ', hexec, ⟨p, hp, -, ho, -⟩, -, -⟩ := StoreM.dispatch_yields h hy
    rw [hexec, glance_ok hp, ho]
    rfl

theorem Store.outcome_refused (h : σ.Holds s q x) {r : Request} {f : Fault}
    (hr : r.transform? σ q.order x = .error f) : σ.outcome s r = .error f := by
  rw [outcome, StoreM.exec_request h, hr]
  rfl

theorem Store.outcome_shift (h : σ.Holds s q x) (d : Bits.Direction) (count : Int) :
    σ.outcome s (.shift d count) = ((Check.notNegative count "shift count").map fun _ =>
      Bits.shift d count.toNat q.order x).map (·, q.order) := by
  cases hcount : Check.notNegative count "shift count" with
  | error f =>
    refine outcome_refused h ?_
    show (Transform.shiftBy d count q.order).map _ = _
    rw [Transform.shiftBy, hcount]
    rfl
  | ok u =>
    refine outcome_library (u := .shift d count.toNat q.order) h ?_
    show (Transform.shiftBy d count q.order).map _ = _
    rw [Transform.shiftBy, hcount]
    rfl

theorem Store.outcome_switchBit (h : σ.Holds s q x) (position : Int) (value : Option Bool) :
    σ.outcome s (.switchBit position value) =
      (Bits.switchBit q.order position value x).map (·, q.order) := by
  rw [outcome_library (u := .switchBit position value q.order) h rfl]
  exact congrArg (Except.map _) (Transform.content_writtenIf false x _)

theorem answer_little (σ τ : Store) (v w : Variant) (x : Bytes) {k : Query} (hk : k.OfWhole) :
    k.answer σ v .little x = k.answer τ w .big x.reverse := by
  cases hk with
  | bigInteger => exact congrArg (fun n => Except.ok (Value.int n)) (signedValue_little x)
  | uuid => exact congrArg (Except.map _) (Uuid.ofBytes_little x)
  | integer k => exact congrArg (Except.map _) (k.exact_little x)
  | real k => exact congrArg (Except.map _) (k.exact_little x)
  | bitAt p => exact congrArg (Except.map _) (Bits.bitAt_little x p)
  | encode e => rfl

theorem IntegerReader.mirrors_of_faithful {r : IntegerReader} (hr : r.Faithful) (x : Bytes) :
    r.Mirrors x where
  exact k := by
    rw [exact_eq hr, exact_eq hr, k.exact_little]
  readAt k i v := by
    rw [readAt_eq hr, readAt_eq hr, k.readAt_little]
  array k := by
    rw [array_eq hr, array_eq hr, k.array_little]

/-- A little sequence and a big one over the reversed bytes mirror each other. -/
theorem order_mirrored {r : IntegerReader} (hr : r.Faithful) (hs : σ.Holds s q x)
    (ho : q.order = .little) (ht : τ.Holds t p x.reverse) (hp : p.order = .big) :
    Mirrored r σ τ s t x where
  encoded := fun _ => rfl
  decoded := fun e text => by
    rw [e.decode_big]
    rfl
  whole := by
    intro k hk
    rw [hs.query, ht.query, ho, hp]
    exact answer_little σ τ q.variant p.variant x hk
  answered :=
    ⟨ho ▸ IntegerReader.answers_of_faithful hr hs, hp ▸ IntegerReader.answers_of_faithful hr ht⟩
  streamed := IntegerReader.mirrors_of_faithful hr x
  placed := by
    intro k i v
    rw [hs.query, ht.query, ho, hp]
    show (k.readAt .little x i).map _ = _ ↔ (k.readAt .big x.reverse _).map _ = _
    rw [map_eq_ok, map_eq_ok]
    simp only [k.readAt_little]
  filled := by
    intro k
    refine ⟨k.array .big x.reverse, ?_, ?_⟩
    · rw [ht.query, hp]
      rfl
    · rw [hs.query, ho, ← k.array_little]
      rfl
  filledReal := by
    intro k
    refine ⟨k.array .big x.reverse, ?_, ?_⟩
    · rw [ht.query, hp]
      rfl
    · rw [hs.query, ho, ← k.array_little]
      rfl
  changed := by
    intro r hr
    cases hr with
    | shift d count =>
      refine ⟨(Check.notNegative count "shift count").map fun _ =>
        Bits.shift d count.toNat .big x.reverse, ?_, ?_⟩
      · rw [Store.outcome_shift ht, hp]
      · rw [Store.outcome_shift hs, ho]
        cases Check.notNegative count "shift count" with
        | error f => rfl
        | ok u => exact congrArg (fun y => Except.ok (y, _)) (Bits.shift_little d count.toNat x)
    | switchBit position value =>
      refine ⟨Bits.switchBit .big position value x.reverse, ?_, ?_⟩
      · rw [Store.outcome_switchBit ht, hp]
      · rw [Store.outcome_switchBit hs, ho, Bits.switchBit_little]

/-- A little and a big sequence in one store. -/
theorem order_mirrored_pair :
    let σ : Store := ⟨[[1, 2, 3], [3, 2, 1]],
      [⟨.immutable, .little, 0, none⟩, ⟨.mutable, .big, 1, none⟩], []⟩
    σ.Holds 0 ⟨.immutable, .little, 0, none⟩ [1, 2, 3] ∧
      σ.Holds 1 ⟨.mutable, .big, 1, none⟩ [3, 2, 1] ∧ IntegerReader.standard.Faithful ∧
      Mirrored .standard σ σ 0 1 [1, 2, 3] :=
  have hs := ⟨rfl, rfl⟩
  have ht := ⟨rfl, rfl⟩
  have hr := IntegerReader.standard_faithful
  ⟨hs, ht, hr, order_mirrored hr hs rfl ht rfl⟩

end Octets
