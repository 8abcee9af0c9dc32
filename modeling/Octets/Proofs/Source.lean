import Octets.Proofs.Store.Execution
import Octets.Source
/-!
# Reading a source piece by piece

A source answers one request after another with the bytes that are next, so that what it has
handed out and what is left make up what there was (`Source.answers_append_rest`). It may hand
out less than it is asked for, but a willing one hands out something while there is something
left.

Reading up to a length or to the end asks for one piece after another until there is enough
or none comes; `Source.Reads` has a constructor for each of the three things that can happen
at this point. By induction on it, no request asks for nothing or for more than is still
wanted (`Reads.sizes_bounded`), the bytes are the first ones up to the limit (`Reads.data_eq`),
and the end is met exactly if the limit lies beyond it (`Reads.ended_iff`).
-/

namespace Octets

namespace Source

variable {s : Source} {wanted : Option Nat} {r : Reading}

/-! ## One request after another -/

/-- What the source answers to requests for these sizes. -/
def answers (s : Source) : List Nat → List Bytes
  | [] => []
  | size :: sizes => (s.read size).1 :: (s.read size).2.answers sizes

/-- The source after requests for these sizes. -/
def after (s : Source) : List Nat → Source
  | [] => s
  | size :: sizes => (s.read size).2.after sizes

theorem read_append_rest (s : Source) (size : Nat) :
    (s.read size).1 ++ (s.read size).2.rest = s.rest :=
  List.take_append_drop _ _

theorem length_read_le (s : Source) (size : Nat) : (s.read size).1.length ≤ size := by
  simp only [read, List.length_take]
  omega

theorem answers_append_rest (s : Source) (sizes : List Nat) :
    (s.answers sizes).flatten ++ (s.after sizes).rest = s.rest := by
  induction sizes generalizing s with
  | nil => rfl
  | cons size sizes ih =>
    rw [answers, after, List.flatten_cons, List.append_assoc, ih, read_append_rest]

theorem after_kept (s : Source) (sizes : List Nat) : (s.after sizes).policy = s.policy ∧
    (s.after sizes).reads = s.reads + sizes.length := by
  induction sizes generalizing s with
  | nil => exact ⟨rfl, rfl⟩
  | cons size sizes ih =>
    obtain ⟨hpolicy, hreads⟩ := ih (s.read size).2
    refine ⟨hpolicy, hreads.trans ?_⟩
    rw [List.length_cons, Nat.add_comm sizes.length 1, ← Nat.add_assoc]
    rfl

/-- Requests take away what has been handed out, and are counted. -/
theorem after_eq (s : Source) (sizes : List Nat) : s.after sizes =
    ⟨s.rest.drop (s.answers sizes).flatten.length, s.policy, s.reads + sizes.length⟩ := by
  obtain ⟨hpolicy, hreads⟩ := s.after_kept sizes
  have hrest := congrArg (List.drop (s.answers sizes).flatten.length)
    (s.answers_append_rest sizes)
  rw [List.drop_left] at hrest
  rw [← hrest, ← hpolicy, ← hreads]

/-- A source that hands out at least a byte, whenever it is asked for one and has one. How many
it hands out may change from read to read in any way. -/
def Willing (s : Source) : Prop :=
  ∀ n size, 0 < size → 0 < s.policy n size

theorem Willing.read (hs : s.Willing) (size : Nat) : (s.read size).2.Willing := hs

theorem Willing.read_eq_nil (hs : s.Willing) {size : Nat} (hsize : 0 < size)
    (h : (s.read size).1 = []) : s.rest = [] := by
  have hpolicy := hs s.reads size hsize
  rcases List.take_eq_nil_iff.mp h with hzero | hrest
  · omega
  · exact hrest

/-! ## Reading up to a length -/

/-- The size that is asked for where so much is wanted. -/
def nextSize (wanted : Option Nat) : Nat := wanted.elim pieceSize (min pieceSize)

theorem nextSize_le_wanted (m : Nat) : nextSize (some m) ≤ m := Nat.min_le_right _ _

theorem nextSize_bounded (hw : wanted ≠ some 0) : 0 < nextSize wanted ∧
    nextSize wanted ≤ pieceSize ∧ ∀ m, wanted = some m → nextSize wanted ≤ m := by
  have hpiece : 0 < pieceSize := by decide
  cases wanted with
  | none => exact ⟨hpiece, Nat.le_refl _, fun m hm => nomatch hm⟩
  | some m =>
    have hm : 0 < m := Nat.pos_of_ne_zero fun h => hw (congrArg some h)
    refine ⟨Nat.lt_min.mpr ⟨hpiece, hm⟩, Nat.min_le_left _ _, ?_⟩
    rintro _ ⟨⟩
    exact nextSize_le_wanted m

/-- Reading up to a length or to the end. Either there is enough, or the next request meets the
end, or a piece comes. -/
inductive Reads : Source → Option Nat → Reading → Prop
  | enough {s : Source} : Reads s (some 0) ⟨[], s, []⟩
  | ended {s : Source} {wanted : Option Nat} (hw : wanted ≠ some 0)
      (h : (s.read (nextSize wanted)).1 = []) :
      Reads s wanted ⟨[], (s.read (nextSize wanted)).2, [nextSize wanted]⟩
  | piece {s : Source} {wanted : Option Nat} {r : Reading} (hw : wanted ≠ some 0)
      (h : (s.read (nextSize wanted)).1 ≠ [])
      (more : Reads (s.read (nextSize wanted)).2
        (wanted.map (· - (s.read (nextSize wanted)).1.length)) r) :
      Reads s wanted ⟨(s.read (nextSize wanted)).1 ++ r.data, r.source,
        nextSize wanted :: r.sizes⟩

theorem reads_readAll (s : Source) (wanted : Option Nat) : Reads s wanted (s.readAll wanted) := by
  induction s, wanted using readAll.induct with
  | case1 s =>
    rw [readAll, if_pos rfl]
    exact .enough
  | case2 s wanted hw size n h =>
    rw [readAll, if_neg hw, dif_pos h]
    exact .ended hw h
  | case3 s wanted hw size n s' h piece ih =>
    rw [readAll, if_neg hw, dif_neg h]
    exact .piece hw h ih

namespace Reads

theorem answered (h : Reads s wanted r) : (s.answers r.sizes).flatten = r.data := by
  induction h with
  | enough => rfl
  | ended hw h => simp [answers, h]
  | piece hw h more ih => rw [answers, List.flatten_cons, ih]

theorem after_sizes (h : Reads s wanted r) : s.after r.sizes = r.source := by
  induction h with
  | enough => rfl
  | ended hw h => rfl
  | piece hw h more ih => exact ih

/-- All but the last request have been answered with something. -/
theorem length_sizes_le (h : Reads s wanted r) : r.sizes.length ≤ r.data.length + 1 := by
  induction h with
  | enough => exact Nat.zero_le _
  | ended hw h => exact Nat.le_refl _
  | piece hw h more ih =>
    have hpos := List.length_pos_iff.mpr h
    rw [List.length_cons, List.length_append]
    omega

/-- No request asks for nothing, for too much at a time, or for more than is still wanted. -/
theorem sizes_bounded (h : Reads s wanted r) {i size : Nat} (hi : r.sizes[i]? = some size) :
    0 < size ∧ size ≤ pieceSize ∧
      ∀ m, wanted = some m → ((s.answers r.sizes).take i).flatten.length + size ≤ m := by
  induction h generalizing i with
  | enough => cases hi
  | ended hw h =>
    cases i with
    | zero =>
      cases hi
      simpa using nextSize_bounded hw
    | succ i => cases hi
  | @piece s wanted r hw h more ih =>
    cases i with
    | zero =>
      cases hi
      simpa using nextSize_bounded hw
    | succ i =>
      obtain ⟨hpos, hle, hlimit⟩ := ih hi
      refine ⟨hpos, hle, ?_⟩
      rintro m rfl
      have hfirst := length_read_le s (nextSize (some m))
      have hwanted := nextSize_le_wanted m
      have hrest : _ ≤ m - _ := hlimit _ rfl
      rw [answers, List.take_succ_cons, List.flatten_cons, List.length_append]
      omega

theorem data_eq (h : Reads s wanted r) (hs : s.Willing) :
    r.data = s.rest.take (wanted.getD s.rest.length) := by
  induction h with
  | enough => rfl
  | ended hw h =>
    rw [hs.read_eq_nil (nextSize_bounded hw).1 h, List.take_nil]
  | @piece s wanted r hw h more ih =>
    have hall := s.read_append_rest (nextSize wanted)
    rw [ih (hs.read _)]
    cases wanted with
    | none =>
      simp only [Option.map_none, Option.getD_none, List.take_length]
      exact hall
    | some m =>
      have hfirst := length_read_le s (nextSize (some m))
      have hwanted := nextSize_le_wanted m
      simp only [Option.map_some, Option.getD_some]
      have hpiece := Nat.le_trans hfirst hwanted
      rw [← hall, List.take_append, List.take_of_length_le hpiece]

/-- A request meets the end exactly if the limit lies beyond it. -/
theorem ended_iff (h : Reads s wanted r) (hs : s.Willing) :
    [] ∈ s.answers r.sizes ↔ ∀ m, wanted = some m → s.rest.length < m := by
  induction h with
  | enough => simp [answers]
  | @ended s wanted hw h =>
    have hrest := hs.read_eq_nil (nextSize_bounded hw).1 h
    simp only [answers, h, List.mem_singleton, true_iff]
    rintro m rfl
    rw [hrest]
    exact Nat.pos_of_ne_zero fun hm => hw (congrArg some hm)
  | @piece s wanted r hw h more ih =>
    have hall := congrArg List.length (s.read_append_rest (nextSize wanted))
    rw [List.length_append] at hall
    rw [answers, List.mem_cons, or_iff_right h.symm, ih (hs.read _)]
    cases wanted with
    | none => simp
    | some m =>
      simp only [Option.map_some, Option.some.injEq, forall_eq']
      omega

end Reads

/-! ## What is read, and what is left -/

/-- What reading up to `limit` bytes, or up to the end, comes to. -/
structure ReadsPrefix (s : Source) (limit : Option Nat) (r : Reading) : Prop where
  data : r.data = s.rest.take (limit.getD s.rest.length)
  /-- The source has lost these bytes and no more. -/
  consumed : r.source = ⟨s.rest.drop r.data.length, s.policy, s.reads + r.sizes.length⟩
  /-- The requests for these sizes are those that have been made. -/
  answered : (s.answers r.sizes).flatten = r.data
  after : s.after r.sizes = r.source
  /-- No request asks for nothing, for too much, or for more than is wanted after the answers
  before it. -/
  sizes : ∀ i size, r.sizes[i]? = some size → 0 < size ∧ size ≤ 4096 ∧
    ∀ m, limit = some m → ((s.answers r.sizes).take i).flatten.length + size ≤ m
  /-- The end is met if there is no limit, or one that lies beyond it. -/
  ended : [] ∈ s.answers r.sizes ↔ ∀ m, limit = some m → s.rest.length < m
  requests : r.sizes.length ≤ r.data.length + 1

theorem Reads.readsPrefix (h : Reads s wanted r) (hs : s.Willing) :
    s.ReadsPrefix wanted r where
  data := h.data_eq hs
  consumed := by
    rw [← h.after_sizes, after_eq, h.answered]
  answered := h.answered
  after := h.after_sizes
  sizes := fun _ _ => h.sizes_bounded
  ended := h.ended_iff hs
  requests := h.length_sizes_le

theorem readUpTo_eq (s : Source) (limit : Option Nat) :
    s.readUpTo (limit.map Int.ofNat) = .ok (s.readAll limit) := by
  cases limit with
  | none => rfl
  | some m =>
    have hcheck : Check.notNegative (Int.ofNat m) "max_length" = .ok () :=
      Check.notNegative_eq_ok.mpr (Int.natCast_nonneg m)
    simp only [readUpTo, Option.map_some, hcheck]
    rfl

theorem readUpTo_negative (s : Source) {m : Int} (hm : m < 0) :
    s.readUpTo (some m) = .error (.negative "max_length" m) := by
  simp only [readUpTo, Check.notNegative, if_pos hm]
  rfl

end Source

/-- Read as a computation, a source is left as the reading has left it. A refused limit leaves
it unread. -/
theorem SourceM.run_readUpTo (limit : Option Int) (s : Source) :
    (readUpTo limit).run.run s = match s.readUpTo limit with
      | .ok r => (.ok r.data, r.source)
      | .error f => (.error f, s) := by
  cases limit with
  | none => rfl
  | some m =>
    simp only [readUpTo, checking, Source.readUpTo]
    cases Check.notNegative m "max_length" with
    | ok u => rfl
    | error f => rfl

/-- How a source is read up to a limit. -/
structure Source.ReadsUpTo (s : Source) : Prop where
  accepted : ∀ limit : Option Nat, ∃ r, s.readUpTo (limit.map Int.ofNat) = .ok r ∧
    s.ReadsPrefix limit r ∧
    (SourceM.readUpTo (limit.map Int.ofNat)).run.run s = (.ok r.data, r.source)
  /-- A negative limit is refused before anything is read. -/
  refused : ∀ m : Int, m < 0 → ∃ f : Fault, f.kind = .bounds ∧ s.readUpTo (some m) = .error f ∧
    (SourceM.readUpTo (some m)).run.run s = (.error f, s)
  /-- A sequence made of a source has the bytes that are read of it, in the standard order. -/
  constructed : ∀ (σ : Store) (variant : Variant) (limit : Option Nat),
    (Call.construct variant (.ofSource s (limit.map Int.ofNat))).run σ =
      (.ok (.sequence σ.sequences.length),
        σ.created variant .big (s.rest.take (limit.getD s.rest.length)))
  constructionRefused : ∀ (σ : Store) (variant : Variant) (m : Int), m < 0 →
    ∃ f : Fault, f.kind = .bounds ∧
      (Call.construct variant (.ofSource s (some m))).run σ = (.error f, σ)

namespace Source

variable {s : Source}

theorem reads_up_to (hs : s.Willing) : s.ReadsUpTo where
  accepted := by
    intro limit
    refine ⟨_, s.readUpTo_eq limit, (s.reads_readAll limit).readsPrefix hs, ?_⟩
    rw [SourceM.run_readUpTo, readUpTo_eq]
  refused := by
    intro m hm
    refine ⟨_, rfl, s.readUpTo_negative hm, ?_⟩
    rw [SourceM.run_readUpTo, readUpTo_negative s hm]
  constructed := by
    intro σ variant limit
    apply Call.run_construct
    rw [Construction.plan, readUpTo_eq, ← (s.reads_readAll limit).data_eq hs]
    rfl
  constructionRefused := by
    intro σ variant m hm
    refine ⟨.negative "max_length" m, rfl, Call.run_construct_refused ?_⟩
    rw [Construction.plan, readUpTo_negative s hm]
    rfl

theorem reads_up_to_limited : (limited 2 [1, 2, 3]).Willing ∧ (limited 2 [1, 2, 3]).ReadsUpTo := by
  have hs : (limited 2 [1, 2, 3]).Willing := fun _ _ hsize => Nat.lt_min.mpr ⟨hsize, by decide⟩
  exact ⟨hs, reads_up_to hs⟩

/-- Three bytes, handed out two at a time. -/
example : ((limited 2 [1, 2, 3]).readAll none).sizes = [4096, 4096, 4096] ∧
    ((limited 2 [1, 2, 3]).readAll (some 3)).sizes = [3, 1] := by
  decide +kernel

end Source
end Octets
