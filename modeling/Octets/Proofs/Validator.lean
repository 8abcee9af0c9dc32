import Mathlib.Logic.Relation
import Octets.Proofs.Store.Execution
/-!
# Validator trees

A tree may be rewritten by De Morgan's rules, by dropping double negations and by taking a
tree of all or any into one of the same kind, anywhere in it (`Rewrites`). None of this can
be told from outside: the two trees are the same computation in every monad
(`evaluate_eq_of_rewritten`), so that foreign predicates are called in the same order and up
to the same one. As all and any differ only in the answer that ends them (`Connective.stop?`),
what holds of one is proved of both.

Which predicates are called is told by the relation `Evaluates`, which goes from left to
right and as far as the answer is open. Every tree evaluates in one way
(`evaluates_iff`), and a fault is that of the last predicate called (`Evaluates.settled`).

All in one: `lawful`.
-/

namespace Octets

/-- The answer of a member that ends a tree of all or any. -/
def Connective.stop? : Connective → Option Bool
  | .all => some false
  | .any => some true
  | .negation => none

namespace Validator

variable {π : Type}

/-! ## Members up to the one that decides -/

section Members

variable {m : Type → Type} [Monad m] [MonadExcept Fault m] {c : Connective} {stop : Bool}

/-- The members from left to right, up to the first that answers `stop`. -/
def evaluateUntil (stop : Bool) (call : π → Bytes → m Bool) (x : Bytes) :
    List (Validator π) → m Bool
  | [] => pure !stop
  | v :: vs => do
    let b ← v.evaluate call x
    if b = stop then pure stop else evaluateUntil stop call x vs

variable (call : π → Bytes → m Bool) (x : Bytes)

theorem evaluate_logical (hc : c.stop? = some stop) (vs : List (Validator π)) :
    (logical c vs).evaluate call x = evaluateUntil stop call x vs := by
  cases c with
  | negation => cases hc
  | all =>
    cases hc
    rw [evaluate]
    induction vs with
    | nil => rfl
    | cons v vs ih =>
      rw [evaluateAll, evaluateUntil, ih]
      congr 1
      funext b
      cases b <;> rfl
  | any =>
    cases hc
    rw [evaluate]
    induction vs with
    | nil => rfl
    | cons v vs ih => rw [evaluateAny, evaluateUntil, ih]

theorem evaluate_allOf (vs : List (Validator π)) :
    (allOf vs).evaluate call x = evaluateUntil false call x vs :=
  evaluate_logical call x rfl vs

theorem evaluate_anyOf (vs : List (Validator π)) :
    (anyOf vs).evaluate call x = evaluateUntil true call x vs :=
  evaluate_logical call x rfl vs

/-- Negation looks at its first member, be it the one that differs or not. -/
theorem evaluate_negation_congr (us ws : List (Validator π)) {v w : Validator π}
    (h : v.evaluate call x = w.evaluate call x) :
    (logical .negation (us ++ v :: ws)).evaluate call x =
      (logical .negation (us ++ w :: ws)).evaluate call x := by
  cases us with
  | nil => rw [List.nil_append, List.nil_append, evaluate, evaluate, h]
  | cons u us => rw [List.cons_append, List.cons_append, evaluate, evaluate]

variable [LawfulMonad m]

theorem evaluate_notOf (v : Validator π) :
    (notOf v).evaluate call x = (! ·) <$> v.evaluate call x := by
  rw [notOf, evaluate, map_eq_pure_bind]

theorem evaluateUntil_append (stop : Bool) (us vs : List (Validator π)) :
    evaluateUntil stop call x (us ++ vs) = (do
      let b ← evaluateUntil stop call x us
      if b = stop then pure stop else evaluateUntil stop call x vs) := by
  induction us with
  | nil => simp [evaluateUntil]
  | cons u us ih =>
    simp only [List.cons_append, evaluateUntil, bind_assoc, ih]
    congr 1
    funext b
    by_cases hb : b = stop
    · simp [hb]
    · simp [hb]

/-- De Morgan's rules: negated members end at the other answer. -/
theorem evaluateUntil_map_notOf (stop : Bool) (vs : List (Validator π)) :
    evaluateUntil stop call x (vs.map notOf) = (! ·) <$> evaluateUntil (!stop) call x vs := by
  induction vs with
  | nil => simp [evaluateUntil]
  | cons v vs ih =>
    simp only [List.map_cons, evaluateUntil, evaluate_notOf, ih, map_bind, bind_map_left]
    congr 1
    funext b
    cases b <;> cases stop <;> simp

/-- Members of a member of the same kind may as well be members themselves. -/
theorem evaluateUntil_flatten (hc : c.stop? = some stop) (us vs ws : List (Validator π)) :
    evaluateUntil stop call x (us ++ logical c vs :: ws) =
      evaluateUntil stop call x (us ++ vs ++ ws) := by
  rw [List.append_assoc, evaluateUntil_append, evaluateUntil_append call x stop us,
    evaluateUntil_append call x stop vs, evaluateUntil, evaluate_logical call x hc]

theorem evaluateUntil_congr (stop : Bool) (us ws : List (Validator π)) {v w : Validator π}
    (h : v.evaluate call x = w.evaluate call x) :
    evaluateUntil stop call x (us ++ v :: ws) = evaluateUntil stop call x (us ++ w :: ws) := by
  rw [evaluateUntil_append, evaluateUntil_append, evaluateUntil, evaluateUntil, h]

end Members

/-! ## Rewriting -/

/-- One rewriting, somewhere in a tree. -/
inductive Rewrites : Validator π → Validator π → Prop
  | notAll (vs : List (Validator π)) : Rewrites (notOf (allOf vs)) (anyOf (vs.map notOf))
  | notAny (vs : List (Validator π)) : Rewrites (notOf (anyOf vs)) (allOf (vs.map notOf))
  | notNot (v : Validator π) : Rewrites (notOf (notOf v)) v
  | flattenAll (us vs ws : List (Validator π)) :
      Rewrites (allOf (us ++ allOf vs :: ws)) (allOf (us ++ vs ++ ws))
  | flattenAny (us vs ws : List (Validator π)) :
      Rewrites (anyOf (us ++ anyOf vs :: ws)) (anyOf (us ++ vs ++ ws))
  | member (c : Connective) (us ws : List (Validator π)) {v w : Validator π}
      (h : Rewrites v w) : Rewrites (.logical c (us ++ v :: ws)) (.logical c (us ++ w :: ws))

section Rewriting

variable {m : Type → Type} [Monad m] [LawfulMonad m] [MonadExcept Fault m]

theorem evaluate_member_congr (call : π → Bytes → m Bool) (x : Bytes) (c : Connective)
    (us ws : List (Validator π)) {v w : Validator π}
    (h : v.evaluate call x = w.evaluate call x) :
    (logical c (us ++ v :: ws)).evaluate call x =
      (logical c (us ++ w :: ws)).evaluate call x := by
  cases hc : c.stop? with
  | some stop =>
    rw [evaluate_logical call x hc, evaluate_logical call x hc]
    exact evaluateUntil_congr call x stop us ws h
  | none =>
    cases c with
    | negation => exact evaluate_negation_congr call x us ws h
    | all => cases hc
    | any => cases hc

theorem Rewrites.evaluate_eq {v w : Validator π} (h : Rewrites v w)
    (call : π → Bytes → m Bool) (x : Bytes) : v.evaluate call x = w.evaluate call x := by
  induction h with
  | notAll vs =>
    rw [evaluate_notOf, evaluate_allOf, evaluate_anyOf, evaluateUntil_map_notOf, Bool.not_true]
  | notAny vs =>
    rw [evaluate_notOf, evaluate_anyOf, evaluate_allOf, evaluateUntil_map_notOf, Bool.not_false]
  | notNot v => simp [evaluate_notOf]
  | flattenAll us vs ws =>
    rw [evaluate_allOf, evaluate_allOf]
    exact evaluateUntil_flatten call x rfl us vs ws
  | flattenAny us vs ws =>
    rw [evaluate_anyOf, evaluate_anyOf]
    exact evaluateUntil_flatten call x rfl us vs ws
  | member c us ws _ ih => exact evaluate_member_congr call x c us ws ih

/-- However often a tree is rewritten, forth or back, it is the same computation. -/
theorem evaluate_eq_of_rewritten {v w : Validator π} (h : Relation.EqvGen Rewrites v w)
    (call : π → Bytes → m Bool) (x : Bytes) : v.evaluate call x = w.evaluate call x := by
  induction h with
  | rel v w h => exact h.evaluate_eq call x
  | refl v => rfl
  | symm v w _ ih => exact ih.symm
  | trans v w u _ _ ih ih' => exact ih.trans ih'

end Rewriting

/-! ## Which predicates are called -/

/-- Evaluation from left to right: on `x` the tree calls some foreign predicates, one after
another, and comes to an outcome. A tree of all or any goes on as long as its members leave
the answer open. -/
inductive Evaluates (call : π → Bytes → Outcome Bool) (x : Bytes) :
    Validator π → List π → Outcome Bool → Prop
  | length (test : LengthTest) (n : Int) :
      Evaluates call x (.length test n) [] (.ok (lengthHolds test n x))
  | content (test : ContentTest) (byte : Int) :
      Evaluates call x (.content test byte) [] (.ok (contentHolds test byte x))
  | foreign (p : π) : Evaluates call x (.foreign p) [p] (call p x)
  | nil {c : Connective} {stop : Bool} (hc : c.stop? = some stop) :
      Evaluates call x (.logical c []) [] (.ok !stop)
  | next {c : Connective} {stop : Bool} (hc : c.stop? = some stop) {v : Validator π}
      {vs : List (Validator π)} {ps qs : List π} {r : Outcome Bool}
      (h : Evaluates call x v ps (.ok !stop)) (rest : Evaluates call x (.logical c vs) qs r) :
      Evaluates call x (.logical c (v :: vs)) (ps ++ qs) r
  | decided {c : Connective} {stop : Bool} (hc : c.stop? = some stop) {v : Validator π}
      (vs : List (Validator π)) {ps : List π} (h : Evaluates call x v ps (.ok stop)) :
      Evaluates call x (.logical c (v :: vs)) ps (.ok stop)
  | raised {c : Connective} {stop : Bool} (hc : c.stop? = some stop) {v : Validator π}
      (vs : List (Validator π)) {ps : List π} {f : Fault} (h : Evaluates call x v ps (.error f)) :
      Evaluates call x (.logical c (v :: vs)) ps (.error f)
  | not_first {v : Validator π} (vs : List (Validator π)) {ps : List π} {r : Outcome Bool}
      (h : Evaluates call x v ps r) :
      Evaluates call x (.logical .negation (v :: vs)) ps (r.map (! ·))
  | not_none : Evaluates call x (.logical .negation []) [] (.error .indexOutside)

/-- A call of a foreign predicate that is noted in a list. -/
def noted (call : π → Bytes → Outcome Bool) (p : π) (x : Bytes) :
    ExceptT Fault (StateM (List π)) Bool :=
  ExceptT.mk fun ps => (call p x, ps ++ [p])

/-- What a computation comes to, and the predicates that have been called, those of `ps`
before. -/
def trace (a : ExceptT Fault (StateM (List π)) Bool) (ps : List π) : Outcome Bool × List π :=
  a.run.run ps

theorem trace_bind (a : ExceptT Fault (StateM (List π)) Bool)
    (k : Bool → ExceptT Fault (StateM (List π)) Bool) (ps : List π) :
    trace (a >>= k) ps =
      match trace a ps with
      | (.ok b, qs) => trace (k b) qs
      | (.error f, qs) => (.error f, qs) := by
  simp only [trace, ExceptT.run_bind, StateT.run_bind]
  rcases h : StateT.run (ExceptT.run a) ps with ⟨r, qs⟩
  cases r with
  | ok b => rfl
  | error f => rfl

section Calls

variable (call : π → Bytes → Outcome Bool) (x : Bytes)

theorem exists_evaluates_logical {c : Connective} {stop : Bool} (hc : c.stop? = some stop)
    (vs : List (Validator π)) (h : ∀ v ∈ vs, ∃ ps r, Evaluates call x v ps r) :
    ∃ ps r, Evaluates call x (logical c vs) ps r := by
  induction vs with
  | nil => exact ⟨_, _, .nil hc⟩
  | cons v vs ih =>
    obtain ⟨ps, r, hv⟩ := h v List.mem_cons_self
    obtain ⟨qs, r', hvs⟩ := ih fun w hw => h w (List.mem_cons_of_mem v hw)
    rcases r with f | b
    · exact ⟨_, _, .raised hc vs hv⟩
    · by_cases hb : b = stop
      · exact ⟨_, _, .decided hc vs (hb ▸ hv)⟩
      · rw [Bool.eq_not.mpr hb] at hv
        exact ⟨_, _, .next hc hv hvs⟩

theorem exists_evaluates (v : Validator π) : ∃ ps r, Evaluates call x v ps r := by
  match v with
  | .length test n => exact ⟨_, _, .length test n⟩
  | .content test byte => exact ⟨_, _, .content test byte⟩
  | .foreign p => exact ⟨_, _, .foreign p⟩
  | .logical .all vs =>
    exact exists_evaluates_logical call x (c := .all) rfl vs fun w _ => exists_evaluates w
  | .logical .any vs =>
    exact exists_evaluates_logical call x (c := .any) rfl vs fun w _ => exists_evaluates w
  | .logical .negation [] => exact ⟨_, _, .not_none⟩
  | .logical .negation (w :: vs) =>
    obtain ⟨ps, r, h⟩ := exists_evaluates w
    exact ⟨_, _, .not_first vs h⟩

variable {call x} {v : Validator π} {ps : List π} {r : Outcome Bool}

/-- The relation tells the outcome of a tree, -/
theorem Evaluates.evaluate_eq (h : Evaluates call x v ps r) : v.evaluate call x = r := by
  induction h with
  | length test n => rfl
  | content test byte => rfl
  | foreign p => rfl
  | nil hc =>
    rw [evaluate_logical call x hc]
    rfl
  | @next c stop hc _ _ _ _ _ _ _ ih ih' =>
    rw [evaluate_logical call x hc, evaluateUntil, ih, ← ih', evaluate_logical call x hc]
    cases stop <;> rfl
  | @decided c stop hc _ _ _ _ ih =>
    rw [evaluate_logical call x hc, evaluateUntil, ih]
    cases stop <;> rfl
  | raised hc vs _ ih =>
    rw [evaluate_logical call x hc, evaluateUntil, ih]
    rfl
  | @not_first _ _ _ r _ ih =>
    rw [evaluate, ih]
    cases r <;> rfl
  | not_none => rfl

/-- and the predicates that it calls. -/
theorem Evaluates.trace_eq (h : Evaluates call x v ps r) (qs : List π) :
    trace (v.evaluate (noted call) x) qs = (r, qs ++ ps) := by
  induction h generalizing qs with
  | length test n =>
    rw [List.append_nil]
    rfl
  | content test byte =>
    rw [List.append_nil]
    rfl
  | foreign p => rfl
  | nil hc =>
    rw [evaluate_logical _ x hc, List.append_nil]
    rfl
  | @next c stop hc _ _ _ _ _ _ _ ih ih' =>
    rw [evaluate_logical _ x hc, evaluateUntil, trace_bind, ih, ← List.append_assoc, ← ih',
      evaluate_logical _ x hc]
    cases stop <;> rfl
  | @decided c stop hc _ _ _ _ ih =>
    rw [evaluate_logical _ x hc, evaluateUntil, trace_bind, ih]
    cases stop <;> rfl
  | raised hc vs _ ih => rw [evaluate_logical _ x hc, evaluateUntil, trace_bind, ih]
  | @not_first _ _ _ r _ ih =>
    rw [evaluate, trace_bind, ih]
    cases r <;> rfl
  | not_none =>
    rw [List.append_nil]
    rfl

theorem evaluates_iff :
    Evaluates call x v ps r ↔ trace (v.evaluate (noted call) x) [] = (r, ps) := by
  constructor
  · intro h
    rw [h.trace_eq, List.nil_append]
  · intro h
    obtain ⟨qs, r', h'⟩ := exists_evaluates call x v
    rw [h'.trace_eq, List.nil_append] at h
    cases h
    exact h'

theorem evaluates_iff_of_rewritten {w : Validator π} (h : Relation.EqvGen Rewrites v w) :
    Evaluates call x v ps r ↔ Evaluates call x w ps r := by
  rw [evaluates_iff, evaluates_iff, evaluate_eq_of_rewritten h]

end Calls

/-! ## Faults -/

/-- Every negation has exactly one member. -/
inductive Proper : Validator π → Prop
  | length (test : LengthTest) (n : Int) : Proper (.length test n)
  | content (test : ContentTest) (byte : Int) : Proper (.content test byte)
  | foreign (p : π) : Proper (.foreign p)
  | joined {c : Connective} {stop : Bool} (hc : c.stop? = some stop) {vs : List (Validator π)}
      (h : ∀ v ∈ vs, Proper v) : Proper (.logical c vs)
  | notOf {v : Validator π} (h : Proper v) : Proper (notOf v)

/-- Where there is an outcome, every predicate that was called has answered. A fault is that
of the last one, the others having answered. -/
def Settled (call : π → Bytes → Outcome Bool) (x : Bytes) (ps : List π) : Outcome Bool → Prop
  | .ok _ => ∀ p ∈ ps, ∃ b, call p x = .ok b
  | .error f => ∃ qs p, ps = qs ++ [p] ∧ call p x = .error f ∧ ∀ q ∈ qs, ∃ b, call q x = .ok b

section Faults

variable {call : π → Bytes → Outcome Bool} {x : Bytes} {ps qs : List π} {r : Outcome Bool}

theorem Proper.of_mem {c : Connective} {vs : List (Validator π)} (h : Proper (logical c vs)) :
    ∀ v ∈ vs, Proper v := by
  cases h with
  | joined _ h => exact h
  | notOf h =>
    intro v hv
    rwa [List.mem_singleton.mp hv]

theorem settled_foreign (p : π) : Settled call x [p] (call p x) := by
  cases h : call p x with
  | ok b =>
    intro q hq
    rw [List.mem_singleton.mp hq]
    exact ⟨b, h⟩
  | error f => exact ⟨[], p, rfl, h, nofun⟩

theorem Settled.append {b : Bool} (h : Settled call x ps (.ok b)) (h' : Settled call x qs r) :
    Settled call x (ps ++ qs) r := by
  have hboth {us : List π} (hus : ∀ p ∈ us, ∃ b, call p x = .ok b) :
      ∀ p ∈ ps ++ us, ∃ b, call p x = .ok b := by
    intro p hp
    rcases List.mem_append.mp hp with hp | hp
    · exact h p hp
    · exact hus p hp
  cases r with
  | ok b => exact hboth h'
  | error f =>
    obtain ⟨us, p, rfl, hp, hus⟩ := h'
    exact ⟨ps ++ us, p, (List.append_assoc ..).symm, hp, hboth hus⟩

theorem Evaluates.settled {v : Validator π} (h : Evaluates call x v ps r) (hv : Proper v) :
    Settled call x ps r := by
  induction h with
  | length test n => exact fun _ => nofun
  | content test byte => exact fun _ => nofun
  | foreign p => exact settled_foreign p
  | nil hc => exact fun _ => nofun
  | next hc _ _ ih ih' =>
    have hmembers := List.forall_mem_cons.mp hv.of_mem
    exact (ih hmembers.1).append (ih' (.joined hc hmembers.2))
  | decided hc vs _ ih => exact ih (hv.of_mem _ List.mem_cons_self)
  | raised hc vs _ ih => exact ih (hv.of_mem _ List.mem_cons_self)
  | @not_first _ _ _ r _ ih =>
    have hfirst := ih (hv.of_mem _ List.mem_cons_self)
    cases r with
    | ok b => exact hfirst
    | error f => exact hfirst
  | not_none =>
    cases hv with
    | joined hc h => cases hc

end Faults

/-! ## Leaves -/

theorem eq_ofInt_iff {b : UInt8} {r : Int} : b = Bytes.ofInt r ↔ (b.toNat : Int) = r % 256 := by
  rw [← Bytes.toNat_ofInt, Int.natCast_inj, UInt8.toNat_inj]

theorem onlyOf_iff {r : Int} {x : Bytes} :
    contentHolds .onlyOf r x = true ↔ ∀ b ∈ x, (b.toNat : Int) = r % 256 := by
  simp [contentHolds, eq_ofInt_iff]

theorem noneOf_iff {r : Int} {x : Bytes} :
    contentHolds .noneOf r x = true ↔ ∀ b ∈ x, (b.toNat : Int) ≠ r % 256 := by
  simp [contentHolds, eq_ofInt_iff]

theorem notOnlyOf_eq (r : Int) (x : Bytes) :
    contentHolds .notOnlyOf r x = !contentHolds .onlyOf r x := by
  simp [contentHolds, List.not_all_eq_any_not, bne]

theorem onlyOf_and_noneOf_iff {r : Int} {x : Bytes} :
    contentHolds .onlyOf r x = true ∧ contentHolds .noneOf r x = true ↔ x = [] := by
  rw [onlyOf_iff, noneOf_iff]
  constructor
  · rintro ⟨honly, hnone⟩
    exact List.eq_nil_iff_forall_not_mem.mpr fun b hb => hnone b hb (honly b hb)
  · rintro rfl
    exact ⟨nofun, nofun⟩

/-! ## All laws -/

/-- The laws of validator trees over foreign predicates from `π`. -/
structure Lawful (π : Type) : Prop where
  /-- A tree that has been rewritten is the same computation, whatever a call may do. -/
  rewritten : ∀ {v w : Validator π}, Relation.EqvGen Rewrites v w →
    ∀ {m : Type → Type} [Monad m] [LawfulMonad m] [MonadExcept Fault m]
      (call : π → Bytes → m Bool) (x : Bytes), v.evaluate call x = w.evaluate call x
  /-- It calls the same predicates in the same order and comes to the same outcome. -/
  called : ∀ {v w : Validator π}, Relation.EqvGen Rewrites v w →
    ∀ (call : π → Bytes → Outcome Bool) (x : Bytes) (ps : List π) (r : Outcome Bool),
      Evaluates call x v ps r ↔ Evaluates call x w ps r
  /-- Every tree evaluates in one way. -/
  evaluated : ∀ (call : π → Bytes → Outcome Bool) (x : Bytes) (v : Validator π),
    ∃ ps, ∀ qs r, Evaluates call x v qs r ↔ qs = ps ∧ r = v.evaluate call x
  /-- No fault comes from anywhere but the last predicate called. -/
  faulted : ∀ {call : π → Bytes → Outcome Bool} {x : Bytes} {v : Validator π} {ps : List π}
    {r : Outcome Bool}, Proper v → Evaluates call x v ps r → Settled call x ps r
  /-- A sequence is valid if its content passes all validators. -/
  validated : ∀ {σ : Store} {s : SequenceId} {q : Sequence} {x : Bytes}, σ.Holds s q x →
    ∀ (vs : List (Validator Predicate)) (ps : List Predicate) (r : Outcome Bool),
      Evaluates (fun p => p) x (allOf vs) ps r → σ.query s (.validate vs) = r.map .bool
  notOnly : ∀ {m : Type → Type} [Monad m] [LawfulMonad m] [MonadExcept Fault m]
    (call : π → Bytes → m Bool) (x : Bytes) (r : Int),
      (notOnlyOf r).evaluate call x = (notOf (onlyOf r)).evaluate call x
  only : ∀ (call : π → Bytes → Outcome Bool) (x : Bytes) (r : Int),
    (onlyOf r).evaluate call x = .ok true ↔ ∀ b ∈ x, (b.toNat : Int) = r % 256
  none : ∀ (call : π → Bytes → Outcome Bool) (x : Bytes) (r : Int),
    (noneOf r).evaluate call x = .ok true ↔ ∀ b ∈ x, (b.toNat : Int) ≠ r % 256
  empty : ∀ (call : π → Bytes → Outcome Bool) (x : Bytes) (r : Int),
    (onlyOf r).evaluate call x = .ok true ∧ (noneOf r).evaluate call x = .ok true ↔ x = []

theorem lawful (π : Type) : Lawful π where
  rewritten := fun h => evaluate_eq_of_rewritten h
  called := fun h _ _ _ _ => evaluates_iff_of_rewritten h
  evaluated := by
    intro call x v
    obtain ⟨ps, r, h⟩ := exists_evaluates call x v
    refine ⟨ps, fun qs r' => ?_⟩
    constructor
    · intro h'
      have hsame := evaluates_iff.mp h'
      rw [evaluates_iff.mp h] at hsame
      cases hsame
      exact ⟨rfl, h.evaluate_eq.symm⟩
    · rintro ⟨rfl, rfl⟩
      rwa [h.evaluate_eq]
  faulted := fun hv h => h.settled hv
  validated := by
    intro σ s q x hs vs ps r h
    rw [hs.query, Query.answer, Validator.holds, h.evaluate_eq]
  notOnly := by
    intro m _ _ _ call x r
    rw [evaluate_notOf, notOnlyOf, onlyOf, evaluate, evaluate, map_pure, notOnlyOf_eq]
  only := by
    intro call x r
    rw [← onlyOf_iff]
    exact .of_eq (Except.ok.injEq ..)
  none := by
    intro call x r
    rw [← noneOf_iff]
    exact .of_eq (Except.ok.injEq ..)
  empty := by
    intro call x r
    rw [← onlyOf_and_noneOf_iff (r := r)]
    exact and_congr (.of_eq (Except.ok.injEq ..)) (.of_eq (Except.ok.injEq ..))

/-- The second member decides, and predicate 1, which would fault, is not called. -/
example : trace ((notOf (allOf [foreign 0, atLeast 2, foreign 1])).evaluate
    (noted fun p _ => if p = 0 then .ok true else .error .interrupted) [7]) [] =
    (.ok true, [0]) := rfl

end Validator
end Octets
