import Octets.Proofs.Deflate.Stored
import Octets.Transform
/-!
# In place and on a copy

There are two kinds of transformers in the library: those that can work in place, all of which
but a shuffle write at once or not at all, and those that always answer with a new array
(`apply_cases`). Any of them

* answers with the same content, or the same refusal, whether it works in place or on
  a copy: `content_apply`;
* leaves the array as it is on a copy: `current_apply_false`;
* keeps the length where it can work in place: `length_of_supportsInPlace`.

All but a shuffle leave the array as it is wherever they refuse (`current_of_refused`). A
shuffle that is refused a draw leaves it with the bytes in another order, if it works in place
(`current_shuffle`).

What a transformer says of itself is what it does: it answers with the array that it was
given to write exactly if it can work in place (`supportsInPlace_iff`), and never with one
that it was not given to write (`reply_apply_false`).
-/

namespace Octets

/-- A transformer that does not write the array it is given unless it is asked to. -/
def Transformer.Honest (t : Transformer) : Prop :=
  ∀ x, (t.apply false x).current = x

namespace Arrange

theorem Shuffled.content_of_outcome {s : Shuffled} {y : Bytes} (h : s.outcome = .ok y) :
    s.content = y := by
  obtain ⟨z, refusal⟩ := s
  cases refusal with
  | none => exact Except.ok.inj h
  | some f => cases h

theorem Shuffled.refusal_of_outcome {s : Shuffled} {f : Fault} (h : s.outcome = .error f) :
    s.refusal = some f := by
  obtain ⟨z, refusal⟩ := s
  cases refusal with
  | none => cases h
  | some e => exact congrArg some (Except.error.inj h)

/-- Swaps neither add bytes nor take any away. -/
theorem applySwaps_perm (pairs : List (Nat × Nat)) (x : Bytes) : (applySwaps pairs x).Perm x := by
  have hswap (a : Array UInt8) (i j : Nat) : (a.swapIfInBounds i j).Perm a := by
    rw [Array.swapIfInBounds]
    split
    · split
      · exact Array.swap_perm _ _
      · exact .refl a
    · exact .refl a
  have hall (a : Array UInt8) :
      (pairs.foldl (fun a p => a.swapIfInBounds p.1 p.2) a).Perm a := by
    induction pairs generalizing a with
    | nil => exact .refl a
    | cons p pairs ih => exact (ih _).trans (hswap a p.1 p.2)
  exact (hall x.toArray).toList

theorem shuffle_perm (g : Generator) (x : Bytes) : (shuffle g x).content.Perm x :=
  applySwaps_perm _ x

end Arrange

theorem Effect.reply_of_content {e : Effect} {f : Fault} (h : e.content = .error f) :
    e.reply = .error f := by
  obtain ⟨x, reply⟩ := e
  cases reply with
  | ok r => cases h
  | error g => exact congrArg Except.error (Except.error.inj h)

namespace Transform

/-- What is written is written at once, or not at all. -/
def settled (x : Bytes) : Outcome Bytes → Arrange.Shuffled
  | .ok y => ⟨y, none⟩
  | .error f => ⟨x, some f⟩

theorem outcome_settled (x : Bytes) (y : Outcome Bytes) : (settled x y).outcome = y := by
  cases y with
  | ok y => rfl
  | error f => rfl

theorem writtenIf_eq (inPlace : Bool) (x : Bytes) (y : Outcome Bytes) :
    writtenIf inPlace x y = writtenUpTo inPlace x (settled x y) := by
  cases y with
  | ok y => rfl
  | error f =>
    cases inPlace with
    | true => rfl
    | false => rfl

/-- What can work in place writes what it comes to, and settles that before it writes unless it
draws; what cannot makes a new array. -/
theorem apply_cases (t : Transform) :
    (t.supportsInPlace = true ∧ ∃ s : Bytes → Arrange.Shuffled,
      (∀ inPlace x, t.apply inPlace x = writtenUpTo inPlace x (s x)) ∧
      (t.generator? = none → ∀ x, ∃ y, s x = settled x y)) ∨
    (t.supportsInPlace = false ∧
      ∃ y : Bytes → Outcome Bytes, ∀ inPlace x, t.apply inPlace x = made x (y x)) := by
  have hsettled {t : Transform} (hp : t.supportsInPlace = true) (y : Bytes → Outcome Bytes)
      (h : ∀ inPlace x, t.apply inPlace x = writtenIf inPlace x (y x)) :
      t.supportsInPlace = true ∧ ∃ s : Bytes → Arrange.Shuffled,
        (∀ inPlace x, t.apply inPlace x = writtenUpTo inPlace x (s x)) ∧
        (t.generator? = none → ∀ x, ∃ y, s x = settled x y) :=
    ⟨hp, fun x => settled x (y x), fun inPlace x => (h inPlace x).trans (writtenIf_eq ..),
      fun _ x => ⟨y x, rfl⟩⟩
  cases t with
  | shuffle g => exact .inl ⟨rfl, Arrange.shuffle g, fun _ _ => rfl, nofun⟩
  | bitwise op operand =>
    exact .inl (hsettled rfl (fun x => Bits.combine op x operand) fun _ _ => rfl)
  | negate => exact .inl (hsettled rfl (fun x => .ok (Bits.negate x)) fun _ _ => rfl)
  | shift d count o =>
    exact .inl (hsettled rfl (fun x => .ok (Bits.shift d count o x)) fun _ _ => rfl)
  | switchBit position value o =>
    exact .inl (hsettled rfl (Bits.switchBit o position value) fun _ _ => rfl)
  | reverse => exact .inl (hsettled rfl (fun x => .ok x.reverse) fun _ _ => rfl)
  | sort key descending =>
    cases key with
    | none => exact .inl (hsettled rfl (fun x => .ok (Arrange.sort descending x)) fun _ _ => rfl)
    | some key => exact .inr ⟨rfl, Arrange.sortKeyed key descending, fun _ _ => rfl⟩
  | copy offset length => exact .inr ⟨rfl, Layout.copy offset length, fun _ _ => rfl⟩
  | resize anchor length =>
    exact .inr ⟨rfl, fun x => .ok (Layout.resize anchor length x), fun _ _ => rfl⟩
  | concat suffix => exact .inr ⟨rfl, fun x => .ok (x ++ suffix), fun _ _ => rfl⟩
  | digest d => exact .inr ⟨rfl, fun x => .ok (d.hash x), fun _ _ => rfl⟩
  | hmac d key => exact .inr ⟨rfl, fun x => .ok (d.hmac key x), fun _ _ => rfl⟩
  | checksum rule append =>
    exact .inr ⟨rfl, fun x => .ok (if append then x ++ rule.apply x else rule.apply x),
      fun _ _ => rfl⟩
  | compress p => exact .inr ⟨rfl, fun x => .ok (p.pack x), fun _ _ => rfl⟩
  | decompress c => exact .inr ⟨rfl, c.unpack, fun _ _ => rfl⟩

theorem content_writtenUpTo (inPlace : Bool) (x : Bytes) (s : Arrange.Shuffled) :
    (writtenUpTo inPlace x s).content = s.outcome := by
  obtain ⟨y, refusal⟩ := s
  cases refusal with
  | some f => rfl
  | none =>
    cases inPlace with
    | true => rfl
    | false => rfl

theorem content_writtenIf (inPlace : Bool) (x : Bytes) (y : Outcome Bytes) :
    (writtenIf inPlace x y).content = y := by
  rw [writtenIf_eq, content_writtenUpTo, outcome_settled]

theorem current_writtenUpTo (inPlace : Bool) (x : Bytes) (s : Arrange.Shuffled) :
    (writtenUpTo inPlace x s).current = if inPlace then s.content else x := by
  obtain ⟨y, refusal⟩ := s
  cases refusal with
  | some f => rfl
  | none =>
    cases inPlace with
    | true => rfl
    | false => rfl

/-- What is settled to be refused is not written. -/
theorem current_writtenUpTo_of_refused {inPlace : Bool} {x : Bytes} {y : Outcome Bytes}
    {f : Fault} (h : (writtenUpTo inPlace x (settled x y)).reply = .error f) :
    (writtenUpTo inPlace x (settled x y)).current = x := by
  rw [current_writtenUpTo]
  cases y with
  | error f => exact ite_self x
  | ok y =>
    cases inPlace with
    | true => cases h
    | false => cases h

/-- What a shuffle leaves in the array it is given, also where it is refused a draw. -/
theorem current_shuffle (g : Generator) (inPlace : Bool) (x : Bytes) :
    ((shuffle g).apply inPlace x).current = if inPlace then (Arrange.shuffle g x).content else x :=
  current_writtenUpTo inPlace x (Arrange.shuffle g x)

theorem eq_shuffle_of_generator? {t : Transform} {g : Generator} (h : t.generator? = some g) :
    t = shuffle g := by
  cases t with
  | shuffle g' => rw [Option.some.inj h]
  | _ => cases h

/-- The content answered with does not depend on where the transformer works. -/
theorem content_apply (t : Transform) (inPlace : Bool) (x : Bytes) :
    (t.apply inPlace x).content = (t.apply false x).content := by
  rcases t.apply_cases with ⟨_, s, hs, _⟩ | ⟨_, y, hy⟩
  · rw [hs, hs, content_writtenUpTo, content_writtenUpTo]
  · rw [hy, hy]

/-- A transformer does not write what it has not been given to write. -/
theorem current_apply_false (t : Transform) (x : Bytes) : (t.apply false x).current = x := by
  rcases t.apply_cases with ⟨_, s, hs, _⟩ | ⟨_, y, hy⟩
  · rw [hs]
    exact current_writtenUpTo false x (s x)
  · rw [hy]
    rfl

/-- What can be written in place is as long as what it replaces. -/
theorem length_of_supportsInPlace {t : Transform} (h : t.supportsInPlace = true)
    {x y : Bytes} (hy : (t.apply false x).content = .ok y) : y.length = x.length := by
  have hwritten {z : Bytes} (hz : z.length = x.length)
      (hy : (written false x z).content = .ok y) : y.length = x.length := by
    cases hy
    exact hz
  cases t with
  | bitwise op operand =>
    have hy : (writtenIf false x (Bits.combine op x operand)).content = .ok y := hy
    rw [content_writtenIf] at hy
    exact Bits.length_combine hy
  | negate => exact hwritten (Bits.length_negate x) hy
  | shift d count o => exact hwritten (Bits.length_shift d count o x) hy
  | switchBit position value o =>
    have hy : (writtenIf false x (Bits.switchBit o position value x)).content = .ok y := hy
    rw [content_writtenIf] at hy
    exact Bits.length_switchBit hy
  | reverse => exact hwritten List.length_reverse hy
  | shuffle g =>
    have hy : (writtenUpTo false x (Arrange.shuffle g x)).content = .ok y := hy
    rw [content_writtenUpTo] at hy
    rw [← Arrange.length_shuffle g x, Arrange.Shuffled.content_of_outcome hy]
  | sort key descending =>
    cases key with
    | none => exact hwritten (Arrange.length_sort descending x) hy
    | some key => cases h
  | _ => cases h

theorem honest (t : Transform) : t.toTransformer.Honest :=
  current_apply_false t

/-! ## Which array is answered with -/

theorem reply_writtenUpTo_true {x : Bytes} {s : Arrange.Shuffled} {r : Reply}
    (h : (writtenUpTo true x s).reply = .ok r) : r = .given := by
  obtain ⟨y, refusal⟩ := s
  cases refusal with
  | none => exact (Except.ok.inj h).symm
  | some f => cases h

theorem reply_writtenUpTo_false (x : Bytes) (s : Arrange.Shuffled) :
    (writtenUpTo false x s).reply ≠ .ok .given := by
  obtain ⟨y, refusal⟩ := s
  cases refusal with
  | none => exact nofun
  | some f => exact nofun

theorem reply_made (x : Bytes) (y : Outcome Bytes) : (made x y).reply ≠ .ok .given := by
  cases y with
  | ok y => exact nofun
  | error f => exact nofun

/-- On a copy, the answer is another array. -/
theorem reply_apply_false (t : Transform) (x : Bytes) : (t.apply false x).reply ≠ .ok .given := by
  rcases t.apply_cases with ⟨_, s, hs, _⟩ | ⟨_, y, hy⟩
  · rw [hs]
    exact reply_writtenUpTo_false x (s x)
  · rw [hy]
    exact reply_made x (y x)

/-- Only what works in place answers with the array that it was given. -/
theorem supportsInPlace_of_given {t : Transform} {inPlace : Bool} {x : Bytes}
    (h : (t.apply inPlace x).reply = .ok .given) : t.supportsInPlace = true := by
  rcases t.apply_cases with ⟨hp, _⟩ | ⟨_, y, hy⟩
  · exact hp
  · rw [hy] at h
    exact absurd h (reply_made x (y x))

theorem given_of_supportsInPlace {t : Transform} (h : t.supportsInPlace = true) {x : Bytes}
    {r : Reply} (hr : (t.apply true x).reply = .ok r) : r = .given := by
  rcases t.apply_cases with ⟨_, s, hs, _⟩ | ⟨hp, _⟩
  · rw [hs] at hr
    exact reply_writtenUpTo_true hr
  · rw [hp] at h
    cases h

/-- Where the answer is another array, the one that was given has not been written. -/
theorem current_of_fresh {t : Transform} {inPlace : Bool} {x y : Bytes}
    (h : (t.apply inPlace x).reply = .ok (.fresh y)) : (t.apply inPlace x).current = x := by
  cases inPlace with
  | false => exact current_apply_false t x
  | true =>
    rcases t.apply_cases with ⟨hp, _⟩ | ⟨_, y, hy⟩
    · cases given_of_supportsInPlace hp h
    · rw [hy]
      rfl

/-- Any transformer that cannot work in place accepts some array. -/
theorem exists_reply {t : Transform} (h : t.supportsInPlace = false) :
    ∃ x r, (t.apply true x).reply = .ok r := by
  cases t with
  | sort key descending =>
    cases key with
    | none => cases h
    | some key => exact ⟨[], _, rfl⟩
  | copy offset length =>
    have hlength : ¬ (Bytes.zeros (offset + length)).length < offset + length := by
      simp [Bytes.zeros]
    have hcopy : Layout.copy offset length (Bytes.zeros (offset + length)) = .ok _ :=
      if_neg hlength
    exact ⟨_, _, congrArg (Except.map Reply.fresh) hcopy⟩
  | decompress c =>
    exact ⟨_, _, congrArg (Except.map Reply.fresh) (c.storing.unpack_pack [])⟩
  | resize | concat | digest | hmac | checksum | compress => exact ⟨[], _, rfl⟩
  | _ => cases h

/-- A transformer says that it can work in place exactly if it answers with the array that
it is given to write, whatever array it accepts. -/
theorem supportsInPlace_iff (t : Transform) : t.supportsInPlace = true ↔
    ∀ x r, (t.apply true x).reply = .ok r → r = .given := by
  constructor
  · exact fun h x r hr => given_of_supportsInPlace h hr
  · intro h
    cases hp : t.supportsInPlace with
    | true => rfl
    | false =>
      obtain ⟨x, r, hr⟩ := exists_reply hp
      cases h x r hr
      exact hp.symm.trans (supportsInPlace_of_given hr)

/-- A transformer that refuses has written nothing, unless it draws as it writes. -/
theorem current_of_refused {t : Transform} (hdraws : t.generator? = none) {inPlace : Bool}
    {x : Bytes} {f : Fault} (h : (t.apply inPlace x).reply = .error f) :
    (t.apply inPlace x).current = x := by
  rcases t.apply_cases with ⟨_, s, hs, hsettled⟩ | ⟨_, z, hz⟩
  · obtain ⟨y, hy⟩ := hsettled hdraws x
    rw [hs, hy] at h ⊢
    exact current_writtenUpTo_of_refused h
  · rw [hz]
    rfl

/-- Content that has been compressed is what comes out of the container. -/
theorem decompress_compress {c : Deflate.Container} (p : c.Packer) (inPlace : Bool) (x : Bytes) :
    (((compress p).apply inPlace x).content >>= fun y =>
      ((decompress c).apply inPlace y).content) = .ok x := by
  have hpacked : ((compress p).apply inPlace x).content = .ok (p.pack x) := rfl
  rw [hpacked]
  show (made (p.pack x) (c.unpack (p.pack x))).content = .ok x
  rw [p.unpack_pack]
  rfl

end Transform
end Octets
