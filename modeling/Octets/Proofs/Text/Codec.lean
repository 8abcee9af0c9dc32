import Octets.Proofs.Outcome
import Octets.Proofs.Text.Step
import Octets.Text.Encoded
/-!
# Text codecs are strict

A text that is followed by other bytes is read as the text and then what they are read as
(`TextCodec.Spells.decodeFrom_append`), and any bytes are a written text, or one followed by
bytes that no code point starts (`TextCodec.text_or_fault`). So reading inverts writing, and
what is refused is refused at the first fault, whichever codec is named and however
(`TextCodec.strict_of_lookup`).
-/

namespace Octets

namespace TextCodec

/-- The bytes that a text is written as, code point by code point. -/
inductive Spells (codec : TextCodec) : Text → Bytes → Prop
  | nil : Spells codec [] []
  | cons {c : CodePoint} {t : Text} {x y : Bytes} : codec.point? c = some x → Spells codec t y →
      Spells codec (c :: t) (x ++ y)

variable {codec : TextCodec} {t : Text} {x : Bytes}

theorem Spells.encodeFrom (h : codec.Spells t x) (i : Nat) : codec.encodeFrom i t = .ok x := by
  induction h generalizing i with
  | nil => rfl
  | cons hpoint _ ih => simp [TextCodec.encodeFrom, hpoint, ih, Except.map]

theorem spells_of_encodeFrom {i : Nat} (h : codec.encodeFrom i t = .ok x) :
    codec.Spells t x := by
  induction t generalizing i x with
  | nil =>
    cases h
    exact .nil
  | cons c t ih =>
    rw [encodeFrom] at h
    split at h
    · cases h
    · next y hpoint =>
      obtain ⟨z, hz, rfl⟩ := map_eq_ok.mp h
      exact .cons hpoint (ih hz)

/-- Writing is refused at the first code point that the codec does not have. -/
theorem encodeFrom_of_refused {i : Nat} {f : Fault} (h : codec.encodeFrom i t = .error f) :
    ∃ p c, f = .unencodable codec.name codec.gapReason (i + p) ∧ t[p]? = some c ∧
      ¬ codec.Represents c ∧ ∀ d ∈ t.take p, codec.Represents d := by
  induction t generalizing i with
  | nil => cases h
  | cons c t ih =>
    rw [encodeFrom] at h
    cases hpoint : codec.point? c with
    | none =>
      rw [hpoint] at h
      cases h
      refine ⟨0, c, rfl, rfl, ?_, by simp⟩
      rw [← exists_point?_iff, hpoint]
      nofun
    | some y =>
      rw [hpoint] at h
      cases hrest : codec.encodeFrom (i + 1) t with
      | ok z =>
        rw [hrest] at h
        cases h
      | error g =>
        rw [hrest] at h
        cases h
        obtain ⟨p, d, rfl, hd, hforeign, hbefore⟩ := ih hrest
        refine ⟨p + 1, d, ?_, hd, hforeign, ?_⟩
        · congr 1
          omega
        · simpa using ⟨exists_point?_iff.mp ⟨y, hpoint⟩, by simpa using hbefore⟩

theorem Spells.represents (h : codec.Spells t x) : ∀ c ∈ t, codec.Represents c := by
  induction h with
  | nil => simp
  | cons hpoint _ ih => simpa using ⟨exists_point?_iff.mp ⟨_, hpoint⟩, ih⟩

/-- What is written for a text is read as this text, whatever follows. -/
theorem Spells.decodeFrom_append (h : codec.Spells t x) (i : Nat) (y : Bytes) :
    codec.decodeFrom i (x ++ y) = (codec.decodeFrom (i + x.length) y).map (t ++ ·) := by
  induction h generalizing i with
  | nil =>
    simp only [List.nil_append, List.length_nil, Nat.add_zero]
    cases codec.decodeFrom i y with
    | error f => rfl
    | ok t => rfl
  | @cons c t w x hpoint _ ih =>
    cases w with
    | nil => exact absurd hpoint (point?_ne_nil codec c)
    | cons b w =>
      have hstep : codec.step b (w ++ (x ++ y)) = .ok (c.val, w.length) := by
        rw [step_eq_ok_iff]
        exact ⟨by simp, c, rfl, by simpa using hpoint⟩
      have hposition : i + w.length + 1 + x.length = i + (b :: (w ++ x)).length := by
        simp
        omega
      rw [List.cons_append, List.cons_append, List.append_assoc, TextCodec.decodeFrom, hstep]
      simp only
      rw [List.drop_left, ih, CodePoint.ofNat_val, ← hposition]
      cases codec.decodeFrom (i + w.length + 1 + x.length) y with
      | error f => rfl
      | ok t => rfl

/-- Any bytes are a written text, or one with bytes behind it that no code point starts. -/
theorem text_or_fault (codec : TextCodec) (x : Bytes) : (∃ t, codec.Spells t x) ∨
    ∃ t y b z reason, codec.Spells t y ∧ x = y ++ b :: z ∧ codec.step b z = .error reason := by
  induction 0, x using TextCodec.decodeFrom.induct codec with
  | case1 => exact Or.inl ⟨[], .nil⟩
  | case2 i b x reason hstep => exact Or.inr ⟨[], [], b, x, reason, .nil, rfl, hstep⟩
  | case3 i b x v n hstep ih =>
    obtain ⟨-, c, -, hpoint⟩ := (step_eq_ok_iff codec).mp hstep
    have hsplit : b :: x = b :: x.take n ++ x.drop n := by simp
    rcases ih with ⟨t, ht⟩ | ⟨t, y, b', z, reason, ht, hx, hfault⟩
    · refine Or.inl ⟨c :: t, ?_⟩
      rw [hsplit]
      exact .cons hpoint ht
    · refine Or.inr ⟨c :: t, b :: x.take n ++ y, b', z, reason, .cons hpoint ht, ?_, hfault⟩
      rw [List.append_assoc, ← hx, ← hsplit]

theorem decodeFrom_of_fault {b : UInt8} {z : Bytes} {reason : String}
    (h : codec.step b z = .error reason) (i : Nat) :
    codec.decodeFrom i (b :: z) = .error (.undecodable codec.name reason i) := by
  rw [decodeFrom, h]

theorem Spells.decode (h : codec.Spells t x) : codec.decode x = .ok t := by
  have hread := h.decodeFrom_append 0 []
  rw [List.append_nil, TextCodec.decodeFrom] at hread
  rw [TextCodec.decode, hread]
  simp [Except.map]

theorem spells_of_decode (h : codec.decode x = .ok t) : codec.Spells t x := by
  rcases text_or_fault codec x with ⟨t', ht'⟩ | ⟨t', y, b, z, reason, hy, rfl, hfault⟩
  · rw [ht'.decode] at h
    cases h
    exact ht'
  · rw [decode, hy.decodeFrom_append, decodeFrom_of_fault hfault] at h
    cases h

/-- Reading is refused behind the longest part from the front that can be read. -/
theorem decode_of_refused {f : Fault} (h : codec.decode x = .error f) :
    ∃ p reason, f = .undecodable codec.name reason p ∧ p < x.length ∧
      (∃ t, codec.decode (x.take p) = .ok t) ∧
      ∀ q, p < q → q ≤ x.length → ¬ ∃ t, codec.decode (x.take q) = .ok t := by
  rcases text_or_fault codec x with ⟨t, ht⟩ | ⟨t, y, b, z, reason, hy, rfl, hfault⟩
  · rw [ht.decode] at h
    cases h
  · rw [decode, hy.decodeFrom_append, decodeFrom_of_fault hfault, Nat.zero_add] at h
    cases h
    refine ⟨y.length, reason, rfl, by simp, ⟨t, ?_⟩, ?_⟩
    · rw [List.take_left]
      exact hy.decode
    · rintro q hq - ⟨t', ht'⟩
      obtain ⟨k, rfl⟩ := Nat.exists_eq_add_of_lt hq
      have htake : (y ++ b :: z).take (y.length + k + 1) = y ++ b :: z.take k := by
        rw [Nat.add_assoc, List.take_length_add_append, List.take_succ_cons]
      -- A code point that a part of the bytes starts with is one that all of them start with.
      cases hstep : codec.step b (z.take k) with
      | error reason' =>
        rw [htake, decode, hy.decodeFrom_append, decodeFrom_of_fault hstep] at ht'
        cases ht'
      | ok r =>
        have hfront := ((step_eq_ok_iff codec).mp hstep).append (z.drop k)
        rw [List.take_append_drop, ← step_eq_ok_iff, hfault] at hfront
        cases hfront

end TextCodec

/-- Writing and reading texts under a codec that is strict. -/
structure StrictCodec (codec : TextCodec) (write : Text → Outcome Bytes)
    (read : Bytes → Outcome Text) : Prop where
  read_write : ∀ t x, write t = .ok x → read x = .ok t
  write_read : ∀ x t, read x = .ok t → write t = .ok x
  /-- The texts that are written are those of code points that the codec has. -/
  writes : ∀ t, (∃ x, write t = .ok x) ↔ ∀ c ∈ t, codec.Represents c
  /-- Of a text that is refused, the first code point is named that the codec does not have. -/
  refuses_text : ∀ t f, write t = .error f → f.kind = .format ∧
    ∃ (p : Nat) (c : CodePoint), f.position = p ∧ t[p]? = some c ∧ ¬ codec.Represents c ∧
      ∀ d ∈ t.take p, codec.Represents d
  /-- Of bytes that are refused, as many can be read as there are before the index that is
  named, and no more. -/
  refuses_bytes : ∀ x f, read x = .error f → f.kind = .format ∧
    ∃ p < x.length, f.position = (p : Nat) ∧ (∃ t, read (x.take p) = .ok t) ∧
      ∀ q, p < q → q ≤ x.length → ¬ ∃ t, read (x.take q) = .ok t

namespace TextCodec

theorem strict (codec : TextCodec) : StrictCodec codec codec.encode codec.decode where
  read_write t x h := (spells_of_encodeFrom h).decode
  write_read x t h := (spells_of_decode h).encodeFrom 0
  writes t := by
    constructor
    · rintro ⟨x, hx⟩
      exact (spells_of_encodeFrom hx).represents
    · intro ht
      cases h : codec.encode t with
      | ok x => exact ⟨x, rfl⟩
      | error f =>
        obtain ⟨p, c, -, hc, hforeign, -⟩ := encodeFrom_of_refused h
        exact absurd (ht c (List.mem_of_getElem? hc)) hforeign
  refuses_text t f h := by
    obtain ⟨p, c, rfl, hc, hforeign, hbefore⟩ := encodeFrom_of_refused h
    exact ⟨rfl, p, c, by simp [Fault.position], hc, hforeign, hbefore⟩
  refuses_bytes x f h := by
    obtain ⟨p, reason, rfl, hp, hread, hlongest⟩ := decode_of_refused h
    exact ⟨rfl, p, hp, rfl, hread, hlongest⟩

/-- Under any name of a codec, texts are written and read strictly. -/
theorem strict_of_lookup {name : Text} {codec : TextCodec} (h : lookup name = .ok codec) :
    StrictCodec codec (Text.encoded · name none) (Text.ofEncoded · name) := by
  have hwrite : (Text.encoded · name none) = codec.encode := by
    funext t
    simp only [Text.encoded, h]
    rfl
  have hread : (Text.ofEncoded · name) = codec.decode := by
    funext x
    simp only [Text.ofEncoded, h]
    rfl
  rw [hwrite, hread]
  exact strict codec

theorem strict_of_lookup_utf16 : lookup (Text.ofString "UTF-16BE") = .ok (.utf16 .big) ∧
    StrictCodec (.utf16 .big) (Text.encoded · (Text.ofString "UTF-16BE") none)
      (Text.ofEncoded · (Text.ofString "UTF-16BE")) :=
  ⟨rfl, strict_of_lookup rfl⟩

end TextCodec
end Octets
