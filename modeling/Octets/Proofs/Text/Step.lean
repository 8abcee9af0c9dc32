import Octets.Proofs.Alphabet
import Octets.Text.Codec
/-!
# One code point at the front of some bytes

In every codec, reading at the front of some bytes inverts writing one code point: a step
succeeds exactly where the bytes start with what is written for a code point, and takes
these bytes and no others (`TextCodec.step_eq_ok_iff`). In UTF-8 it is the lead byte that
knows how many bytes follow, and its range for the first of them that leaves out long forms
and surrogates (`TextCodec.leadOf_iff`).
-/

namespace Octets

namespace TextCodec

/-- The code points that a codec has bytes for. -/
def Represents : TextCodec → CodePoint → Prop
  | ascii, c => c.val < 0x80
  | latin1, c => c.val < 0x100
  | _, c => c.isSurrogate = false

theorem exists_point?_iff {codec : TextCodec} {c : CodePoint} :
    (∃ x, codec.point? c = some x) ↔ codec.Represents c := by
  cases codec <;> simp [point?, Represents]

/-- What is read at the front of the byte `b` and the bytes `x`: the code point `v`, written
in `b` and the first `n` of them. -/
def Front (codec : TextCodec) (b : UInt8) (x : Bytes) (v n : Nat) : Prop :=
  n ≤ x.length ∧ ∃ c : CodePoint, c.val = v ∧ codec.point? c = some (b :: x.take n)

/-! ## One byte -/

theorem toNat_eq_iff {b : UInt8} {n : Nat} (hn : n < 256) : b.toNat = n ↔ UInt8.ofNat n = b := by
  rw [← UInt8.toNat_inj, UInt8.toNat_ofNat', Nat.mod_eq_of_lt hn]
  exact eq_comm

theorem front_singleton_iff {codec : TextCodec} {limit : Nat} (hlimit : limit ≤ 256)
    (hpoint : ∀ c, codec.point? c = if c.val < limit then some [UInt8.ofNat c.val] else none)
    {b : UInt8} {x : Bytes} {v n : Nat} :
    codec.Front b x v n ↔ b.toNat < limit ∧ v = b.toNat ∧ n = 0 := by
  unfold Front
  constructor
  · rintro ⟨hn, c, rfl, hc⟩
    rw [hpoint] at hc
    split at hc
    · next hlt =>
      simp only [Option.some.injEq, List.cons.injEq] at hc
      have hb : b.toNat = c.val := (toNat_eq_iff (by omega)).mpr hc.1
      have hlength := congrArg List.length hc.2
      rw [List.length_nil, List.length_take, Nat.min_eq_left hn] at hlength
      exact ⟨by omega, hb.symm, hlength.symm⟩
    · cases hc
  · rintro ⟨hb, rfl, rfl⟩
    refine ⟨Nat.zero_le _, ⟨b.toNat, by have := b.toNat_lt; omega⟩, rfl, ?_⟩
    rw [hpoint, if_pos hb]
    simp

theorem asciiStep_eq_ok_iff {b : UInt8} {x : Bytes} {v n : Nat} :
    asciiStep b x = .ok (v, n) ↔ ascii.Front b x v n := by
  rw [front_singleton_iff (show 0x80 ≤ 256 by decide) (fun c => rfl), asciiStep]
  split
  · next hb =>
    have hlt : b.toNat < 0x80 := UInt8.lt_iff_toNat_lt.mp hb
    simp [hlt, eq_comm]
  · next hb =>
    have hlt : ¬ b.toNat < 0x80 := fun h => hb (UInt8.lt_iff_toNat_lt.mpr h)
    simp [hlt]

theorem latin1Step_eq_ok_iff {b : UInt8} {x : Bytes} {v n : Nat} :
    latin1Step b x = .ok (v, n) ↔ latin1.Front b x v n := by
  rw [front_singleton_iff (Nat.le_refl 0x100) (fun c => rfl), latin1Step]
  have hlt : b.toNat < 0x100 := b.toNat_lt
  simp [hlt, eq_comm]

/-! ## UTF-8 -/

/-- The last `n` bytes of a code point in UTF-8: six bits each. -/
def utf8Tails : Nat → Nat → Bytes
  | 0, _ => []
  | n + 1, c => UInt8.ofNat (0x80 + c / 64 ^ n % 64) :: utf8Tails n c

theorem length_utf8Tails (n c : Nat) : (utf8Tails n c).length = n := by
  induction n with
  | zero => rfl
  | succ n ih => simp [utf8Tails, ih]

/-- The range of the first of `n` tail bytes holds what `c` has there. -/
def FirstTail (low high : UInt8) : Nat → Nat → Prop
  | 0, _ => True
  | n + 1, c => low.toNat ≤ 0x80 + c / 64 ^ n % 64 ∧ 0x80 + c / 64 ^ n % 64 ≤ high.toNat

theorem firstTail_all (n c : Nat) : FirstTail 0x80 0xBF n c := by
  cases n with
  | zero => trivial
  | succ n =>
    simp only [FirstTail, UInt8.reduceToNat]
    omega

theorem utf8Tail_eq_ok_iff {n v w : Nat} {low high : UInt8} {x : Bytes} (hlow : 0x80 ≤ low)
    (hhigh : high ≤ 0xBF) : utf8Tail n v low high x = .ok w ↔
      w / 64 ^ n = v ∧ FirstTail low high n w ∧ n ≤ x.length ∧ x.take n = utf8Tails n w := by
  induction n generalizing v low high x with
  | zero => simp [utf8Tail, FirstTail, utf8Tails, eq_comm]
  | succ n ih =>
    cases x with
    | nil => simp [utf8Tail]
    | cons b x =>
      have hlow : 0x80 ≤ low.toNat := UInt8.le_iff_toNat_le.mp hlow
      have hhigh : high.toNat ≤ 0xBF := UInt8.le_iff_toNat_le.mp hhigh
      have hbyte : UInt8.ofNat (0x80 + w / 64 ^ n % 64) = b ↔ b.toNat = 0x80 + w / 64 ^ n % 64 :=
        (toNat_eq_iff (by omega)).symm
      have hdiv : w / 64 ^ (n + 1) = w / 64 ^ n / 64 := by
        rw [Nat.pow_succ, Nat.div_div_eq_div_mul]
      rw [utf8Tail, utf8Tails, List.take_succ_cons, List.cons.injEq, eq_comm (a := b), hbyte,
        FirstTail, hdiv, List.length_cons, Nat.add_le_add_iff_right]
      generalize w / 64 ^ n = u at *
      by_cases hb : low ≤ b ∧ b ≤ high
      · have hb' : low.toNat ≤ b.toNat ∧ b.toNat ≤ high.toNat := hb
        rw [if_pos hb, ih (by decide) (by decide)]
        constructor
        · rintro ⟨hu, -, hn, hx⟩
          exact ⟨by omega, by omega, hn, by omega, hx⟩
        · rintro ⟨hu, -, hn, hbu, hx⟩
          exact ⟨by omega, firstTail_all n w, hn, hx⟩
      · have hb' : ¬ (low.toNat ≤ b.toNat ∧ b.toNat ≤ high.toNat) := hb
        rw [if_neg hb]
        constructor
        · nofun
        · rintro ⟨-, hrange, -, hbu, -⟩
          exact absurd (hbu ▸ hrange) hb'

/-- The lead bytes, by the number of tail bytes that they ask for. -/
theorem utf8Lead?_eq_some_iff {b : UInt8} {n v : Nat} {low high : UInt8} :
    utf8Lead? b = some (n, v, low, high) ↔
      (n = 0 ∧ b.toNat < 0x80 ∧ v = b.toNat ∧ low.toNat = 0x80 ∧ high.toNat = 0xBF) ∨
      (n = 1 ∧ 0xC2 ≤ b.toNat ∧ b.toNat < 0xE0 ∧ v = b.toNat - 0xC0 ∧
        low.toNat = 0x80 ∧ high.toNat = 0xBF) ∨
      (n = 2 ∧ 0xE0 ≤ b.toNat ∧ b.toNat < 0xF0 ∧ v = b.toNat - 0xE0 ∧
        low.toNat = (if b.toNat = 0xE0 then 0xA0 else 0x80) ∧
        high.toNat = if b.toNat = 0xED then 0x9F else 0xBF) ∨
      (n = 3 ∧ 0xF0 ≤ b.toNat ∧ b.toNat < 0xF5 ∧ v = b.toNat - 0xF0 ∧
        low.toNat = (if b.toNat = 0xF0 then 0x90 else 0x80) ∧
        high.toNat = if b.toNat = 0xF4 then 0x8F else 0xBF) := by
  simp only [utf8Lead?, UInt8.lt_iff_toNat_lt, ← UInt8.toNat_inj, UInt8.reduceToNat]
  generalize b.toNat = b
  by_cases h1 : b < 0x80
  · simp [h1, ← UInt8.toNat_inj]
    omega
  by_cases h2 : b < 0xC2
  · simp [h1, h2]
    omega
  by_cases h3 : b < 0xE0
  · simp [h1, h2, h3, ← UInt8.toNat_inj]
    omega
  by_cases h4 : b < 0xF0
  · simp [h1, h2, h3, h4, ← UInt8.toNat_inj, apply_ite UInt8.toNat]
    omega
  by_cases h5 : b < 0xF5
  · simp [h1, h2, h3, h4, h5, ← UInt8.toNat_inj, apply_ite UInt8.toNat]
    omega
  · simp [h1, h2, h3, h4, h5]

theorem utf8Lead?_range {b : UInt8} {n v : Nat} {low high : UInt8}
    (h : utf8Lead? b = some (n, v, low, high)) : 0x80 ≤ low ∧ high ≤ 0xBF := by
  show 0x80 ≤ low.toNat ∧ high.toNat ≤ 0xBF
  rcases utf8Lead?_eq_some_iff.mp h with
    ⟨-, -, -, hlow, hhigh⟩ | ⟨-, -, -, -, hlow, hhigh⟩ | ⟨-, -, -, -, hlow, hhigh⟩ |
    ⟨-, -, -, -, hlow, hhigh⟩
  · omega
  · omega
  · split at hlow <;> split at hhigh <;> omega
  · split at hlow <;> split at hhigh <;> omega

/-- What a lead byte says of the code point `w` that it begins with `n` tail bytes. -/
def LeadOf (b : UInt8) (n w : Nat) : Prop :=
  ∃ v low high, utf8Lead? b = some (n, v, low, high) ∧ w / 64 ^ n = v ∧ FirstTail low high n w

theorem utf8Step_eq_ok_iff {b : UInt8} {x : Bytes} {v n : Nat} : utf8Step b x = .ok (v, n) ↔
    n ≤ x.length ∧ LeadOf b n v ∧ x.take n = utf8Tails n v := by
  rw [utf8Step]
  cases hlead : utf8Lead? b with
  | none => simp [LeadOf, hlead]
  | some lead =>
    obtain ⟨m, bits, low, high⟩ := lead
    obtain ⟨hlow, hhigh⟩ := utf8Lead?_range hlead
    constructor
    · intro h
      have hw : utf8Tail m bits low high x = .ok v ∧ m = n := by
        simp only at h
        cases htail : utf8Tail m bits low high x with
        | error reason =>
          rw [htail] at h
          cases h
        | ok w =>
          rw [htail] at h
          cases h
          exact ⟨rfl, rfl⟩
      obtain ⟨htail, rfl⟩ := hw
      obtain ⟨hbits, hfirst, hn, htails⟩ := (utf8Tail_eq_ok_iff hlow hhigh).mp htail
      exact ⟨hn, ⟨bits, low, high, hlead, hbits, hfirst⟩, htails⟩
    · rintro ⟨hn, ⟨bits', low', high', hlead', hbits, hfirst⟩, htails⟩
      rw [hlead] at hlead'
      cases hlead'
      have htail := (utf8Tail_eq_ok_iff hlow hhigh).mpr ⟨hbits, hfirst, hn, htails⟩
      simp only [htail]
      rfl

/-- The lead byte of a code point goes with as many tail bytes as the code point needs, and
with no surrogate. -/
theorem leadOf_iff {b : UInt8} {n w : Nat} : LeadOf b n w ↔
    (n = 0 ∧ w < 0x80 ∧ b.toNat = w) ∨
    (n = 1 ∧ 0x80 ≤ w ∧ w < 0x800 ∧ b.toNat = 0xC0 + w / 64) ∨
    (n = 2 ∧ 0x800 ≤ w ∧ w < 0x10000 ∧ ¬ (0xD800 ≤ w ∧ w ≤ 0xDFFF) ∧
      b.toNat = 0xE0 + w / 64 ^ 2) ∨
    (n = 3 ∧ 0x10000 ≤ w ∧ w < 0x110000 ∧ b.toNat = 0xF0 + w / 64 ^ 3) := by
  constructor
  · rintro ⟨v, low, high, hlead, hbits, hfirst⟩
    rcases utf8Lead?_eq_some_iff.mp hlead with
      ⟨rfl, h⟩ | ⟨rfl, h⟩ | ⟨rfl, hge, hlt, hv, hlow, hhigh⟩ | ⟨rfl, hge, hlt, hv, hlow, hhigh⟩
    · omega
    · omega
    · rw [FirstTail, hlow, hhigh] at hfirst
      have hb : b.toNat = 0xE0 + w / 64 ^ 2 := by omega
      have hlong : 0x800 ≤ w := by
        by_cases hE0 : b.toNat = 0xE0
        · rw [if_pos hE0] at hfirst
          omega
        · omega
      have hplain : ¬ (0xD800 ≤ w ∧ w ≤ 0xDFFF) := by
        by_cases hED : b.toNat = 0xED
        · rw [if_pos hED] at hfirst
          omega
        · omega
      exact Or.inr (Or.inr (Or.inl ⟨rfl, hlong, by omega, hplain, hb⟩))
    · rw [FirstTail, hlow, hhigh] at hfirst
      have hb : b.toNat = 0xF0 + w / 64 ^ 3 := by omega
      have hlong : 0x10000 ≤ w := by
        by_cases hF0 : b.toNat = 0xF0
        · rw [if_pos hF0] at hfirst
          omega
        · omega
      have hcode : w < 0x110000 := by
        by_cases hF4 : b.toNat = 0xF4
        · rw [if_pos hF4] at hfirst
          omega
        · omega
      exact Or.inr (Or.inr (Or.inr ⟨rfl, hlong, hcode, hb⟩))
  · rintro (⟨rfl, h⟩ | ⟨rfl, h⟩ | ⟨rfl, h⟩ | ⟨rfl, h⟩)
    · refine ⟨w, 0x80, 0xBF, utf8Lead?_eq_some_iff.mpr (Or.inl ?_), by simp, trivial⟩
      simp
      omega
    · refine ⟨w / 64, 0x80, 0xBF, utf8Lead?_eq_some_iff.mpr (Or.inr (Or.inl ?_)), by simp,
        firstTail_all 1 w⟩
      simp
      omega
    · refine ⟨w / 64 ^ 2, if b.toNat = 0xE0 then 0xA0 else 0x80,
        if b.toNat = 0xED then 0x9F else 0xBF,
        utf8Lead?_eq_some_iff.mpr (Or.inr (Or.inr (Or.inl ?_))), rfl, ?_⟩
      · simp [apply_ite UInt8.toNat]
        omega
      · simp only [FirstTail, apply_ite UInt8.toNat, UInt8.reduceToNat]
        split <;> split <;> omega
    · refine ⟨w / 64 ^ 3, if b.toNat = 0xF0 then 0x90 else 0x80,
        if b.toNat = 0xF4 then 0x8F else 0xBF,
        utf8Lead?_eq_some_iff.mpr (Or.inr (Or.inr (Or.inr ?_))), rfl, ?_⟩
      · simp [apply_ite UInt8.toNat]
        omega
      · simp only [FirstTail, apply_ite UInt8.toNat, UInt8.reduceToNat]
        split <;> split <;> omega

theorem isSurrogate_eq_false_iff {c : CodePoint} :
    c.isSurrogate = false ↔ ¬ (0xD800 ≤ c.val ∧ c.val ≤ 0xDFFF) := by
  simp [CodePoint.isSurrogate]

theorem utf8Bytes_of_leadOf {b : UInt8} {n w : Nat} (h : LeadOf b n w) :
    utf8Bytes w = b :: utf8Tails n w := by
  have hb : UInt8.ofNat b.toNat = b := UInt8.ofNat_toNat
  rcases leadOf_iff.mp h with ⟨rfl, h1, hlead⟩ | ⟨rfl, h1, h2, hlead⟩ |
    ⟨rfl, h1, h2, -, hlead⟩ | ⟨rfl, h1, h2, hlead⟩
  · rw [utf8Bytes, if_pos h1, ← hb, hlead]
    rfl
  · rw [utf8Bytes, if_neg (by omega), if_pos h2, ← hb, hlead]
    rfl
  · rw [utf8Bytes, if_neg (by omega), if_neg (by omega), if_pos h2, ← hb, hlead]
    rfl
  · rw [utf8Bytes, if_neg (by omega), if_neg (by omega), if_neg (by omega), ← hb, hlead]
    rfl

theorem exists_leadOf {c : CodePoint} (hc : c.isSurrogate = false) :
    ∃ b n, LeadOf b n c.val := by
  have hplain := isSurrogate_eq_false_iff.mp hc
  have hlt : c.val < 0x110000 := c.isLt
  have hbyte {k : Nat} (hk : k < 256) : (UInt8.ofNat k).toNat = k := (toNat_eq_iff hk).mpr rfl
  by_cases h1 : c.val < 0x80
  · exact ⟨.ofNat c.val, 0, leadOf_iff.mpr (Or.inl ⟨rfl, h1, hbyte (by omega)⟩)⟩
  by_cases h2 : c.val < 0x800
  · exact ⟨.ofNat (0xC0 + c.val / 64), 1,
      leadOf_iff.mpr (Or.inr (Or.inl ⟨rfl, by omega, h2, hbyte (by omega)⟩))⟩
  by_cases h3 : c.val < 0x10000
  · exact ⟨.ofNat (0xE0 + c.val / 64 ^ 2), 2,
      leadOf_iff.mpr (Or.inr (Or.inr (Or.inl ⟨rfl, by omega, h3, hplain, hbyte (by omega)⟩)))⟩
  · exact ⟨.ofNat (0xF0 + c.val / 64 ^ 3), 3,
      leadOf_iff.mpr (Or.inr (Or.inr (Or.inr ⟨rfl, by omega, hlt, hbyte (by omega)⟩)))⟩

theorem LeadOf.code {b : UInt8} {n w : Nat} (h : LeadOf b n w) :
    w < 0x110000 ∧ ¬ (0xD800 ≤ w ∧ w ≤ 0xDFFF) := by
  have hcases := leadOf_iff.mp h
  omega

theorem utf8Step_eq_ok_iff_front {b : UInt8} {x : Bytes} {v n : Nat} :
    utf8Step b x = .ok (v, n) ↔ utf8.Front b x v n := by
  rw [utf8Step_eq_ok_iff, Front]
  constructor
  · rintro ⟨hn, hlead, htails⟩
    obtain ⟨hlt, hplain⟩ := hlead.code
    refine ⟨hn, ⟨v, hlt⟩, rfl, ?_⟩
    rw [point?, isSurrogate_eq_false_iff.mpr hplain, utf8Bytes_of_leadOf hlead, htails]
    rfl
  · rintro ⟨hn, c, rfl, hc⟩
    have hplain : c.isSurrogate = false := exists_point?_iff.mp ⟨_, hc⟩
    obtain ⟨b', n', hlead⟩ := exists_leadOf hplain
    rw [point?, hplain, utf8Bytes_of_leadOf hlead] at hc
    simp only [Bool.false_eq_true, ↓reduceIte, Option.some.injEq, List.cons.injEq] at hc
    obtain ⟨rfl, htails⟩ := hc
    have hlength := congrArg List.length htails
    rw [length_utf8Tails, List.length_take, Nat.min_eq_left hn] at hlength
    subst hlength
    exact ⟨hn, hlead, htails.symm⟩

/-! ## Units of two and four bytes -/

/-- The bytes of a unit have the number that is written in them, and no other bytes do. -/
theorem value_logical_eq_iff {o : ByteOrder} {x : Bytes} {n : Nat} :
    (o.logical x).value = n ↔ n < 256 ^ x.length ∧ o.logical (Bytes.ofNat x.length n) = x := by
  constructor
  · rintro rfl
    have hlt := Bytes.value_lt (o.logical x)
    have hback := Bytes.ofNat_value (o.logical x)
    rw [ByteOrder.length_logical] at hlt hback
    exact ⟨hlt, by rw [hback, ByteOrder.logical_logical]⟩
  · rintro ⟨hlt, hx⟩
    have hunit := congrArg o.logical hx
    rw [ByteOrder.logical_logical] at hunit
    rw [← hunit, Bytes.value_ofNat, Nat.mod_eq_of_lt hlt]

theorem value_unit_iff {o : ByteOrder} {b c : UInt8} {n : Nat} : (o.logical [b, c]).value = n ↔
    n < 0x10000 ∧ o.logical (Bytes.ofNat 2 n) = [b, c] := by
  simpa using value_logical_eq_iff (o := o) (x := [b, c]) (n := n)

variable {o : ByteOrder} {b : UInt8} {x : Bytes} {v n : Nat}

theorem front_utf32_iff : (utf32 o).Front b x v n ↔ ∃ c d e y, x = c :: d :: e :: y ∧ n = 3 ∧
    (o.logical [b, c, d, e]).value = v ∧ v < 0x110000 ∧ ¬ (0xD800 ≤ v ∧ v ≤ 0xDFFF) := by
  constructor
  · rintro ⟨hn, c, rfl, hc⟩
    have hplain : c.isSurrogate = false := exists_point?_iff.mp ⟨_, hc⟩
    rw [point?, hplain] at hc
    simp only [Bool.false_eq_true, ↓reduceIte, Option.some.injEq] at hc
    have hlength := congrArg List.length hc
    rw [ByteOrder.length_logical, Bytes.length_ofNat, List.length_cons, List.length_take,
      Nat.min_eq_left hn] at hlength
    obtain rfl : n = 3 := by omega
    match x, hn with
    | d :: e :: f :: y, _ =>
      have hlt : c.val < 0x110000 := c.isLt
      refine ⟨d, e, f, y, rfl, rfl, value_logical_eq_iff.mpr ⟨?_, hc⟩, hlt,
        isSurrogate_eq_false_iff.mp hplain⟩
      simp
      omega
  · rintro ⟨c, d, e, y, rfl, rfl, hv, hlt, hplain⟩
    refine ⟨by simp, ⟨v, hlt⟩, rfl, ?_⟩
    rw [point?, isSurrogate_eq_false_iff.mpr hplain]
    simpa using (value_logical_eq_iff.mp hv).2

theorem utf32Step_eq_ok_iff : utf32Step o b x = .ok (v, n) ↔ (utf32 o).Front b x v n := by
  rw [front_utf32_iff]
  constructor
  · intro h
    unfold utf32Step at h
    split at h
    · next c d e y =>
      simp only at h
      split at h
      · cases h
      split at h
      · cases h
      cases h
      exact ⟨c, d, e, y, rfl, rfl, rfl, by omega, by omega⟩
    · cases h
  · rintro ⟨c, d, e, y, rfl, rfl, rfl, hlt, hplain⟩
    simp only [utf32Step]
    rw [if_neg (by omega), if_neg (by omega)]

theorem front_utf16_iff : (utf16 o).Front b x v n ↔
    (∃ c y, x = c :: y ∧ n = 1 ∧ (o.logical [b, c]).value = v ∧ ¬ (0xD800 ≤ v ∧ v ≤ 0xDFFF)) ∨
    (∃ c d e y, x = c :: d :: e :: y ∧ n = 3 ∧ 0x10000 ≤ v ∧ v < 0x110000 ∧
      (o.logical [b, c]).value = 0xD800 + (v - 0x10000) / 0x400 ∧
      (o.logical [d, e]).value = 0xDC00 + (v - 0x10000) % 0x400) := by
  constructor
  · rintro ⟨hn, c, rfl, hc⟩
    have hplain : c.isSurrogate = false := exists_point?_iff.mp ⟨_, hc⟩
    have hlt : c.val < 0x110000 := c.isLt
    rw [point?, hplain] at hc
    simp only [Bool.false_eq_true, ↓reduceIte, Option.some.injEq, utf16Bytes] at hc
    have hlength := congrArg List.length hc
    rw [List.length_cons, List.length_take, Nat.min_eq_left hn] at hlength
    split at hc
    · next hsmall =>
      rw [if_pos hsmall, ByteOrder.length_logical, Bytes.length_ofNat] at hlength
      obtain rfl : n = 1 := by omega
      match x, hn with
      | d :: y, _ =>
        exact Or.inl ⟨d, y, rfl, rfl, value_unit_iff.mpr ⟨hsmall, hc⟩,
          isSurrogate_eq_false_iff.mp hplain⟩
    · next hlarge =>
      rw [if_neg hlarge, List.length_append, ByteOrder.length_logical, ByteOrder.length_logical,
        Bytes.length_ofNat, Bytes.length_ofNat] at hlength
      obtain rfl : n = 3 := by omega
      match x, hn with
      | d :: e :: f :: y, _ =>
        have hpair : o.logical (Bytes.ofNat 2 (0xD800 + (c.val - 0x10000) / 0x400)) ++
            o.logical (Bytes.ofNat 2 (0xDC00 + (c.val - 0x10000) % 0x400)) =
              [b, d] ++ [e, f] := hc
        obtain ⟨hhigh, hlow⟩ := List.append_inj hpair (by simp)
        refine Or.inr ⟨d, e, f, y, rfl, rfl, by omega, hlt, ?_, ?_⟩
        · exact value_unit_iff.mpr ⟨by omega, hhigh⟩
        · exact value_unit_iff.mpr ⟨by omega, hlow⟩
  · rintro (⟨c, y, rfl, rfl, hv, hplain⟩ | ⟨c, d, e, y, rfl, rfl, hge, hlt, hhigh, hlow⟩)
    · obtain ⟨hsmall, hunit⟩ := value_unit_iff.mp hv
      refine ⟨by simp, ⟨v, by omega⟩, rfl, ?_⟩
      rw [point?, isSurrogate_eq_false_iff.mpr hplain, utf16Bytes, if_pos hsmall]
      simp [hunit]
    · have hplain : ¬ (0xD800 ≤ v ∧ v ≤ 0xDFFF) := by omega
      have hlarge : ¬ v < 0x10000 := by omega
      refine ⟨by simp, ⟨v, hlt⟩, rfl, ?_⟩
      rw [point?, isSurrogate_eq_false_iff.mpr hplain, utf16Bytes, if_neg hlarge]
      simp [(value_unit_iff.mp hhigh).2, (value_unit_iff.mp hlow).2]

theorem utf16Step_eq_ok_iff : utf16Step o b x = .ok (v, n) ↔ (utf16 o).Front b x v n := by
  rw [front_utf16_iff]
  constructor
  · intro h
    unfold utf16Step at h
    split at h
    · cases h
    · next c y =>
      simp only at h
      split at h
      · next hunit =>
        cases h
        exact Or.inl ⟨c, y, rfl, rfl, rfl, by omega⟩
      split at h
      · cases h
      split at h
      · next d e z =>
        split at h
        · next hlow =>
          simp only [Except.ok.injEq, Prod.mk.injEq] at h
          obtain ⟨rfl, rfl⟩ := h
          exact Or.inr ⟨c, d, e, z, rfl, rfl, by omega, by omega, by omega, by omega⟩
        · cases h
      · cases h
  · rintro (⟨c, y, rfl, rfl, rfl, hplain⟩ | ⟨c, d, e, y, rfl, rfl, hge, hlt, hhigh, hlow⟩)
    · simp only [utf16Step]
      rw [if_pos (by omega)]
    · simp only [utf16Step, hhigh, hlow]
      have hpair : 0x10000 + (0xD800 + (v - 0x10000) / 0x400 - 0xD800) * 0x400 +
          (0xDC00 + (v - 0x10000) % 0x400 - 0xDC00) = v := by omega
      rw [if_neg (by omega), if_neg (by omega), if_pos (by omega), hpair]

/-! ## All codecs -/

theorem step_eq_ok_iff (codec : TextCodec) :
    codec.step b x = .ok (v, n) ↔ codec.Front b x v n := by
  cases codec with
  | utf8 => exact utf8Step_eq_ok_iff_front
  | ascii => exact asciiStep_eq_ok_iff
  | latin1 => exact latin1Step_eq_ok_iff
  | utf16 o => exact utf16Step_eq_ok_iff
  | utf32 o => exact utf32Step_eq_ok_iff

theorem Front.append {codec : TextCodec} (h : codec.Front b x v n) (y : Bytes) :
    codec.Front b (x ++ y) v n := by
  obtain ⟨hn, c, hc, hpoint⟩ := h
  refine ⟨by simp; omega, c, hc, ?_⟩
  rwa [List.take_append_of_le_length hn]

/-- A code point is never written as nothing. -/
theorem point?_ne_nil (codec : TextCodec) (c : CodePoint) : codec.point? c ≠ some [] := by
  have hunit (o : ByteOrder) (k : Nat) (m : Nat) : o.logical (Bytes.ofNat (k + 1) m) ≠ [] := by
    apply List.ne_nil_of_length_pos
    simp
  intro h
  have hsome := exists_point?_iff.mp ⟨_, h⟩
  cases codec with
  | ascii => simp [point?] at h
  | latin1 => simp [point?] at h
  | utf8 =>
    obtain ⟨b, n, hlead⟩ := exists_leadOf hsome
    simp [point?, utf8Bytes_of_leadOf hlead] at h
  | utf16 o =>
    simp only [point?, utf16Bytes, Option.ite_none_left_eq_some, Option.some.injEq] at h
    obtain ⟨-, h⟩ := h
    split at h
    · exact hunit o 1 _ h
    · exact hunit o 1 _ (List.append_eq_nil_iff.mp h).1
  | utf32 o =>
    simp only [point?, Option.ite_none_left_eq_some, Option.some.injEq] at h
    exact hunit o 3 _ h.2

end TextCodec
end Octets
