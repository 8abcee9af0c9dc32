import Octets.Encoding.Base64
import Octets.Proofs.Alphabet
/-!
# Base64 text read back

Either alphabet is read by one table (`digit?_symbol`), padding at the end adds no
digit (`scan_spell`), and the bytes come back from the digits of their blocks
(`decodeDigits_encodeDigits`).
-/

namespace Octets.Base64

open Alphabet

/-! ## Symbols -/

theorem digit?_symbol (urlSafe : Bool) :
    ∀ d < 64, digit? ((alphabet urlSafe).symbols.getD d 0) = some d := by
  cases urlSafe <;> decide

/-- No symbol is skipped or taken for padding. -/
theorem symbol_plain (urlSafe : Bool) : ∀ d < 64,
    isSpace ((alphabet urlSafe).symbols.getD d 0) = false ∧
      (alphabet urlSafe).symbols.getD d 0 ≠ padSymbol := by
  cases urlSafe <;> decide

theorem radix_alphabet (urlSafe : Bool) : (alphabet urlSafe).radix = 64 := by
  cases urlSafe <;> decide

/-! ## Reading -/

theorem scan_padding (k i : Nat) (padded : Bool) :
    scan i padded (List.replicate k padSymbol) = .ok [] := by
  induction k generalizing i padded with
  | zero => rfl
  | succ k ih =>
    rw [List.replicate_succ, scan, if_neg (by decide), if_pos rfl]
    exact ih (i + 1) true

theorem scan_spell (urlSafe : Bool) {digits : List Nat} (hd : ∀ d ∈ digits, d < 64)
    (k i : Nat) :
    scan i false ((alphabet urlSafe).spell digits ++ List.replicate k padSymbol) =
      .ok digits := by
  induction digits generalizing i with
  | nil => exact scan_padding k i false
  | cons d ds ih =>
    have hlt := hd d (List.mem_cons_self ..)
    obtain ⟨hspace, hpad⟩ := symbol_plain urlSafe d hlt
    have hrest := ih (fun e he => hd e (List.mem_cons_of_mem _ he)) (i + 1)
    simp only [spell] at hrest
    simp only [spell, List.map_cons, List.cons_append, scan, hspace, hpad, Bool.false_eq_true,
      ↓reduceIte, digit?_symbol urlSafe d hlt, hrest]
    rfl

/-! ## Blocks -/

theorem sextets_lt {v : Nat} (hv : v < 2 ^ 24) : ∀ d ∈ sextets v, d < 64 := by
  intro d hd
  simp only [sextets, List.mem_cons, List.not_mem_nil, or_false] at hd
  omega

theorem encodeDigits_lt (x : Bytes) : ∀ d ∈ (encodeDigits x).1, d < 64 := by
  fun_induction encodeDigits x with
  | case1 a b c x rest ih =>
    have ha : a.toNat < 256 := a.toNat_lt
    have hb : b.toNat < 256 := b.toNat_lt
    have hc : c.toNat < 256 := c.toNat_lt
    intro d hd
    rcases List.mem_append.mp hd with hd | hd
    · exact sextets_lt (by omega) d hd
    · exact ih d hd
  | case2 a b =>
    have ha : a.toNat < 256 := a.toNat_lt
    have hb : b.toNat < 256 := b.toNat_lt
    intro d hd
    exact sextets_lt (by omega) d (List.mem_of_mem_take hd)
  | case3 a =>
    have ha : a.toNat < 256 := a.toNat_lt
    intro d hd
    exact sextets_lt (by omega) d (List.mem_of_mem_take hd)
  | case4 => simp

/-- No text leaves one digit over. -/
theorem length_encodeDigits_mod (x : Bytes) : (encodeDigits x).1.length % 4 ≠ 1 := by
  fun_induction encodeDigits x with
  | case1 a b c x rest ih =>
    have hrest : rest.1.length % 4 ≠ 1 := ih
    simp only [List.length_append, sextets, List.length_cons, List.length_nil]
    omega
  | case2 a b => simp [sextets]
  | case3 a => simp [sextets]
  | case4 => simp

private theorem ofNat_eq {v : Nat} {b : UInt8} (h : v % 256 = b.toNat) : UInt8.ofNat v = b := by
  apply UInt8.toNat_inj.mp
  rw [UInt8.toNat_ofNat', ← h]

theorem triple_eq (a b c : UInt8) :
    triple (a.toNat * 2 ^ 16 + b.toNat * 2 ^ 8 + c.toNat) = [a, b, c] := by
  have ha : a.toNat < 256 := a.toNat_lt
  have hb : b.toNat < 256 := b.toNat_lt
  have hc : c.toNat < 256 := c.toNat_lt
  simp only [triple, List.cons.injEq, and_true]
  exact ⟨ofNat_eq (by omega), ofNat_eq (by omega), ofNat_eq (by omega)⟩

theorem sextets_sum (v : Nat) :
    v / 2 ^ 18 * 2 ^ 18 + v / 2 ^ 12 % 64 * 2 ^ 12 + v / 2 ^ 6 % 64 * 2 ^ 6 + v % 64 = v := by
  omega

/-- Two digits are enough for a block of one byte: the other two are zero. -/
theorem decodeDigits_one (a : UInt8) :
    decodeDigits ((sextets (a.toNat * 2 ^ 16)).take 2) = [a] := by
  have hsum {v : Nat} (h1 : v / 2 ^ 6 % 64 = 0) (h0 : v % 64 = 0) :
      v / 2 ^ 18 * 2 ^ 18 + v / 2 ^ 12 % 64 * 2 ^ 12 = v := by
    have hs := sextets_sum v
    rwa [h0, h1, Nat.zero_mul, Nat.add_zero] at hs
  have hs := hsum (v := a.toNat * 2 ^ 16) (by omega) (by omega)
  have ht := triple_eq a 0 0
  simp only [UInt8.toNat_zero, Nat.add_zero, Nat.zero_mul] at ht
  simp only [sextets, List.take_succ_cons, List.take_zero, decodeDigits, hs, ht]

/-- Three digits are enough for a block of two bytes. -/
theorem decodeDigits_two (a b : UInt8) :
    decodeDigits ((sextets (a.toNat * 2 ^ 16 + b.toNat * 2 ^ 8)).take 3) = [a, b] := by
  have hs := sextets_sum (a.toNat * 2 ^ 16 + b.toNat * 2 ^ 8)
  have h0 : (a.toNat * 2 ^ 16 + b.toNat * 2 ^ 8) % 64 = 0 := by omega
  have ht := triple_eq a b 0
  simp only [UInt8.toNat_zero, Nat.add_zero] at ht
  rw [h0, Nat.add_zero] at hs
  simp only [sextets, List.take_succ_cons, List.take_zero, decodeDigits, hs, ht]

theorem decodeDigits_encodeDigits (x : Bytes) : decodeDigits (encodeDigits x).1 = x := by
  fun_induction encodeDigits x with
  | case1 a b c x rest ih =>
    simp only [sextets, List.cons_append, List.nil_append, decodeDigits, sextets_sum, triple_eq]
    rw [ih]
  | case2 a b => exact decodeDigits_two a b
  | case3 a => exact decodeDigits_one a
  | case4 => rfl

/-! ## Whole texts -/

theorem decode_encode (urlSafe padding : Bool) (x : Bytes) :
    decode (encode urlSafe padding x) = .ok x := by
  have hscan : scan 0 false (encode urlSafe padding x) = .ok (encodeDigits x).1 := by
    cases padding with
    | true => exact scan_spell urlSafe (encodeDigits_lt x) (encodeDigits x).2 0
    | false => exact scan_spell urlSafe (encodeDigits_lt x) 0 0
  simp only [decode, hscan, bind, Except.bind, length_encodeDigits_mod, ↓reduceIte,
    decodeDigits_encodeDigits, pure, Except.pure]

theorem encode_mem (urlSafe padding : Bool) (x : Bytes) : ∀ c ∈ encode urlSafe padding x,
    c ∈ (alphabet urlSafe).symbols ∨ padding = true ∧ c = padSymbol := by
  intro c hc
  have hd : ∀ d ∈ (encodeDigits x).1, d < (alphabet urlSafe).radix := by
    rw [radix_alphabet]
    exact encodeDigits_lt x
  rcases List.mem_append.mp hc with hc | hc
  · exact Or.inl (spell_mem hd hc)
  · cases padding with
    | true => exact Or.inr ⟨rfl, List.eq_of_mem_replicate hc⟩
    | false => simp at hc

end Octets.Base64
