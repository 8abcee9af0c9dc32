import Octets.Proofs.Bits
import Octets.Proofs.Encoding.Hex
import Octets.Proofs.Encoding.Radix
import Octets.Proofs.Store.Execution
/-!
# Digits that are parts of bytes

In radix 16 the digits of a number are the nibbles of its bytes, and in radix 2 they are its
bits. So positional notation, which divides, agrees with hexadecimal text, which looks each
byte up (`Radix.encode_cased_16`), and with the bits of a sequence, which are read from the
byte where they stand (`Radix.getElem?_digits_two`). The first byte of a number is not zero,
but its higher nibble may be: then it is no digit of the number. Both for every sequence:
`Radix.exists_digitsAgree`.
-/

namespace Octets

/-- The list without its first item where that is `a`. -/
def withoutFirst {α : Type} [DecidableEq α] (a : α) (l : List α) : List α :=
  if l.head? = some a then l.tail else l

namespace Radix

open Magnitude

/-- The symbol of the digit one. -/
def one : CodePoint := CodePoint.ofChar '1'

/-! ## Symbols -/

section Symbols

variable {n : Nat} (h36 : n ≤ 36) (upperCase : Bool)

include h36

/-- Only zero is written as the zero symbol. -/
theorem symbol_eq_zero_iff {d : Nat} (hd : d < n) :
    (Alphabet.casedAlphabet n upperCase).symbols.getD d 0 = zero ↔ d = 0 := by
  rw [Alphabet.getD_casedAlphabet hd, ← digitValue?_eq_zero,
    Alphabet.digitValue?_casedDigits upperCase (Nat.lt_of_lt_of_le hd h36), Option.some.injEq]

theorem head?_spell_iff {digits : List Nat} (hd : ∀ d ∈ digits, d < n) :
    ((Alphabet.casedAlphabet n upperCase).spell digits).head? = some zero ↔
      digits.head? = some 0 := by
  cases digits with
  | nil => simp [Alphabet.spell]
  | cons d digits =>
    simp only [Alphabet.spell, List.map_cons, List.head?_cons, Option.some.injEq]
    exact symbol_eq_zero_iff h36 upperCase (hd d (List.mem_cons_self ..))

theorem spell_withoutFirst {digits : List Nat} (hd : ∀ d ∈ digits, d < n) :
    (Alphabet.casedAlphabet n upperCase).spell (withoutFirst 0 digits) =
      withoutFirst zero ((Alphabet.casedAlphabet n upperCase).spell digits) := by
  have hhead := head?_spell_iff h36 upperCase hd
  by_cases h : digits.head? = some 0
  · rw [withoutFirst, withoutFirst, if_pos h, if_pos (hhead.mpr h), Alphabet.spell, Alphabet.spell,
      List.map_tail]
  · rw [withoutFirst, withoutFirst, if_neg h, if_neg (mt hhead.mp h)]

end Symbols

/-! ## Leading zeros -/

theorem digitsOf_zeros_append {y : Bytes} (hy : y.head? ≠ some 0) (n z : Nat) :
    digitsOf n (Bytes.zeros z ++ y) = List.replicate z 0 ++ (Nat.digits n y.value).reverse := by
  rw [digitsOf, leadingZeros_zeros_append hy, Bytes.value_zeros_append]

/-- Each leading zero byte is one zero symbol, and then come the digits of the number. -/
theorem encode_zeros_append {n : Nat} (h2 : 2 ≤ n) (h36 : n ≤ 36) (upperCase : Bool) {y : Bytes}
    (hy : y.head? ≠ some 0) (z : Nat) :
    (cased h2 h36 upperCase).encode (Bytes.zeros z ++ y) = List.replicate z zero ++
      (Alphabet.casedAlphabet n upperCase).spell (Nat.digits n y.value).reverse := by
  have hzero := (symbol_eq_zero_iff h36 upperCase (show 0 < n by omega)).mpr rfl
  rw [encode_eq, radix_cased, digitsOf_zeros_append hy]
  show (Alphabet.casedAlphabet n upperCase).spell _ = _
  rw [Alphabet.spell, List.map_append, List.map_replicate, hzero]
  rfl

/-! ## Nibbles -/

/-- The nibbles of bytes, the higher one of each first. -/
def nibbles (x : Bytes) : List Nat := x.flatMap fun b => [b.toNat / 16, b.toNat % 16]

theorem nibbles_lt (x : Bytes) : ∀ d ∈ nibbles x, d < 16 := by
  intro d hd
  obtain ⟨b, -, hd⟩ := List.mem_flatMap.mp hd
  have hb : b.toNat < 256 := b.toNat_lt
  simp only [List.mem_cons, List.not_mem_nil, or_false] at hd
  omega

theorem hex_encode_eq (upperCase : Bool) (x : Bytes) :
    Hex.encode upperCase x = (Alphabet.casedAlphabet 16 upperCase).spell (nibbles x) := by
  simp only [Hex.encode, nibbles, Alphabet.spell, List.map_flatMap, List.map_cons, List.map_nil,
    Hex.symbol, Hex.symbols_eq]

/-- A number is written by the nibbles of its bytes. -/
theorem numeral_nibbles (x : Bytes) : numeral 16 (nibbles x) = x.value := by
  rw [numeral, nibbles, List.foldl_flatMap, Bytes.value]
  congr 1
  funext v b
  simp only [List.foldl_cons, List.foldl_nil]
  omega

theorem numeral_withoutFirst (n : Nat) (digits : List Nat) :
    numeral n (withoutFirst 0 digits) = numeral n digits := by
  cases digits with
  | nil => rfl
  | cons d digits =>
    by_cases hd : d = 0
    · simp [withoutFirst, numeral, hd]
    · simp [withoutFirst, hd]

/-- A number has the nibbles of its bytes for digits, but for one zero in front. -/
theorem digits_eq_nibbles {y : Bytes} (hy : y.head? ≠ some 0) :
    (Nat.digits 16 y.value).reverse = withoutFirst 0 (nibbles y) := by
  have hlt : ∀ d ∈ withoutFirst 0 (nibbles y), d < 16 := by
    intro d hd
    rw [withoutFirst] at hd
    split at hd
    · exact nibbles_lt y d (List.mem_of_mem_tail hd)
    · exact nibbles_lt y d hd
  have hhead : (withoutFirst 0 (nibbles y)).head? ≠ some 0 := by
    cases y with
    | nil => exact nofun
    | cons b y =>
      have hb : b.toNat ≠ 0 := by
        intro h0
        have hzero : b = 0 := UInt8.toNat_inj.mp h0
        exact hy (congrArg some hzero)
      by_cases hhigh : b.toNat / 16 = 0
      · have hlow : b.toNat % 16 ≠ 0 := by omega
        simp [nibbles, withoutFirst, hhigh, hlow]
      · simp [nibbles, withoutFirst, hhigh]
  rw [← numeral_nibbles, ← numeral_withoutFirst]
  exact digits_numeral (by decide) hlt hhead

theorem encode_cased_16 (upperCase : Bool) {y : Bytes} (hy : y.head? ≠ some 0) (z : Nat) :
    (cased (n := 16) (by decide) (by decide) upperCase).encode (Bytes.zeros z ++ y) =
      List.replicate z zero ++ withoutFirst zero (Hex.encode upperCase y) := by
  rw [encode_zeros_append _ _ _ hy, digits_eq_nibbles hy,
    spell_withoutFirst (by decide) upperCase (nibbles_lt y), hex_encode_eq]

/-! ## Bits -/

/-- The digits in radix 2 are the bits of the number, the least significant one first. -/
theorem getElem?_digits_two {v p d : Nat} (h : (Nat.digits 2 v)[p]? = some d) :
    d = (v.testBit p).toNat := by
  have hdigit := Nat.getD_digits v p (le_refl 2)
  rw [List.getD_eq_getElem?_getD, h, Option.getD_some] at hdigit
  rw [hdigit, Nat.toNat_testBit]

/-- Past its digits, a number has no bits. -/
theorem testBit_of_length_digits_le {v p : Nat} (h : (Nat.digits 2 v).length ≤ p) :
    v.testBit p = false :=
  Nat.testBit_lt_two_pow ((Nat.digits_length_le_iff (by decide) v).mp h)

theorem symbol_toNat (b : Bool) :
    (Alphabet.casedAlphabet 2 false).symbols.getD b.toNat 0 = if b then one else zero := by
  cases b with
  | true => decide
  | false => decide

/-! ## Sequences -/

theorem positional_eq {n : Nat} (h2 : 2 ≤ n) (h36 : n ≤ 36) (upperCase : Bool) :
    Encoding.positional n upperCase = .ok (.radix (cased h2 h36 upperCase)) := by
  rw [Encoding.positional, build_eq h2 h36]
  rfl

theorem ofRadix_eq {n : Nat} (h2 : 2 ≤ n) (h36 : n ≤ 36) :
    Encoding.ofRadix n = .ok (.radix (cased h2 h36 false)) := by
  rw [Encoding.ofRadix, if_neg (by omega), if_pos (by omega), build_eq h2 h36]
  rfl

section Queries

variable {σ : Store} {s : SequenceId} {q : Sequence} {stored : Bytes}

theorem query_bitAt (hs : σ.Holds s q stored) {p : Nat} (hp : p < 8 * stored.length) :
    σ.query s (.bitAt p) = .ok (.bool ((unsignedValue q.order stored).testBit p)) := by
  rw [hs.query]
  show (Bits.bitAt q.order stored p).map Value.bool = _
  rw [Bits.bitAt_of_lt (by omega) (by omega)]
  rfl

theorem query_encodeRadix {n : Nat} (h2 : 2 ≤ n) (h36 : n ≤ 36) (hs : σ.Holds s q stored) :
    σ.query s (.encodeRadix n) =
      .ok (.text ((cased h2 h36 false).encode (q.order.logical stored))) := by
  rw [hs.query]
  show (Encoding.ofRadix n).map (fun e => Value.text (e.encode stored q.order)) = _
  rw [ofRadix_eq h2 h36]
  rfl

end Queries

/-- What is written in binary for a sequence `s` of `n` bits: `z` zeros, and `digits` after
them. -/
structure WrittenInBinary (σ : Store) (s : SequenceId) (z : Nat) (digits : Text) (n : Nat) :
    Prop where
  written : σ.query s (.encodeRadix 2) = .ok (.text (List.replicate z zero ++ digits))
  /-- Counted from the end, the digits are the bits. -/
  bits : ∀ (p : Nat) (c : CodePoint), digits.reverse[p]? = some c →
    (c = zero ∨ c = one) ∧ σ.query s (.bitAt p) = .ok (.bool (c = one))
  /-- The bits before the digits are not set. -/
  beyond : ∀ p : Nat, digits.length ≤ p → p < n → σ.query s (.bitAt p) = .ok (.bool false)

/-- How the bytes `x`, which are `z` zero bytes and `y` after them, are written in radixes that
divide a byte. -/
structure DigitsAgree (x : Bytes) (z : Nat) (y : Bytes) : Prop where
  /-- In radix 16, as in hexadecimal text, but for the first zero of that. -/
  hexadecimal : ∀ upperCase : Bool, ∃ e, Encoding.positional 16 upperCase = .ok e ∧
    e.encode x .big =
      List.replicate z zero ++ withoutFirst zero ((Encoding.hex upperCase).encode y .big)
  /-- In radix 2, as the bits of each sequence whose logical form they are. -/
  binary : ∃ digits : Text, digits.head? ≠ some zero ∧
    ∀ (σ : Store) (s : SequenceId) (q : Sequence) (stored : Bytes), σ.Holds s q stored →
      q.order.logical stored = x → WrittenInBinary σ s z digits (8 * x.length)

theorem writtenInBinary {σ : Store} {s : SequenceId} {q : Sequence} {stored y : Bytes} {z : Nat}
    (hs : σ.Holds s q stored) (hx : q.order.logical stored = Bytes.zeros z ++ y)
    (hy : y.head? ≠ some 0) : WrittenInBinary σ s z
      ((Alphabet.casedAlphabet 2 false).spell (Nat.digits 2 y.value).reverse)
      (8 * (Bytes.zeros z ++ y).length) := by
  have h36 : 2 ≤ 36 := by decide
  have hvalue : unsignedValue q.order stored = y.value := by
    rw [unsignedValue, hx, Bytes.value_zeros_append]
  have hlength : (Bytes.zeros z ++ y).length = stored.length := by
    rw [← hx, ByteOrder.length_logical]
  have hbit {p : Nat} (hp : p < 8 * stored.length) :
      σ.query s (.bitAt p) = .ok (.bool (y.value.testBit p)) := by
    rw [query_bitAt hs hp, hvalue]
  have hcount : (Nat.digits 2 y.value).length ≤ 8 * stored.length := by
    rw [Nat.digits_length_le_iff (by decide), ← hvalue]
    exact unsignedValue_lt q.order stored
  refine ⟨?_, fun p c hc => ?_, fun p hle hp => ?_⟩
  · have hwritten := query_encodeRadix (le_refl 2) h36 hs
    rw [hx, encode_zeros_append (le_refl 2) h36 false hy] at hwritten
    exact hwritten
  · rw [Alphabet.spell, List.map_reverse, List.reverse_reverse, List.getElem?_map,
      Option.map_eq_some_iff] at hc
    obtain ⟨d, hd, rfl⟩ := hc
    have hp : p < (Nat.digits 2 y.value).length := (List.getElem?_eq_some_iff.mp hd).1
    rw [getElem?_digits_two hd, symbol_toNat, hbit (Nat.lt_of_lt_of_le hp hcount)]
    cases y.value.testBit p with
    | true => exact ⟨.inr rfl, rfl⟩
    | false => exact ⟨.inl rfl, rfl⟩
  · rw [Alphabet.spell, List.length_map, List.length_reverse] at hle
    rw [hbit (by rwa [← hlength]), testBit_of_length_digits_le hle]

theorem digitsAgree {y : Bytes} (hy : y.head? ≠ some 0) (z : Nat) :
    DigitsAgree (Bytes.zeros z ++ y) z y where
  hexadecimal upperCase := by
    have h16 : 2 ≤ 16 := by decide
    have h36 : 16 ≤ 36 := by decide
    exact ⟨.radix (cased h16 h36 upperCase), positional_eq h16 h36 upperCase,
      encode_cased_16 upperCase hy z⟩
  binary := by
    refine ⟨_, ?_, fun σ s q stored hs hx => writtenInBinary hs hx hy⟩
    rw [Ne, head?_spell_iff (by decide) false]
    · exact head?_digits_reverse 2 y.value
    · intro d hd
      exact Nat.digits_lt_base (by decide) (List.mem_reverse.mp hd)

/-- Division, lookup and the bits of a sequence agree on every byte string. -/
theorem exists_digitsAgree (x : Bytes) :
    ∃ z y, x = Bytes.zeros z ++ y ∧ y.head? ≠ some 0 ∧ DigitsAgree x z y := by
  have hbare := bare_strip x
  refine ⟨leadingZeros x, strip x, (zeros_append_strip x).symm, hbare, ?_⟩
  have hagree := digitsAgree hbare (leadingZeros x)
  rwa [zeros_append_strip] at hagree

end Radix
end Octets
