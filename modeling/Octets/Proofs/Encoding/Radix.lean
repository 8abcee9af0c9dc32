import Mathlib.Data.Set.Function
import Octets.Encoding.Basic
import Octets.Proofs.Alphabet
import Octets.Proofs.Magnitude
/-!
# Positional notation is a bijection

* `bytesOf_digitsOf`, `digitsOf_bytesOf`: leading zero bytes and leading zero digits
  correspond one to one, and the rest is a number without leading zeros on either
  side;
* `encode_eq`, `decode_eq`: a text is the spelling of those digits;
* `isPositional_cased`: for every radix from 2 to 36 reading and writing are inverse
  bijections between byte strings and digit strings in one case, and reading accepts
  the digit strings in any case and nothing else.
-/

namespace Octets.Radix

open Magnitude

/-! ## Digits and bytes -/

/-- The digits of a byte string: a zero for each leading zero byte, then the number. -/
def digitsOf (n : Nat) (x : Bytes) : List Nat :=
  List.replicate (leadingZeros x) 0 ++ (Nat.digits n x.value).reverse

/-- The bytes of digits: a zero byte for each leading zero, then the number. -/
def bytesOf (n : Nat) (digits : List Nat) : Bytes :=
  Bytes.zeros (digits.takeWhile (· == 0)).length ++
    Magnitude.ofNat (numeral n (digits.dropWhile (· == 0)))

/-- The first digit of a number is not zero. -/
theorem head?_digits_reverse (n v : Nat) : (Nat.digits n v).reverse.head? ≠ some 0 := by
  intro h
  by_cases hv : v = 0
  · subst hv
    simp at h
  · rw [List.head?_reverse,
      List.getLast?_eq_some_getLast (Nat.digits_ne_nil_iff_ne_zero.mpr hv)] at h
    exact Nat.getLast_digit_ne_zero n hv (Option.some.inj h)

theorem numeral_digits_reverse (n v : Nat) : numeral n (Nat.digits n v).reverse = v := by
  rw [numeral_eq_ofDigits, List.reverse_reverse, Nat.ofDigits_digits]

theorem bytesOf_digitsOf (n : Nat) (x : Bytes) : bytesOf n (digitsOf n x) = x := by
  have hhead := head?_digits_reverse n x.value
  rw [bytesOf, digitsOf, takeWhile_replicate_append hhead, dropWhile_replicate_append hhead,
    numeral_digits_reverse, List.length_replicate, ← strip_eq_ofNat]
  exact zeros_append_strip x

/-- The digits after the leading zeros are the only ones of their number. -/
theorem digits_numeral {n : Nat} (h2 : 2 ≤ n) {digits : List Nat} (hd : ∀ d ∈ digits, d < n)
    (hhead : digits.head? ≠ some 0) : (Nat.digits n (numeral n digits)).reverse = digits := by
  rw [numeral_eq_ofDigits, Nat.digits_ofDigits n (by omega), List.reverse_reverse]
  · intro d hm
    exact hd d (List.mem_reverse.mp hm)
  · intro hne hlast
    apply hhead
    rw [← hlast, ← List.getLast?_eq_some_getLast hne, List.getLast?_reverse]

theorem digitsOf_bytesOf {n : Nat} (h2 : 2 ≤ n) {digits : List Nat}
    (hd : ∀ d ∈ digits, d < n) : digitsOf n (bytesOf n digits) = digits := by
  have hrest : ∀ d ∈ digits.dropWhile (· == 0), d < n :=
    fun d hm => hd d ((List.dropWhile_sublist _).subset hm)
  rw [digitsOf, bytesOf, leadingZeros_zeros_append (bare_ofNat _), Bytes.value_zeros_append,
    value_ofNat, digits_numeral h2 hrest (head?_dropWhile_ne 0 digits)]
  exact replicate_append_dropWhile 0 digits

theorem digitsOf_lt {n : Nat} (h2 : 2 ≤ n) (x : Bytes) : ∀ d ∈ digitsOf n x, d < n := by
  intro d hd
  rcases List.mem_append.mp hd with hd | hd
  · rw [List.eq_of_mem_replicate hd]
    omega
  · exact Nat.digits_lt_base (by omega) (List.mem_reverse.mp hd)

/-! ## Digits and texts -/

theorem encode_eq (r : Radix) (x : Bytes) :
    r.encode x = r.alphabet.spell (digitsOf r.radix x) := by
  have hd : digitsFrom r.radix r.two_le (x.drop (leadingZeros x)) =
      Nat.digits r.radix x.value :=
    (digitsFrom_eq_digits r.radix r.two_le _).trans (by rw [drop_leadingZeros, value_strip])
  exact congrArg
    (fun ds => r.alphabet.spell (List.replicate (leadingZeros x) 0 ++ ds.reverse)) hd

theorem decode_eq (r : Radix) (t : Text) :
    r.decode t = (r.alphabet.readFrom 0 t).map (bytesOf r.radix) := by
  cases hread : r.alphabet.readFrom 0 t with
  | error f =>
    rw [decode, hread]
    rfl
  | ok digits =>
    rw [decode, hread]
    simp only [bind, Except.bind, drop_length_takeWhile, fromDigits_natCast, pure, Except.pure]
    rfl

/-! ## The notations in a radix from 2 to 36 -/

/-- Whether a code point is one of the first `n` digits, in either case. -/
def isDigit (n : Nat) (c : CodePoint) : Bool := c.digitValue?.any (· < n)

/-- The text with its letters in one case. -/
def folded (upperCase : Bool) (t : Text) : Text :=
  if upperCase then t.asciiUpper else t.asciiLower

/-- The notation in radix `n` that writes its letters in one case. -/
def cased {n : Nat} (h2 : 2 ≤ n) (h36 : n ≤ 36) (upperCase : Bool) : Radix :=
  ⟨Alphabet.casedAlphabet n upperCase, by rwa [Alphabet.radix_casedAlphabet h36]⟩

section Cased

variable {n : Nat} (h2 : 2 ≤ n) (h36 : n ≤ 36) (upperCase : Bool)

theorem build_eq : build n upperCase = .ok (cased h2 h36 upperCase) := by
  have h : 2 ≤ (Alphabet.casedAlphabet n upperCase).radix :=
    (cased h2 h36 upperCase).two_le
  simp only [build, Alphabet.positional_eq h2 h36, bind, Except.bind, h, ↓reduceDIte]
  rfl

theorem radix_cased : (cased h2 h36 upperCase).radix = n :=
  Alphabet.radix_casedAlphabet h36 upperCase

/-- Either case reads what is written in the other. -/
theorem decode_encode_cased (upperCase' : Bool) (x : Bytes) :
    (cased h2 h36 upperCase').decode ((cased h2 h36 upperCase).encode x) = .ok x := by
  have hd : ∀ d ∈ digitsOf n x, d < (Alphabet.casedAlphabet n upperCase).radix := by
    rw [Alphabet.radix_casedAlphabet h36]
    exact digitsOf_lt h2 x
  rw [encode_eq, decode_eq, radix_cased, radix_cased]
  simp only [cased]
  rw [Alphabet.readFrom_spell (Alphabet.reads_casedAlphabet h36 upperCase upperCase') hd]
  exact congrArg Except.ok (bytesOf_digitsOf n x)

theorem encode_mem_cased (x : Bytes) :
    ∀ c ∈ (cased h2 h36 upperCase).encode x, c ∈ (cased h2 h36 upperCase).alphabet.symbols := by
  intro c hc
  rw [encode_eq] at hc
  refine Alphabet.spell_mem (fun d hm => ?_) hc
  exact digitsOf_lt (cased h2 h36 upperCase).two_le x d hm

end Cased

/-! ## Texts as digit strings -/

/-- The digits that a text of digits writes. -/
def digitsIn (t : Text) : List Nat := t.filterMap CodePoint.digitValue?

def zero : CodePoint := CodePoint.ofChar '0'

theorem digitValue?_eq_zero {c : CodePoint} : c.digitValue? = some 0 ↔ c = zero := by
  constructor
  · intro h
    have hall : ∀ n : Fin 128, (CodePoint.ofNat n).digitValue? = some 0 →
        CodePoint.ofNat n = zero := by decide
    exact CodePoint.forall_ascii (P := fun c => c.digitValue? = some 0 → c = zero) hall c
      (CodePoint.lt_of_digitValue? h) h
  · rintro rfl
    decide

/-- The symbol of a code point's digit is the code point in the case of the notation. -/
theorem getD_digitValue? (upperCase : Bool) {c : CodePoint} {d : Nat}
    (h : c.digitValue? = some d) : (Alphabet.casedDigits upperCase).getD d 0 =
      if upperCase then c.asciiUpper else c.asciiLower := by
  have hall : ∀ n : Fin 128, ∀ d ∈ (CodePoint.ofNat n).digitValue?,
      (Alphabet.casedDigits upperCase).getD d 0 =
        if upperCase then (CodePoint.ofNat n).asciiUpper else (CodePoint.ofNat n).asciiLower := by
    cases upperCase <;> decide
  exact CodePoint.forall_ascii (P := fun c => ∀ d ∈ c.digitValue?,
    (Alphabet.casedDigits upperCase).getD d 0 =
      if upperCase then c.asciiUpper else c.asciiLower) hall c
    (CodePoint.lt_of_digitValue? h) d h

theorem isDigit_iff {n : Nat} {c : CodePoint} :
    isDigit n c = true ↔ ∃ d, c.digitValue? = some d ∧ d < n := by
  simp [isDigit, Option.any_eq_true]

theorem digitsIn_lt {n : Nat} {t : Text} (ht : ∀ c ∈ t, isDigit n c) :
    ∀ d ∈ digitsIn t, d < n := by
  intro d hd
  obtain ⟨c, hc, hcd⟩ := List.mem_filterMap.mp hd
  obtain ⟨e, he, hlt⟩ := isDigit_iff.mp (ht c hc)
  rw [hcd] at he
  cases he
  exact hlt

/-- Leading zero digits are leading zero symbols. -/
theorem digitsIn_split {n : Nat} {t : Text} (ht : ∀ c ∈ t, isDigit n c) :
    ((digitsIn t).takeWhile (· == 0)).length = (t.takeWhile (· == zero)).length ∧
      (digitsIn t).dropWhile (· == 0) = digitsIn (t.dropWhile (· == zero)) := by
  induction t with
  | nil => exact ⟨rfl, rfl⟩
  | cons c t ih =>
    obtain ⟨hlen, hdrop⟩ := ih (fun b hb => ht b (List.mem_cons_of_mem _ hb))
    obtain ⟨d, hd, -⟩ := isDigit_iff.mp (ht c (List.mem_cons_self ..))
    have hcons : digitsIn (c :: t) = d :: digitsIn t := by simp [digitsIn, hd]
    by_cases h0 : d = 0
    · have hc : c = zero := digitValue?_eq_zero.mp (h0 ▸ hd)
      rw [hcons]
      simp [h0, hc, hlen, hdrop]
    · have hc : c ≠ zero := by
        intro hc
        have hz := digitValue?_eq_zero.mpr hc
        rw [hd] at hz
        exact h0 (Option.some.inj hz)
      rw [hcons]
      simp [h0, hc, hcons]

section Cased

variable {n : Nat} (h2 : 2 ≤ n) (h36 : n ≤ 36) (upperCase : Bool)

theorem isSome_digitOf? (c : CodePoint) :
    ((Alphabet.casedAlphabet n upperCase).digitOf? c).isSome = isDigit n c := by
  rw [Alphabet.digitOf?_casedAlphabet, isDigit]
  cases c.digitValue? with
  | none => rfl
  | some d => by_cases h : d < n <;> simp [Option.filter, h]

theorem decode_of_digits {t : Text} (ht : ∀ c ∈ t, isDigit n c) :
    (cased h2 h36 upperCase).decode t = .ok (bytesOf n (digitsIn t)) := by
  have hall : ∀ c ∈ t, ((Alphabet.casedAlphabet n upperCase).digitOf? c).isSome := by
    intro c hc
    rw [isSome_digitOf?]
    exact ht c hc
  have hmap : t.filterMap (Alphabet.casedAlphabet n upperCase).digitOf? = digitsIn t := by
    apply List.filterMap_congr
    intro c hc
    obtain ⟨d, hd, hlt⟩ := isDigit_iff.mp (ht c hc)
    rw [Alphabet.digitOf?_casedAlphabet, hd]
    simp [Option.filter, hlt]
  rw [decode_eq, radix_cased]
  simp only [cased, Alphabet.readFrom_of_all hall, hmap]
  rfl

theorem decode_of_foreign {t : Text} (ht : ¬ ∀ c ∈ t, isDigit n c) :
    ∃ f, (cased h2 h36 upperCase).decode t = .error f ∧ f.kind = .format ∧
      f.position = t.findIdx fun c => !isDigit n c := by
  have hall : ¬ ∀ c ∈ t, ((Alphabet.casedAlphabet n upperCase).digitOf? c).isSome := by
    intro h
    apply ht
    intro c hc
    rw [← isSome_digitOf? upperCase]
    exact h c hc
  obtain ⟨c, hread⟩ := Alphabet.readFrom_of_foreign hall 0
  refine ⟨_, by rw [decode_eq]; simp only [cased, hread]; rfl, rfl, ?_⟩
  simp only [Fault.position, Nat.zero_add, ← isSome_digitOf? upperCase, Option.not_isSome]

theorem spell_digitsIn {t : Text} (ht : ∀ c ∈ t, isDigit n c) :
    (Alphabet.casedAlphabet n upperCase).spell (digitsIn t) = folded upperCase t := by
  have hfold : folded upperCase t =
      t.map fun c => if upperCase then c.asciiUpper else c.asciiLower := by
    cases upperCase <;> rfl
  rw [hfold]
  clear hfold
  induction t with
  | nil => rfl
  | cons c t ih =>
    obtain ⟨d, hd, hlt⟩ := isDigit_iff.mp (ht c (List.mem_cons_self ..))
    have hrest := ih (fun b hb => ht b (List.mem_cons_of_mem _ hb))
    simp only [Alphabet.spell, digitsIn] at hrest
    simp only [Alphabet.spell, digitsIn, List.filterMap_cons, hd, List.map_cons, hrest,
      Alphabet.getD_casedAlphabet hlt, getD_digitValue? upperCase hd]

/-- Writing what has been read gives the text back, its letters in the written case. -/
theorem encode_bytesOf {t : Text} (ht : ∀ c ∈ t, isDigit n c) :
    (cased h2 h36 upperCase).encode (bytesOf n (digitsIn t)) = folded upperCase t := by
  rw [encode_eq, radix_cased, digitsOf_bytesOf h2 (digitsIn_lt ht)]
  exact spell_digitsIn upperCase ht

end Cased

/-! ## The bijection -/

/-- Under the order `o`, `e` is positional notation in radix `n` with letters in one
case. -/
structure IsPositional (n : Nat) (upperCase : Bool) (o : ByteOrder) (e : Encoding) : Prop where
  /-- Digit strings are read, in either case, and nothing else is. -/
  accepts : ∀ t, (∃ x, e.decode t o = .ok x) ↔ ∀ c ∈ t, isDigit n c
  /-- A refusal names the first code point that is no digit. -/
  refuses : ∀ t, ¬ (∀ c ∈ t, isDigit n c) → ∃ f, e.decode t o = .error f ∧
    f.kind = .format ∧ f.position = t.findIdx fun c => !isDigit n c
  /-- Most significant byte first, what is read is a zero byte for each leading zero,
  then the number of the rest in as few bytes as can be. -/
  reads : ∀ t x, e.decode t o = .ok x → ∃ m,
    o.logical x = Bytes.zeros (t.takeWhile (· == zero)).length ++ m ∧
      Bytes.Shortest (numeral n (digitsIn (t.dropWhile (· == zero)))) m
  /-- Written again, what was read is the text in the case of the notation. -/
  rewrites : ∀ t x, e.decode t o = .ok x → e.encode x o = folded upperCase t
  inverse : ∀ x, e.decode (e.encode x o) o = .ok x
  bijective : Set.BijOn (e.encode · o) Set.univ
    {t | (∀ c ∈ t, isDigit n c) ∧ folded upperCase t = t}

section Cased

variable {n : Nat} (h2 : 2 ≤ n) (h36 : n ≤ 36) (upperCase : Bool) (o : ByteOrder)

private theorem decode_radix_of_digits {t : Text} (ht : ∀ c ∈ t, isDigit n c) :
    (Encoding.radix (cased h2 h36 upperCase)).decode t o =
      .ok (o.logical (bytesOf n (digitsIn t))) := by
  simp only [Encoding.decode, Encoding.decodeBig, decode_of_digits h2 h36 upperCase ht]
  rfl

private theorem digits_of_decode_radix {t : Text} {x : Bytes}
    (h : (Encoding.radix (cased h2 h36 upperCase)).decode t o = .ok x) :
    (∀ c ∈ t, isDigit n c) ∧ x = o.logical (bytesOf n (digitsIn t)) := by
  by_cases ht : ∀ c ∈ t, isDigit n c
  · rw [decode_radix_of_digits h2 h36 upperCase o ht] at h
    exact ⟨ht, (Except.ok.inj h).symm⟩
  · obtain ⟨f, hf, -⟩ := decode_of_foreign h2 h36 upperCase ht
    simp only [Encoding.decode, Encoding.decodeBig, hf] at h
    cases h

private theorem encode_mem_normal (x : Bytes) :
    (∀ c ∈ (cased h2 h36 upperCase).encode x, isDigit n c) ∧
      folded upperCase ((cased h2 h36 upperCase).encode x) = (cased h2 h36 upperCase).encode x := by
  have hback := decode_encode_cased h2 h36 upperCase upperCase x
  have hdigits : ∀ c ∈ (cased h2 h36 upperCase).encode x, isDigit n c := by
    by_contra hn
    obtain ⟨f, hf, -⟩ := decode_of_foreign h2 h36 upperCase hn
    rw [hf] at hback
    cases hback
  refine ⟨hdigits, ?_⟩
  rw [decode_of_digits h2 h36 upperCase hdigits] at hback
  rw [← encode_bytesOf h2 h36 upperCase hdigits, Except.ok.inj hback]

theorem isPositional_cased :
    IsPositional n upperCase o (.radix (cased h2 h36 upperCase)) where
  accepts t := by
    constructor
    · rintro ⟨x, hx⟩
      exact (digits_of_decode_radix h2 h36 upperCase o hx).1
    · intro ht
      exact ⟨_, decode_radix_of_digits h2 h36 upperCase o ht⟩
  refuses t ht := by
    obtain ⟨f, hf, hkind, hpos⟩ := decode_of_foreign h2 h36 upperCase ht
    refine ⟨f, ?_, hkind, hpos⟩
    simp only [Encoding.decode, Encoding.decodeBig, hf]
    rfl
  reads t x hx := by
    obtain ⟨ht, rfl⟩ := digits_of_decode_radix h2 h36 upperCase o hx
    obtain ⟨hlen, hdrop⟩ := digitsIn_split ht
    refine ⟨Magnitude.ofNat (numeral n (digitsIn (t.dropWhile (· == zero)))), ?_,
      shortest_ofNat _⟩
    rw [ByteOrder.logical_logical, bytesOf, hlen, hdrop]
  rewrites t x hx := by
    obtain ⟨ht, rfl⟩ := digits_of_decode_radix h2 h36 upperCase o hx
    rw [Encoding.encode, ByteOrder.logical_logical]
    exact encode_bytesOf h2 h36 upperCase ht
  inverse x := by
    simp only [Encoding.decode, Encoding.encode, Encoding.decodeBig, Encoding.encodeBig,
      decode_encode_cased h2 h36 upperCase upperCase]
    exact congrArg Except.ok (ByteOrder.logical_logical o x)
  bijective := by
    refine ⟨fun x _ => encode_mem_normal h2 h36 upperCase (o.logical x), ?_, ?_⟩
    · intro x _ y _ hxy
      have hx := decode_encode_cased h2 h36 upperCase upperCase (o.logical x)
      have hy := decode_encode_cased h2 h36 upperCase upperCase (o.logical y)
      have hxy' : (cased h2 h36 upperCase).encode (o.logical x) =
          (cased h2 h36 upperCase).encode (o.logical y) := hxy
      rw [hxy', hy] at hx
      rw [← ByteOrder.logical_logical o x, ← Except.ok.inj hx, ByteOrder.logical_logical]
    · rintro t ⟨ht, hfold⟩
      refine ⟨o.logical (bytesOf n (digitsIn t)), Set.mem_univ _, ?_⟩
      show (cased h2 h36 upperCase).encode (o.logical (o.logical _)) = t
      rw [ByteOrder.logical_logical, encode_bytesOf h2 h36 upperCase ht, hfold]

end Cased

/-- In every radix from 2 to 36, in either case and under either order, byte strings
and digit strings correspond one to one. -/
theorem exists_isPositional {n : Nat} (h2 : 2 ≤ n) (h36 : n ≤ 36) (upperCase : Bool)
    (o : ByteOrder) :
    ∃ e, Encoding.positional n upperCase = .ok e ∧ IsPositional n upperCase o e := by
  refine ⟨.radix (cased h2 h36 upperCase), ?_, isPositional_cased h2 h36 upperCase o⟩
  rw [Encoding.positional, build_eq h2 h36 upperCase]
  rfl

theorem exists_isPositional_36 :
    2 ≤ 36 ∧ 36 ≤ 36 ∧ ∃ e, Encoding.positional (36 : Nat) true = .ok e ∧
      IsPositional 36 true .little e :=
  ⟨by decide, by decide, exists_isPositional (by decide) (by decide) true .little⟩

end Octets.Radix
