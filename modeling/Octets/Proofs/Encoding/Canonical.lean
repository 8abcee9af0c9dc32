import Mathlib.Data.List.Induction
import Mathlib.Data.List.ModifyLast
import Octets.Proofs.Encoding.Base32Grammar
import Octets.Proofs.Encoding.Base64Grammar
import Octets.Proofs.Encoding.BitText
import Octets.Proofs.Encoding.RoundTrip
import Octets.Proofs.Outcome
/-!
# Canonical texts

Many texts are read as the same bytes: they differ in case, in padding and blanks, in the
alphabet, and in the bits of the last symbol that fill no byte. The canonical form of a text
settles all of these, by symbols alone. What is written for the bytes of a text is its
canonical form (`Encoding.written_canonical`); so texts with the same bytes are texts with the
same canonical form, and a text is written at all when it is read and canonical.

For Base32 and Base64, the groups of the whole bytes that digits fill are these digits, the
spare bits of the last one cleared (`BitString.groups_whole`).
-/

namespace Octets

/-! ## Spare bits -/

/-- A digit with its `k` lowest bits cleared. -/
def cleared (k d : Nat) : Nat := d / 2 ^ k * 2 ^ k

theorem cleared_lt {k d g : Nat} (h : d < 2 ^ g) : cleared k d < 2 ^ g :=
  Nat.lt_of_le_of_lt (Nat.div_mul_le_self d _) h

/-- The symbol of a digit with its `k` lowest bits cleared; `value?` reads symbols. -/
def clearedSymbol (a : Alphabet) (value? : CodePoint → Option Nat) (k : Nat) (c : CodePoint) :
    CodePoint :=
  (value? c).elim c fun d => a.symbols.getD (cleared k d) 0

/-- Symbols of `g` bits each, with the bits cleared that fill no byte, in whole blocks of `c`
symbols if padding is on. -/
def completed (a : Alphabet) (value? : CodePoint → Option Nat) (g c : Nat) (padding : Bool)
    (symbols : Text) : Text :=
  symbols.modifyLast (clearedSymbol a value? (g * symbols.length % 8)) ++
    if padding then List.replicate (shortfall c symbols.length) padSymbol else []

theorem length_modifyLast {α : Type} (f : α → α) (l : List α) :
    (l.modifyLast f).length = l.length := by
  rcases List.eq_nil_or_concat l with rfl | ⟨l, a, rfl⟩
  · rfl
  · simp [List.modifyLast_concat]

theorem map_modifyLast {α β : Type} {f : α → α} {f' : β → β} {g : α → β} {l : List α}
    (h : ∀ a ∈ l, g (f a) = f' (g a)) : (l.modifyLast f).map g = (l.map g).modifyLast f' := by
  rcases List.eq_nil_or_concat l with rfl | ⟨l, a, rfl⟩
  · rfl
  · simp [List.modifyLast_concat, h a]

/-- What is left of whole groups when less than one is cut off is filled up again. -/
theorem shortfall_sub {g n s : Nat} (hs : s < g) (hn : 0 < n) : shortfall g (g * n - s) = s := by
  obtain ⟨m, rfl⟩ : ∃ m, n = m + 1 := Nat.exists_eq_succ_of_ne_zero (Nat.ne_of_gt hn)
  rw [Nat.mul_succ, Nat.add_sub_assoc (Nat.le_of_lt hs), shortfall_add (Nat.mul_mod_right g m)]
  by_cases h0 : s = 0
  · simp [h0, shortfall]
  · have hlt : g - s < g := by omega
    rw [shortfall, Nat.mod_eq_of_lt hlt, Nat.sub_sub_self (Nat.le_of_lt hs), Nat.mod_eq_of_lt hs]

namespace BitString

/-- Cut below its `s` lowest bits and filled up again, a digit has them cleared. -/
theorem ofNat_cleared {g s : Nat} (hs : s ≤ g) (d : Nat) :
    ofNat g (cleared s d) = (ofNat g d).take (g - s) ++ List.replicate s false := by
  have hzero := ofNat_add (Nat.two_pow_pos s) (g - s) (d / 2 ^ s)
  have hlow := ofNat_add (Nat.mod_lt d (Nat.two_pow_pos s)) (g - s) (d / 2 ^ s)
  rw [Nat.div_add_mod', Nat.sub_add_cancel hs] at hlow
  rw [Nat.add_zero, Nat.sub_add_cancel hs, ofNat_zero] at hzero
  rw [cleared, hzero, hlow, List.take_left' (length_ofNat _ _)]

/-- Digits that leave less than one of them over have, the bits left over being cleared, the
groups of the bytes that they fill. -/
theorem groups_whole {g : Nat} {digits : List Nat} (hd : ∀ d ∈ digits, d < 2 ^ g)
    (hspare : g * digits.length % 8 < g) :
    groups g (whole g digits) = digits.modifyLast (cleared (g * digits.length % 8)) := by
  have hg : 0 < g := Nat.zero_lt_of_lt hspare
  rcases List.eq_nil_or_concat digits with rfl | ⟨digits, d, rfl⟩
  · simp [groups, whole, filled, ofDigits, shortfall, chunks_nil]
    rfl
  · rw [List.concat_eq_append] at hd hspare ⊢
    have hcut : 8 * (g * (digits ++ [d]).length / 8) =
        (ofDigits g digits).length + (g - g * (digits ++ [d]).length % 8) := by
      rw [length_ofDigits]
      simp only [List.length_append, List.length_singleton, Nat.mul_succ] at hspare ⊢
      omega
    have hfill : shortfall g (whole g (digits ++ [d])).length = g * (digits ++ [d]).length % 8 := by
      have hwhole : (whole g (digits ++ [d])).length =
          g * (digits ++ [d]).length - g * (digits ++ [d]).length % 8 := by
        rw [length_whole]
        omega
      rw [hwhole]
      exact shortfall_sub hspare (by simp)
    generalize g * (digits ++ [d]).length % 8 = s at *
    rw [List.modifyLast_concat]
    apply groups_eq hg
    · intro e he
      rcases List.mem_append.mp he with he | he
      · exact hd e (List.mem_append_left _ he)
      · rw [List.mem_singleton.mp he]
        exact cleared_lt (hd d (by simp))
    · have hnil : ofDigits g [] = [] := rfl
      rw [filled, hfill, whole, hcut, ofDigits_append, ofDigits_append, ofDigits_cons,
        ofDigits_cons, hnil, List.append_nil, List.append_nil, List.take_length_add_append,
        ofNat_cleared (Nat.le_of_lt hspare), List.append_assoc]

end BitString

/-- Digits with their spare bits cleared are spelled as the symbols with theirs cleared. -/
theorem spell_modifyLast {a : Alphabet} {value? : CodePoint → Option Nat} {g : Nat}
    (hread : ∀ d < 2 ^ g, value? (a.symbols.getD d 0) = some d) {digits : List Nat}
    (hd : ∀ d ∈ digits, d < 2 ^ g) (k : Nat) : a.spell (digits.modifyLast (cleared k)) =
      (a.spell digits).modifyLast (clearedSymbol a value? k) := by
  apply map_modifyLast
  intro d hm
  rw [clearedSymbol, hread d (hd d hm), Option.elim_some]

/-- Symbols that the alphabet has under another name are spelled by it under its own. -/
theorem spell_filterMap {a : Alphabet} {value? : CodePoint → Option Nat}
    {f : CodePoint → CodePoint} {t : Text}
    (h : ∀ c ∈ t, ∃ d, value? c = some d ∧ a.symbols.getD d 0 = f c) :
    a.spell (t.filterMap value?) = t.map f := by
  induction t with
  | nil => rfl
  | cons c t ih =>
    obtain ⟨d, hd, hsymbol⟩ := h c (List.mem_cons_self ..)
    have hrest := ih fun b hb => h b (List.mem_cons_of_mem _ hb)
    rw [Alphabet.spell] at hrest ⊢
    rw [List.filterMap_cons_some hd, List.map_cons, hsymbol, hrest, List.map_cons]

/-! ## Texts -/

/-- How the texts that are read go with those that are written, and with a form of their own. -/
structure Canonical (read : Text → Outcome Bytes) (write : Bytes → Text)
    (canonical : Text → Text) : Prop where
  /-- What was read is written in canonical form. -/
  rewritten : ∀ t x, read t = .ok x → write x = canonical t
  /-- Two texts are read alike exactly if they have the same canonical form. -/
  same : ∀ t t' x x', read t = .ok x → read t' = .ok x' → (x = x' ↔ canonical t = canonical t')
  /-- The texts that are written are those that are read and canonical. -/
  written : ∀ t, (∃ x, write x = t) ↔ (∃ x, read t = .ok x) ∧ canonical t = t

theorem Canonical.of_inverse {read : Text → Outcome Bytes} {write : Bytes → Text}
    {canonical : Text → Text} (hinverse : ∀ x, read (write x) = .ok x)
    (hrewritten : ∀ t x, read t = .ok x → write x = canonical t) :
    Canonical read write canonical where
  rewritten := hrewritten
  same t t' x x' hx hx' := by
    rw [← hrewritten t x hx, ← hrewritten t' x' hx']
    constructor
    · exact congrArg write
    · intro h
      have hback := hinverse x
      rw [h, hinverse x'] at hback
      exact (Except.ok.inj hback).symm
  written t := by
    constructor
    · rintro ⟨x, rfl⟩
      exact ⟨⟨x, hinverse x⟩, (hrewritten _ x (hinverse x)).symm⟩
    · rintro ⟨⟨x, hx⟩, ht⟩
      exact ⟨x, (hrewritten t x hx).trans ht⟩

namespace Hex

/-- The text without the mark that it may begin with. -/
def unmarked (t : Text) : Text := t.drop (if marked t then 2 else 0)

/-- The digits without a mark, the letters in one case. -/
def canonical (upperCase : Bool) (t : Text) : Text := Radix.folded upperCase (unmarked t)

theorem symbol_of_decode {c : CodePoint} {position : Int} {d : Nat}
    (h : Alphabet.hex.decode [c] position = .ok d) (upperCase : Bool) :
    d < 16 ∧ symbol upperCase d = if upperCase then c.asciiUpper else c.asciiLower := by
  rw [Alphabet.decode_singleton, hex_eq, Alphabet.digitOf?_casedAlphabet] at h
  cases hc : c.digitValue?.filter (· < 16) with
  | none =>
    rw [hc] at h
    cases h
  | some e =>
    rw [hc] at h
    cases h
    obtain ⟨hvalue, hlt⟩ := Option.filter_eq_some_iff.mp hc
    have hlt : d < 16 := of_decide_eq_true hlt
    refine ⟨hlt, ?_⟩
    rw [symbol, symbols_eq, Alphabet.getD_casedAlphabet hlt,
      Radix.getD_digitValue? upperCase hvalue]

theorem folded_cons (upperCase : Bool) (c : CodePoint) (t : Text) :
    Radix.folded upperCase (c :: t) =
      (if upperCase then c.asciiUpper else c.asciiLower) :: Radix.folded upperCase t := by
  cases upperCase with
  | true => rfl
  | false => rfl

/-- Pairs of digits are written as they were read, in one case. -/
theorem encode_of_decodePairs {i : Nat} {t : Text} {x : Bytes} (h : decodePairs i t = .ok x)
    (heven : t.length % 2 = 0) (upperCase : Bool) :
    encode upperCase x = Radix.folded upperCase t := by
  induction t using List.twoStepInduction generalizing i x with
  | nil =>
    cases h
    cases upperCase <;> rfl
  | singleton c => cases heven
  | cons_cons a b t ih _ =>
    obtain ⟨high, hhigh, h⟩ := exists_of_bind_eq_ok h
    obtain ⟨low, hlow, h⟩ := exists_of_bind_eq_ok h
    obtain ⟨rest, hrest, h⟩ := exists_of_bind_eq_ok h
    cases h
    obtain ⟨hhigh, hsymbol⟩ := symbol_of_decode hhigh upperCase
    obtain ⟨hlow, hsymbol'⟩ := symbol_of_decode hlow upperCase
    have hbyte : (UInt8.ofNat (high * 16 + low)).toNat = high * 16 + low := by
      rw [UInt8.toNat_ofNat', Nat.mod_eq_of_lt (by omega)]
    have hdiv : (high * 16 + low) / 16 = high := by omega
    have hmod : (high * 16 + low) % 16 = low := by omega
    have hparity : t.length % 2 = 0 := by
      simp only [List.length_cons] at heven
      omega
    have htail := ih hrest hparity
    rw [encode] at htail
    rw [encode, List.flatMap_cons, hbyte, hdiv, hmod, htail, folded_cons, folded_cons, hsymbol,
      hsymbol']
    rfl

theorem encode_of_decode {t : Text} {x : Bytes} (h : decode t = .ok x) (upperCase : Bool) :
    encode upperCase x = canonical upperCase t := by
  rw [decode] at h
  by_cases hodd : (t.drop (if marked t then 2 else 0)).length % 2 = 1
  · simp only [hodd, ↓reduceIte] at h
    cases h
  · simp only [hodd, ↓reduceIte] at h
    exact encode_of_decodePairs h (by omega) upperCase

end Hex

namespace Base32

/-- The symbols before the padding, as capitals, completed. -/
def canonical (padding : Bool) (t : Text) : Text :=
  completed .base32 CodePoint.quintet? 5 8 padding (unpad t).asciiUpper

theorem quintet?_symbol : ∀ d < 2 ^ 5, (Alphabet.base32.symbols.getD d 0).quintet? = some d := by
  decide

/-- The symbol of a value is the symbol that had it, as a capital. -/
theorem getD_quintet? {c : CodePoint} {d : Nat} (h : c.quintet? = some d) :
    Alphabet.base32.symbols.getD d 0 = c.asciiUpper := by
  have hascii : ∀ n : Fin 128, ∀ d ∈ (CodePoint.ofNat n).quintet?,
      Alphabet.base32.symbols.getD d 0 = (CodePoint.ofNat n).asciiUpper := by decide +kernel
  apply CodePoint.forall_ascii
    (P := fun c => ∀ d ∈ c.quintet?, Alphabet.base32.symbols.getD d 0 = c.asciiUpper) hascii c
  · by_contra hc
    unfold CodePoint.quintet? at h
    rw [if_neg (by omega), if_neg (by omega), if_neg (by omega)] at h
    cases h
  · exact h

theorem spell_quintets {t : Text} (ht : ∀ c ∈ t, c.quintet?.isSome) :
    Alphabet.base32.spell (t.filterMap CodePoint.quintet?) = t.asciiUpper := by
  apply spell_filterMap
  intro c hc
  obtain ⟨d, hd⟩ := Option.isSome_iff_exists.mp (ht c hc)
  exact ⟨d, hd, getD_quintet? hd⟩

/-- What is written for bytes that are the bits of symbols. -/
theorem encode_of_decode {t : Text} {x : Bytes} (h : decode t = .ok x) (padding : Bool) :
    encode padding x = canonical padding t := by
  obtain ⟨k, ht, hu⟩ := exists_unpad_append t
  rw [← ht] at h
  obtain ⟨htail, hs⟩ := symbols_of_decode hu k h
  rw [decode_of_symbols hu k htail hs, Except.ok.injEq] at h
  have hlt := lt_of_mem_quintets (unpad t)
  have hlength := length_quintets hs
  have hbits := ofBytes_decodeBlocks hlt
  rw [h] at hbits
  have hspare : 5 * ((unpad t).filterMap CodePoint.quintet?).length % 8 < 5 := by
    rw [hlength]
    simp only [validTails, List.mem_cons, List.not_mem_nil, or_false] at htail
    omega
  have hdigits := BitString.groups_eq (by decide) (digits_lt x) (ofDigits_digits x)
  rw [hbits, BitString.groups_whole hlt hspare, hlength] at hdigits
  rw [encode_eq, missing_eq, ← hdigits, spell_modifyLast quintet?_symbol hlt, spell_quintets hs,
    length_modifyLast, hlength]
  simp [canonical, completed, Text.asciiUpper]
  rfl

end Base32

namespace Base64

/-- The symbol that the encoder's alphabet has in place of a symbol of either. -/
def mapped (urlSafe : Bool) (c : CodePoint) : CodePoint :=
  if c = CodePoint.ofChar '+' ∨ c = CodePoint.ofChar '-' then
    CodePoint.ofChar (if urlSafe then '-' else '+')
  else if c = CodePoint.ofChar '/' ∨ c = CodePoint.ofChar '_' then
    CodePoint.ofChar (if urlSafe then '_' else '/')
  else c

/-- The text without blanks and padding, in the encoder's alphabet, completed. -/
def canonical (urlSafe padding : Bool) (t : Text) : Text :=
  completed (alphabet urlSafe) CodePoint.sextet? 6 4 padding
    (((compact t).filter (· ≠ padSymbol)).map (mapped urlSafe))

theorem sextet?_symbol (urlSafe : Bool) :
    ∀ d < 2 ^ 6, ((alphabet urlSafe).symbols.getD d 0).sextet? = some d := by
  intro d hd
  rw [← digit?_eq, digit?_symbol urlSafe d hd]

/-- The symbol of a value is the symbol that had it, in the encoder's alphabet. -/
theorem getD_sextet? (urlSafe : Bool) {c : CodePoint} {d : Nat} (h : c.sextet? = some d) :
    (alphabet urlSafe).symbols.getD d 0 = mapped urlSafe c := by
  have hascii : ∀ n : Fin 128, ∀ d ∈ (CodePoint.ofNat n).sextet?,
      (alphabet urlSafe).symbols.getD d 0 = mapped urlSafe (CodePoint.ofNat n) := by
    cases urlSafe <;> decide +kernel
  apply CodePoint.forall_ascii
    (P := fun c => ∀ d ∈ c.sextet?, (alphabet urlSafe).symbols.getD d 0 = mapped urlSafe c)
    hascii c
  · by_contra hc
    have hnone : (Alphabet.base64.table ++ Alphabet.base64Url.table).lookup [c] = none :=
      Alphabet.lookup_of_not_ascii (by decide) hc
    rw [← digit?_eq, digit?, hnone] at h
    cases h
  · exact h

theorem Writes.filter_eq {t u : Text} (h : Writes t u) :
    (compact t).filter (· ≠ padSymbol) = u := by
  obtain ⟨k, hk⟩ := h.padded
  have hplain : ∀ c ∈ u, c ≠ padSymbol := by
    rintro c hc rfl
    have hs := h.symbols padSymbol hc
    rw [sextet?_padSymbol] at hs
    cases hs
  rw [hk, List.filter_append, List.filter_eq_self.mpr (by simpa using hplain)]
  simp

theorem encode_of_decode {t : Text} {x : Bytes} (h : decode t = .ok x) (urlSafe padding : Bool) :
    encode urlSafe padding x = canonical urlSafe padding t := by
  obtain ⟨u, hu, hmod⟩ := exists_writes_of_decode h
  have hx := (digits_of_decode hu h).2
  have hlt := lt_of_mem_sextets u
  have hbits := ofBytes_decodeDigits hlt
  have hspare : 6 * (u.filterMap CodePoint.sextet?).length % 8 < 6 := by
    rw [hu.length_sextets]
    omega
  have hdigits := BitString.groups_eq (by decide) (encodeDigits_lt x) (ofDigits_encodeDigits x)
  rw [← hx, hbits, BitString.groups_whole hlt hspare, hx, hu.length_sextets] at hdigits
  have hspell : (alphabet urlSafe).spell (u.filterMap CodePoint.sextet?) =
      u.map (mapped urlSafe) := by
    apply spell_filterMap
    intro c hc
    obtain ⟨d, hd⟩ := Option.isSome_iff_exists.mp (hu.symbols c hc)
    exact ⟨d, hd, getD_sextet? urlSafe hd⟩
  rw [encode, missing_eq, ← hdigits, spell_modifyLast (sextet?_symbol urlSafe) hlt, hspell,
    length_modifyLast, hu.length_sextets, canonical, hu.filter_eq, completed, List.length_map]
  rfl

end Base64

namespace Encoding

/-- The order of the bytes does not matter, if it is the same in reading and writing. -/
theorem canonical_of_big (e e' : Encoding) {canonical : Text → Text}
    (hinverse : ∀ x, e'.decodeBig (e.encodeBig x) = .ok x)
    (hrewritten : ∀ t x, e'.decodeBig t = .ok x → e.encodeBig x = canonical t)
    (o : ByteOrder) : Canonical (e'.decode · o) (e.encode · o) canonical := by
  apply Canonical.of_inverse
  · intro x
    exact decode_encode_of_big e e' hinverse x o
  · intro t x hx
    obtain ⟨y, hy, rfl⟩ := map_eq_ok.mp hx
    show e.encodeBig (o.logical (o.logical y)) = canonical t
    rw [ByteOrder.logical_logical]
    exact hrewritten t y hy

/-- Whatever the encoding that reads a text, one of its family writes the bytes in the
canonical form of the text. -/
theorem written_canonical (o : ByteOrder) :
    (∀ upperCase upperCase', Canonical ((Encoding.hex upperCase').decode · o)
      ((Encoding.hex upperCase).encode · o) (Hex.canonical upperCase)) ∧
    (∀ padding padding', Canonical ((Encoding.base32 padding').decode · o)
      ((Encoding.base32 padding).encode · o) (Base32.canonical padding)) ∧
    (∀ urlSafe padding urlSafe' padding',
      Canonical ((Encoding.base64 urlSafe' padding').decode · o)
        ((Encoding.base64 urlSafe padding).encode · o) (Base64.canonical urlSafe padding)) := by
  refine ⟨?_, ?_, ?_⟩
  · intro upperCase upperCase'
    exact canonical_of_big (.hex upperCase) (.hex upperCase') (Hex.decode_encode upperCase)
      (fun _ _ h => Hex.encode_of_decode h upperCase) o
  · intro padding padding'
    exact canonical_of_big (.base32 padding) (.base32 padding') (Base32.decode_encode padding)
      (fun _ _ h => Base32.encode_of_decode h padding) o
  · intro urlSafe padding urlSafe' padding'
    exact canonical_of_big (.base64 urlSafe padding) (.base64 urlSafe' padding')
      (Base64.decode_encode urlSafe padding)
      (fun _ _ h => Base64.encode_of_decode h urlSafe padding) o

end Encoding

end Octets
