import Octets.Encoding.Hex
import Octets.Proofs.Alphabet
/-!
# Hexadecimal text read back

A hexadecimal text is never taken for a marked one, as its second code point is a
digit (`marked_encode`); each byte comes back from its two digits (`decode_encode`).
-/

namespace Octets.Hex

open Alphabet

theorem hex_eq : Alphabet.hex = casedAlphabet 16 false := rfl

theorem symbols_eq (upperCase : Bool) :
    symbols upperCase = (casedAlphabet 16 upperCase).symbols := by
  cases upperCase <;> rfl

theorem digitOf?_symbol (upperCase : Bool) {n : Nat} (hn : n < 16) :
    Alphabet.hex.digitOf? (symbol upperCase n) = some n := by
  rw [hex_eq, symbol, symbols_eq]
  exact reads_casedAlphabet (by omega) upperCase false n
    (by rwa [radix_casedAlphabet (by omega)])

theorem decode_symbol (upperCase : Bool) {n : Nat} (hn : n < 16) (position : Int) :
    Alphabet.hex.decode [symbol upperCase n] position = .ok n := by
  rw [decode_singleton, digitOf?_symbol upperCase hn]
  rfl

theorem symbol_mem (upperCase : Bool) {n : Nat} (hn : n < 16) :
    symbol upperCase n ∈ symbols upperCase := by
  have hlen : n < (symbols upperCase).length := by
    rw [symbols_eq]
    exact Nat.lt_of_lt_of_eq hn (radix_casedAlphabet (by omega) upperCase).symm
  rw [symbol, List.getD_eq_getElem?_getD, List.getElem?_eq_getElem hlen]
  exact List.getElem_mem _

theorem encode_mem (upperCase : Bool) (x : Bytes) :
    ∀ c ∈ encode upperCase x, c ∈ symbols upperCase := by
  intro c hc
  obtain ⟨b, -, hc⟩ := List.mem_flatMap.mp hc
  have hb : b.toNat < 256 := b.toNat_lt
  rcases List.mem_cons.mp hc with rfl | hc
  · exact symbol_mem upperCase (by omega)
  · rw [List.mem_singleton.mp hc]
    exact symbol_mem upperCase (by omega)

/-- The letter of a mark is no hexadecimal digit. -/
theorem marked_encode (upperCase : Bool) (x : Bytes) : marked (encode upperCase x) = false := by
  cases x with
  | nil => rfl
  | cons b x =>
    have hd := digitOf?_symbol upperCase (Nat.mod_lt b.toNat (show 0 < 16 by decide))
    have hx : ∀ c ∈ ['x', 'X'], symbol upperCase (b.toNat % 16) ≠ CodePoint.ofChar c := by
      intro c hc h
      rw [h, hex_eq, digitOf?_casedAlphabet] at hd
      have hn : ((CodePoint.ofChar c).digitValue?.filter (· < 16)) = none := by
        simp only [List.mem_cons, List.not_mem_nil, or_false] at hc
        rcases hc with rfl | rfl <;> decide
      rw [hn] at hd
      cases hd
    have h1 := hx 'x' (by simp)
    have h2 := hx 'X' (by simp)
    simp [encode, marked, h1, h2]

theorem decodePairs_encode (upperCase : Bool) (x : Bytes) (i : Nat) :
    decodePairs i (encode upperCase x) = .ok x := by
  induction x generalizing i with
  | nil => rfl
  | cons b x ih =>
    have hb : b.toNat < 256 := b.toNat_lt
    have hpair : UInt8.ofNat (b.toNat / 16 * 16 + b.toNat % 16) = b := by
      rw [Nat.div_add_mod', UInt8.ofNat_toNat]
    have hrest := ih (i + 2)
    simp only [encode] at hrest
    simp only [encode, List.flatMap_cons, List.cons_append, List.nil_append, decodePairs,
      decode_symbol upperCase (show b.toNat / 16 < 16 by omega),
      decode_symbol upperCase (show b.toNat % 16 < 16 by omega), hrest, hpair,
      bind, Except.bind, pure, Except.pure]

theorem decode_encode (upperCase : Bool) (x : Bytes) : decode (encode upperCase x) = .ok x := by
  have heven : ¬ (2 * x.length) % 2 = 1 := by omega
  simp only [decode, marked_encode, Bool.false_eq_true, ↓reduceIte, List.drop_zero,
    length_encode, heven]
  exact decodePairs_encode upperCase x 0

end Octets.Hex
