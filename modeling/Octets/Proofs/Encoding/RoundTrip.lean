import Octets.Proofs.Encoding.Base32
import Octets.Proofs.Encoding.Base64
import Octets.Proofs.Encoding.Hex
import Octets.Proofs.Encoding.Radix
/-!
# Every encoding reads back what it writes

Under either order, any encoding of a family reads back what any other of that family
has written, whatever the case, the padding and the alphabet of the two.
-/

namespace Octets

namespace Encoding

/-- How an encoding is set up. -/
inductive Setup
  | hex (upperCase : Bool)
  | base32 (padding : Bool)
  | base64 (urlSafe padding : Bool)
  | radix (n : Int) (upperCase : Bool)

/-- The encoding of a setup. -/
def Setup.build : Setup → Outcome Encoding
  | hex upperCase => .ok (.hex upperCase)
  | base32 padding => .ok (.base32 padding)
  | base64 urlSafe padding => .ok (.base64 urlSafe padding)
  | radix n upperCase => positional n upperCase

/-- Setups of one family, which differ in how they write alone. -/
inductive Setup.Alike : Setup → Setup → Prop
  | hex (upperCase upperCase' : Bool) : Alike (.hex upperCase) (.hex upperCase')
  | base32 (padding padding' : Bool) : Alike (.base32 padding) (.base32 padding')
  | base64 (urlSafe padding urlSafe' padding' : Bool) :
      Alike (.base64 urlSafe padding) (.base64 urlSafe' padding')
  | radix {n : Int} (h2 : 2 ≤ n) (h36 : n ≤ 36) (upperCase upperCase' : Bool) :
      Alike (.radix n upperCase) (.radix n upperCase')

/-- Whether a code point is one that the encoding writes. -/
def Writes : Encoding → CodePoint → Prop
  | .hex upperCase, c => c ∈ Hex.symbols upperCase
  | .base32 padding, c => c ∈ Alphabet.base32.symbols ∨ padding = true ∧ c = Base32.padSymbol
  | .base64 urlSafe padding, c =>
    c ∈ (Base64.alphabet urlSafe).symbols ∨ padding = true ∧ c = Base64.padSymbol
  | .radix r, c => c ∈ r.alphabet.symbols

/-- Reading under an order undoes the order that the text was written under. -/
theorem decode_encode_of_big (e e' : Encoding)
    (h : ∀ x, e'.decodeBig (e.encodeBig x) = .ok x) (x : Bytes) (o : ByteOrder) :
    e'.decode (e.encode x o) o = .ok x := by
  rw [decode, encode, h]
  exact congrArg Except.ok (ByteOrder.logical_logical o x)

/-- Every setup of a family can be built and writes symbols of its own alone, and every
other of the family reads the bytes back. -/
theorem decode_encode_alike {s s' : Setup} (h : s.Alike s') (x : Bytes) (o : ByteOrder) :
    ∃ e e', s.build = .ok e ∧ s'.build = .ok e' ∧ (∀ c ∈ e.encode x o, e.Writes c) ∧
      e'.decode (e.encode x o) o = .ok x := by
  cases h with
  | hex upperCase upperCase' =>
    exact ⟨.hex upperCase, .hex upperCase', rfl, rfl, Hex.encode_mem upperCase _,
      decode_encode_of_big (.hex upperCase) (.hex upperCase') (Hex.decode_encode upperCase) x o⟩
  | base32 padding padding' =>
    exact ⟨.base32 padding, .base32 padding', rfl, rfl, Base32.encode_mem padding _,
      decode_encode_of_big (.base32 padding) (.base32 padding') (Base32.decode_encode padding)
        x o⟩
  | base64 urlSafe padding urlSafe' padding' =>
    exact ⟨.base64 urlSafe padding, .base64 urlSafe' padding', rfl, rfl,
      Base64.encode_mem urlSafe padding _,
      decode_encode_of_big (.base64 urlSafe padding) (.base64 urlSafe' padding')
        (Base64.decode_encode urlSafe padding) x o⟩
  | @radix n h2 h36 upperCase upperCase' =>
    obtain ⟨m, rfl⟩ := Int.eq_ofNat_of_zero_le (show 0 ≤ n by omega)
    have hm2 : 2 ≤ m := by omega
    have hm36 : m ≤ 36 := by omega
    have hback := Radix.decode_encode_cased hm2 hm36 upperCase upperCase'
    refine ⟨.radix (Radix.cased hm2 hm36 upperCase), .radix (Radix.cased hm2 hm36 upperCase'),
      ?_, ?_, Radix.encode_mem_cased hm2 hm36 upperCase _,
      decode_encode_of_big (.radix _) (.radix _) hback x o⟩
    · rw [Setup.build, positional, Radix.build_eq hm2 hm36]
      rfl
    · rw [Setup.build, positional, Radix.build_eq hm2 hm36]
      rfl

theorem decode_encode_alike_36 :
    (Setup.radix 36 true).Alike (.radix 36 false) ∧
      ∃ e e', positional 36 true = .ok e ∧ positional 36 false = .ok e' ∧
        (∀ c ∈ e.encode [0, 255, 0] .little, e.Writes c) ∧
        e'.decode (e.encode [0, 255, 0] .little) .little = .ok [0, 255, 0] :=
  ⟨.radix (by decide) (by decide) true false,
    decode_encode_alike (.radix (by decide) (by decide) true false) [0, 255, 0] .little⟩

end Encoding
end Octets
