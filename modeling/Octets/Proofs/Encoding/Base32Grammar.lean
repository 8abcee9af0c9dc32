import Octets.Encoding.Basic
import Octets.Proofs.BitString
import Octets.Proofs.Encoding.Base32
/-!
# Which texts are Base32

The body of a text is what stands before the padding at its end. A text is read exactly
when its body has the length of whole bytes and consists of symbols (`decode_append`),
and then the bytes are the bits of the symbols, as far as they fill bytes
(`ofBytes_decodeBlocks`). A wrong length is refused before a foreign symbol is.
-/

namespace Octets

/-- The value of a Base32 symbol: a letter, in either case, or a digit from 2 to 7. -/
def CodePoint.quintet? (c : CodePoint) : Option Nat :=
  if 0x41 ≤ c.val ∧ c.val ≤ 0x5A then some (c.val - 0x41)
  else if 0x61 ≤ c.val ∧ c.val ≤ 0x7A then some (c.val - 0x61)
  else if 0x32 ≤ c.val ∧ c.val ≤ 0x37 then some (c.val - 0x18)
  else none

namespace Base32

/-! ## Symbols -/

/-- The alphabet reads a symbol as its value, and nothing else. -/
theorem digitOf?_base32 : Alphabet.base32.digitOf? = CodePoint.quintet? := by
  apply Alphabet.lookup_eq_of_ascii
  case h => decide
  case hascii => decide +kernel
  case hnone =>
    intro c hc
    unfold CodePoint.quintet?
    rw [if_neg (by omega), if_neg (by omega), if_neg (by omega)]

theorem quintet?_lt {c : CodePoint} {d : Nat} (h : c.quintet? = some d) : d < 32 := by
  unfold CodePoint.quintet? at h
  split at h
  · cases h
    omega
  · split at h
    · cases h
      omega
    · split at h
      · cases h
        omega
      · cases h

theorem lt_of_mem_quintets (t : Text) : ∀ d ∈ t.filterMap CodePoint.quintet?, d < 32 := by
  intro d hd
  obtain ⟨c, -, hc⟩ := List.mem_filterMap.mp hd
  exact quintet?_lt hc

theorem length_quintets {t : Text} (ht : ∀ c ∈ t, c.quintet?.isSome) :
    (t.filterMap CodePoint.quintet?).length = t.length :=
  List.filterMap_length_eq_length.mpr ht

/-! ## Blocks -/

/-- The number that a block of digits writes, moved to the high end of 40 bits. -/
def blockValue (digits : List Nat) : Nat :=
  digits.foldl (fun v d => v * 32 + d) 0 * 32 ^ (8 - digits.length)

theorem decodeBlock_eq (digits : List Nat) : decodeBlock digits =
    (Bytes.ofNat 5 (blockValue digits)).take (digits.length * 5 / 8) := rfl

variable {digits : List Nat}

theorem blockValue_eq (digits : List Nat) : blockValue digits =
    digits.foldl (fun v d => v * 2 ^ 5 + d) 0 * 2 ^ (5 * (8 - digits.length)) := by
  rw [Nat.pow_mul]
  rfl

/-- A block never exceeds its five bytes. -/
theorem blockValue_lt (hd : ∀ d ∈ digits, d < 32) (hlen : digits.length ≤ 8) :
    blockValue digits < 256 ^ 5 := by
  have hlt := BitString.foldl_lt (w := 5) hd 0
  calc blockValue digits
      = digits.foldl (fun v d => v * 2 ^ 5 + d) 0 * 2 ^ (5 * (8 - digits.length)) :=
        blockValue_eq digits
    _ < (0 + 1) * 2 ^ (5 * digits.length) * 2 ^ (5 * (8 - digits.length)) :=
        Nat.mul_lt_mul_of_pos_right hlt (Nat.two_pow_pos _)
    _ = 2 ^ (5 * digits.length + 5 * (8 - digits.length)) := by
        rw [Nat.zero_add, Nat.one_mul, Nat.pow_add]
    _ = 256 ^ 5 := by
        rw [show 5 * digits.length + 5 * (8 - digits.length) = 40 by omega]

/-- The bytes of a block are its bits, as far as they fill bytes. -/
theorem ofBytes_decodeBlock (hd : ∀ d ∈ digits, d < 32) (hlen : digits.length ≤ 8) :
    BitString.ofBytes (decodeBlock digits) = BitString.whole 5 digits := by
  have hwidth : 8 * 5 = 5 * digits.length + 5 * (8 - digits.length) := by omega
  rw [decodeBlock_eq, BitString.ofBytes_take, BitString.ofBytes_ofNat, blockValue_eq, hwidth,
    Nat.mul_comm digits.length, BitString.take_ofNat_whole hd]

/-- The bytes of all blocks are the bits of the digits, as far as they fill bytes. -/
theorem ofBytes_decodeBlocks (hd : ∀ d ∈ digits, d < 32) :
    BitString.ofBytes ((chunks 7 digits).flatMap decodeBlock) = BitString.whole 5 digits := by
  fun_induction chunks 7 digits with
  | case1 => rfl
  | case2 a l ih =>
    have hsplit : a :: l = (a :: l.take 7) ++ l.drop 7 := by simp
    have hblock : ∀ d ∈ a :: l.take 7, d < 32 :=
      fun d hm => hd d (hsplit ▸ List.mem_append_left _ hm)
    have hrest : ∀ d ∈ l.drop 7, d < 32 :=
      fun d hm => hd d (hsplit ▸ List.mem_append_right _ hm)
    have hle : (a :: l.take 7).length ≤ 8 := by
      rw [List.length_cons, List.length_take]
      omega
    rw [List.flatMap_cons, BitString.ofBytes_append, ofBytes_decodeBlock hblock hle, ih hrest]
    by_cases hl : 7 ≤ l.length
    · have hfull : 5 * (a :: l.take 7).length = 8 * 5 := by simp [hl]
      rw [BitString.whole_block hfull, ← BitString.whole_append hfull, ← hsplit]
    · have htake : l.take 7 = l := List.take_of_length_le (by omega)
      have hdrop : l.drop 7 = [] := List.drop_eq_nil_of_le (by omega)
      rw [htake, hdrop]
      exact List.append_nil _

/-! ## Texts -/

theorem exists_unpad_append (t : Text) :
    ∃ k, unpad t ++ List.replicate k padSymbol = t ∧ (unpad t).getLast? ≠ some padSymbol := by
  refine ⟨_, dropWhile_reverse_append padSymbol t, ?_⟩
  rw [unpad, List.getLast?_reverse]
  exact head?_dropWhile_ne padSymbol t.reverse

section Body

variable {u : Text} (hu : u.getLast? ≠ some padSymbol) (k : Nat)

include hu

theorem decode_append : decode (u ++ List.replicate k padSymbol) =
    if validTails.contains (u.length % 8) then
      (Alphabet.base32.readFrom 0 u).map fun digits => (chunks 7 digits).flatMap decodeBlock
    else .error (.base32Length u.length) := by
  rw [decode, unpad_append hu k]

theorem decode_of_length (htail : u.length % 8 ∉ validTails) :
    decode (u ++ List.replicate k padSymbol) = .error (.base32Length u.length) := by
  rw [decode_append hu, if_neg]
  rwa [List.contains_iff_mem]

theorem decode_of_symbols (htail : u.length % 8 ∈ validTails)
    (hs : ∀ c ∈ u, c.quintet?.isSome) : decode (u ++ List.replicate k padSymbol) =
      .ok ((chunks 7 (u.filterMap CodePoint.quintet?)).flatMap decodeBlock) := by
  rw [← digitOf?_base32] at hs ⊢
  rw [decode_append hu, if_pos (List.contains_iff_mem.mpr htail), Alphabet.readFrom_of_all hs]
  rfl

theorem decode_of_foreign (htail : u.length % 8 ∈ validTails)
    (hs : ¬ ∀ c ∈ u, c.quintet?.isSome) :
    ∃ f, decode (u ++ List.replicate k padSymbol) = .error f ∧ f.kind = .format ∧
      f.position = u.findIdx fun c => c.quintet?.isNone := by
  rw [← digitOf?_base32] at hs ⊢
  obtain ⟨c, hread⟩ := Alphabet.readFrom_of_foreign hs 0
  rw [Nat.zero_add] at hread
  refine ⟨.notADigit [c] Alphabet.base32.radix _, ?_, rfl, rfl⟩
  rw [decode_append hu, if_pos (List.contains_iff_mem.mpr htail), hread]
  rfl

theorem symbols_of_decode {x : Bytes} (h : decode (u ++ List.replicate k padSymbol) = .ok x) :
    u.length % 8 ∈ validTails ∧ ∀ c ∈ u, c.quintet?.isSome := by
  by_cases htail : u.length % 8 ∈ validTails
  · by_cases hs : ∀ c ∈ u, c.quintet?.isSome
    · exact ⟨htail, hs⟩
    · obtain ⟨f, hf, -⟩ := decode_of_foreign hu k htail hs
      rw [hf] at h
      cases h
  · rw [decode_of_length hu k htail] at h
    cases h

end Body

/-- What reading makes of a text `t` that is the body `u` and padding after it. -/
structure ReadsBody (read : Text → Outcome Bytes) (t u : Text) : Prop where
  /-- How much padding there is does not matter. -/
  any_padding : ∀ n, read (u ++ List.replicate n padSymbol) = read t
  accepts : (∃ x, read t = .ok x) ↔
    u.length % 8 ∈ [0, 2, 4, 5, 7] ∧ ∀ c ∈ u, c.quintet?.isSome
  /-- What is read are the bits of the symbols, without those that fill no byte. -/
  bits : ∀ x, read t = .ok x → x.length = 5 * u.length / 8 ∧ BitString.ofBytes x =
    (BitString.ofDigits 5 (u.filterMap CodePoint.quintet?)).take (8 * x.length)
  /-- No block is cut off where it is written in five bytes. -/
  fits : ∀ block ∈ chunks 7 (u.filterMap CodePoint.quintet?), decodeBlock block =
    (Bytes.ofNat 5 (blockValue block)).take (block.length * 5 / 8) ∧ blockValue block < 256 ^ 5
  /-- A wrong length is refused whatever the symbols are. -/
  refuses_length : u.length % 8 ∉ [0, 2, 4, 5, 7] →
    ∃ f, read t = .error f ∧ f.kind = .format ∧ f.position = -1
  /-- Else the first code point of the body that is no symbol is named. -/
  refuses_symbol : u.length % 8 ∈ [0, 2, 4, 5, 7] → ¬ (∀ c ∈ u, c.quintet?.isSome) →
    ∃ f, read t = .error f ∧ f.kind = .format ∧
      f.position = u.findIdx fun c => c.quintet?.isNone

theorem readsBody_append {u : Text} (hu : u.getLast? ≠ some padSymbol) (k : Nat) :
    ReadsBody decode (u ++ List.replicate k padSymbol) u where
  any_padding n := by rw [decode_append hu, decode_append hu]
  accepts := by
    constructor
    · rintro ⟨x, hx⟩
      exact symbols_of_decode hu k hx
    · rintro ⟨htail, hs⟩
      exact ⟨_, decode_of_symbols hu k htail hs⟩
  bits x hx := by
    obtain ⟨htail, hs⟩ := symbols_of_decode hu k hx
    rw [decode_of_symbols hu k htail hs, Except.ok.injEq] at hx
    have hbits := ofBytes_decodeBlocks (lt_of_mem_quintets u)
    rw [hx] at hbits
    obtain ⟨hlength, htake⟩ := BitString.length_and_eq_take hbits
    rw [length_quintets hs] at hlength
    exact ⟨hlength, htake⟩
  fits block hblock := by
    refine ⟨rfl, blockValue_lt ?_ (length_le_of_mem_chunks hblock)⟩
    intro d hd
    exact lt_of_mem_quintets u d (mem_of_mem_chunks hblock hd)
  refuses_length htail := ⟨_, decode_of_length hu k htail, rfl, rfl⟩
  refuses_symbol htail hs := decode_of_foreign hu k htail hs

/-- With or without padding of its own, Base32 reads every text by its body. -/
theorem exists_readsBody (padding : Bool) (t : Text) :
    ∃ u k, t = u ++ List.replicate k padSymbol ∧ u.getLast? ≠ some padSymbol ∧
      ReadsBody ((Encoding.base32 padding).decode · .big) t u := by
  obtain ⟨k, ht, hu⟩ := exists_unpad_append t
  refine ⟨unpad t, k, ht.symm, hu, ?_⟩
  have hread : ((Encoding.base32 padding).decode · .big) = decode := by
    funext t
    exact Encoding.decode_big (.base32 padding) t
  rw [hread]
  have h := readsBody_append hu k
  rwa [ht] at h

end Base32
end Octets
