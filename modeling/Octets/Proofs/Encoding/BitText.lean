import Octets.Encoding.Basic
import Octets.Proofs.BitString
import Octets.Proofs.Chunks
import Octets.Proofs.Encoding.Base32
import Octets.Proofs.Encoding.Base64
/-!
# Text of a bit string

The bits of a byte string are filled up with zeros to whole groups, each group is written
as a symbol, and the text is padded to whole blocks of symbols if padding is on
(`bitText`). That is what Base32 and Base64 write (`Encoding.writesBits`), though they go
byte block by byte block: digits with the filled bits are the values of the groups
(`BitString.groups_eq`), and the digits of either encoding have them
(`Base32.ofDigits_digits`, `Base64.ofDigits_encodeDigits`).
-/

namespace Octets

/-! ## Filling up -/

/-- How many items `n` of them are short of a multiple of `k`. -/
def shortfall (k n : Nat) : Nat := (k - n % k) % k

theorem shortfall_eq_zero {k n : Nat} (h : n % k = 0) : shortfall k n = 0 := by
  rw [shortfall, h, Nat.sub_zero, Nat.mod_self]

theorem shortfall_lt {k : Nat} (hk : 0 < k) (n : Nat) : shortfall k n < k := Nat.mod_lt _ hk

theorem add_shortfall_mod {k : Nat} (hk : 0 < k) (n : Nat) : (n + shortfall k n) % k = 0 := by
  have hn : n % k < k := Nat.mod_lt n hk
  have hsum : n % k + (k - n % k) = k := by omega
  rw [shortfall, Nat.add_mod_mod, ← Nat.mod_add_mod, hsum, Nat.mod_self]

/-- Whole blocks in front do not matter. -/
theorem shortfall_add {k n : Nat} (h : n % k = 0) (m : Nat) :
    shortfall k (n + m) = shortfall k m := by
  rw [shortfall, shortfall, Nat.add_mod, h, Nat.zero_add, Nat.mod_mod]

/-- Filled up, `n` items are as many blocks as hold them. -/
theorem add_shortfall_eq {k n m : Nat} (hk : 0 < k) (h : k * m = n + shortfall k n) :
    m = (n + k - 1) / k := by
  have hlt := shortfall_lt hk n
  have hsum : n + k - 1 = k * m + (k - 1 - shortfall k n) := by omega
  rw [hsum, Nat.mul_add_div hk, Nat.div_eq_of_lt (by omega), Nat.add_zero]

theorem Whole.length_chunks {α : Type} {k : Nat} {l : List α} (h : Whole k l) :
    (k + 1) * (chunks k l).length = l.length := by
  induction h with
  | nil => rw [chunks_nil, List.length_nil, Nat.mul_zero, List.length_nil]
  | @block b l hb hl ih =>
    rw [Octets.chunks_append k b l hb, List.length_cons, List.length_append, hb, ← ih, Nat.mul_succ,
      Nat.add_comm]

namespace BitString

/-! ## Groups of bits -/

/-- The number that bits write, most significant first. -/
def value : BitString → Nat
  | [] => 0
  | b :: bits => b.toNat * 2 ^ bits.length + value bits

/-- The bits, filled up with zeros to groups of `g`. -/
def filled (g : Nat) (bits : BitString) : BitString :=
  bits ++ List.replicate (shortfall g bits.length) false

/-- The numbers that the groups of `g` bits write. -/
def groups (g : Nat) (bits : BitString) : List Nat := (chunks (g - 1) (filled g bits)).map value

theorem value_ofNat (w n : Nat) : value (ofNat w n) = n % 2 ^ w := by
  induction w with
  | zero => rw [ofNat, value, Nat.pow_zero, Nat.mod_one]
  | succ w ih =>
    rw [ofNat, value, ih, length_ofNat, Nat.toNat_testBit, Nat.mod_pow_succ, Nat.mul_comm,
      Nat.add_comm]

theorem ofNat_zero (w : Nat) : ofNat w 0 = List.replicate w false := by
  induction w with
  | zero => rfl
  | succ w ih => rw [ofNat, ih, Nat.zero_testBit, List.replicate_succ]

theorem whole_filled {g : Nat} (hg : 0 < g) (bits : BitString) :
    Whole (g - 1) (filled g bits) := by
  apply whole_of_length
  rw [Nat.sub_add_cancel hg, filled, List.length_append, List.length_replicate]
  exact add_shortfall_mod hg bits.length

/-- Whole groups in front are filled already. -/
theorem filled_append {g : Nat} {bits : BitString} (h : bits.length % g = 0)
    (bits' : BitString) : filled g (bits ++ bits') = bits ++ filled g bits' := by
  rw [filled, filled, List.length_append, shortfall_add h, List.append_assoc]

theorem filled_of_whole {g : Nat} {bits : BitString} (h : bits.length % g = 0) :
    filled g bits = bits := by
  rw [filled, shortfall_eq_zero h, List.replicate_zero, List.append_nil]

theorem ofBytes_zeros (n : Nat) : ofBytes (Bytes.zeros n) = List.replicate (8 * n) false := by
  induction n with
  | zero => rfl
  | succ n ih =>
    have hcons : ofBytes (Bytes.zeros (n + 1)) = ofNat 8 0 ++ ofBytes (Bytes.zeros n) := rfl
    rw [hcons, ih, ofNat_zero, List.replicate_append_replicate, Nat.mul_succ, Nat.add_comm]

/-- Bytes that are zero fill up what is before them. -/
theorem take_ofBytes_zeros {g n k : Nat} {x : Bytes}
    (hk : 8 * x.length + shortfall g (8 * x.length) = k) (h : k ≤ 8 * (x.length + n)) :
    (ofBytes (x ++ Bytes.zeros n)).take k = filled g (ofBytes x) := by
  have hfew : shortfall g (8 * x.length) ≤ 8 * n := by omega
  rw [← hk, ofBytes_append, ← length_ofBytes, List.take_length_add_append, length_ofBytes,
    ofBytes_zeros, List.take_replicate, Nat.min_eq_left hfew, filled, length_ofBytes]

theorem length_groups {g : Nat} (hg : 0 < g) (bits : BitString) :
    (groups g bits).length = (bits.length + g - 1) / g := by
  have h := (whole_filled hg bits).length_chunks
  rw [Nat.sub_add_cancel hg, filled, List.length_append, List.length_replicate] at h
  rw [groups, List.length_map]
  exact add_shortfall_eq hg h

theorem groups_append {g : Nat} (hg : 0 < g) {bits : BitString} (h : bits.length % g = 0)
    (bits' : BitString) : groups g (bits ++ bits') = groups g bits ++ groups g bits' := by
  have hwhole := whole_filled hg bits
  rw [filled_of_whole h] at hwhole
  rw [groups, groups, groups, filled_append h, filled_of_whole h, hwhole.chunks_append,
    List.map_append]

theorem chunks_ofDigits (w : Nat) (digits : List Nat) :
    chunks w (ofDigits (w + 1) digits) = digits.map (ofNat (w + 1)) := by
  induction digits with
  | nil => exact chunks_nil w
  | cons d digits ih =>
    rw [ofDigits_cons, chunks_append w _ _ (length_ofNat _ d), ih, List.map_cons]

/-- Digits that have the filled bits are what the groups write. -/
theorem groups_eq {g : Nat} (hg : 0 < g) {bits : BitString} {digits : List Nat}
    (hd : ∀ d ∈ digits, d < 2 ^ g) (h : ofDigits g digits = filled g bits) :
    groups g bits = digits := by
  obtain ⟨w, rfl⟩ : ∃ w, g = w + 1 := Nat.exists_eq_succ_of_ne_zero (Nat.ne_of_gt hg)
  have hvalue : ∀ d ∈ digits, (value ∘ ofNat (w + 1)) d = d := by
    intro d hmem
    rw [Function.comp_apply, value_ofNat, Nat.mod_eq_of_lt (hd d hmem)]
  rw [groups, ← h, Nat.add_sub_cancel, chunks_ofDigits, List.map_map]
  exact (List.map_congr_left hvalue).trans (List.map_id _)

end BitString

/-! ## Texts -/

/-- The padding symbol. -/
def padSymbol : CodePoint := CodePoint.ofChar '='

/-- The text of a byte string, `g` bits a symbol, in whole blocks of `c` symbols if padding
is on. -/
def bitText (a : Alphabet) (g c : Nat) (padding : Bool) (x : Bytes) : Text :=
  let symbols := a.spell (BitString.groups g (BitString.ofBytes x))
  symbols ++ if padding then List.replicate (shortfall c symbols.length) padSymbol else []

theorem length_spell (a : Alphabet) (digits : List Nat) :
    (a.spell digits).length = digits.length := List.length_map ..

theorem length_bitSymbols (a : Alphabet) {g : Nat} (hg : 0 < g) (x : Bytes) :
    (a.spell (BitString.groups g (BitString.ofBytes x))).length =
      (8 * x.length + g - 1) / g := by
  rw [length_spell, BitString.length_groups hg, BitString.length_ofBytes]

/-- Blocks of `n` bytes that fill blocks of symbols are written apart from what follows. -/
theorem bitText_append (a : Alphabet) {g c n : Nat} (hg : 0 < g) (hblock : g * c = 8 * n)
    (padding : Bool) {x : Bytes} (h : x.length % n = 0) (y : Bytes) :
    bitText a g c padding (x ++ y) = bitText a g c padding x ++ bitText a g c padding y := by
  obtain ⟨m, hm⟩ := Nat.dvd_of_mod_eq_zero h
  have hbits : 8 * x.length = g * (c * m) := by
    rw [hm, ← Nat.mul_assoc, ← hblock, Nat.mul_assoc]
  have hwhole : (BitString.ofBytes x).length % g = 0 := by
    rw [BitString.length_ofBytes, hbits, Nat.mul_mod_right]
  have hsymbols : (a.spell (BitString.groups g (BitString.ofBytes x))).length = c * m := by
    have hexact := add_shortfall_eq (n := 8 * x.length) (m := c * m) hg
    rw [shortfall_eq_zero (by rw [hbits, Nat.mul_mod_right]), Nat.add_zero] at hexact
    rw [length_bitSymbols a hg, hexact hbits.symm]
  have hspell : a.spell (BitString.groups g (BitString.ofBytes (x ++ y))) =
      a.spell (BitString.groups g (BitString.ofBytes x)) ++
        a.spell (BitString.groups g (BitString.ofBytes y)) := by
    rw [BitString.ofBytes_append, BitString.groups_append hg hwhole]
    exact List.map_append
  have hmod : c * m % c = 0 := Nat.mul_mod_right c m
  simp only [bitText]
  rw [hspell, List.length_append, hsymbols, shortfall_add hmod, shortfall_eq_zero hmod]
  cases padding with
  | true => simp
  | false => simp

/-- How texts of byte strings look that are written bit group by bit group. -/
structure WritesBits (a : Alphabet) (g c n : Nat) (padding : Bool) (write : Bytes → Text) :
    Prop where
  exact : ∀ x, write x = bitText a g c padding x
  /-- As many symbols as hold the bits, and padding after them and nowhere else, up to the
  end of a block if there is to be any. -/
  shape : ∀ x, ∃ t k, write x = t ++ List.replicate k padSymbol ∧
    t.length = (8 * x.length + g - 1) / g ∧ padSymbol ∉ t ∧
    if padding then k < c ∧ (t.length + k) % c = 0 else k = 0
  /-- Blocks of `n` bytes are written apart from what follows them. -/
  split : ∀ x y, x.length % n = 0 → write (x ++ y) = write x ++ write y

/-- Symbols for the digits of the bits, and the padding that their number asks for, are the
text of the bits. -/
theorem WritesBits.of_digits {a : Alphabet} {g c n : Nat} {padding : Bool} {write : Bytes → Text}
    (hg : 0 < g) (hc : 0 < c) (hblock : g * c = 8 * n) (hradix : a.radix = 2 ^ g)
    (hpad : padSymbol ∉ a.symbols) {digits : Bytes → List Nat}
    (hlt : ∀ x, ∀ d ∈ digits x, d < 2 ^ g)
    (hbits : ∀ x, BitString.ofDigits g (digits x) = BitString.filled g (BitString.ofBytes x))
    (hwrite : ∀ x, write x = a.spell (digits x) ++
      if padding then List.replicate (shortfall c (digits x).length) padSymbol else []) :
    WritesBits a g c n padding write := by
  have hgroups (x : Bytes) : BitString.groups g (BitString.ofBytes x) = digits x :=
    BitString.groups_eq hg (hlt x) (hbits x)
  have hexact (x : Bytes) : write x = bitText a g c padding x := by
    rw [hwrite, bitText, hgroups, length_spell]
  refine ⟨hexact, ?_, ?_⟩
  · intro x
    have hlength : (a.spell (digits x)).length = (8 * x.length + g - 1) / g := by
      rw [← hgroups, length_bitSymbols a hg]
    have hmem : padSymbol ∉ a.spell (digits x) := by
      intro hmem
      exact hpad (Alphabet.spell_mem (hradix ▸ hlt x) hmem)
    cases padding with
    | false =>
      refine ⟨a.spell (digits x), 0, ?_, hlength, hmem, rfl⟩
      exact hwrite x
    | true =>
      refine ⟨a.spell (digits x), shortfall c (digits x).length, hwrite x, hlength, hmem, ?_⟩
      rw [length_spell]
      exact ⟨shortfall_lt hc _, add_shortfall_mod hc _⟩
  · intro x y h
    rw [hexact, hexact, hexact, bitText_append a hg hblock padding h]

/-! ## Base32 -/

namespace Base32

open BitString

theorem ofDigits_blockDigits {block : Bytes} (h : block.length ≤ 5) :
    ofDigits 5 (blockDigits block) = filled 5 (ofBytes block) := by
  let digit (i : Nat) : Nat := pack block / 32 ^ (7 - i) % 32
  have hcount : 8 * block.length + shortfall 5 (8 * block.length) =
      5 * digitCount block.length := by
    unfold digitCount shortfall
    omega
  have hlt : ∀ d ∈ (List.range 8).map digit, d < 2 ^ 5 := by
    intro d hd
    obtain ⟨i, -, rfl⟩ := List.mem_map.mp hd
    exact Nat.mod_lt _ (by decide)
  have hfoldl : ((List.range 8).map digit).foldl (fun v d => v * 2 ^ 5 + d) 0 = pack block :=
    (foldl_digits (pack_lt h) (Nat.le_refl 8)).trans (Nat.div_one _)
  have hdigits : ofDigits 5 ((List.range 8).map digit) = ofNat 40 (pack block) := by
    rw [ofDigits_eq hlt, hfoldl, List.length_map, List.length_range]
  have hblock : blockDigits block = ((List.range 8).map digit).take (digitCount block.length) := by
    rw [← List.map_take, List.take_range, Nat.min_eq_left (by unfold digitCount; omega)]
    rfl
  calc ofDigits 5 (blockDigits block)
      = (ofNat 40 (pack block)).take (5 * digitCount block.length) := by
        rw [hblock, ofDigits_take, hdigits]
    _ = (ofBytes (block ++ Bytes.zeros (5 - block.length))).take
          (5 * digitCount block.length) := by rw [← ofNat_pack h, ofBytes_ofNat]
    _ = filled 5 (ofBytes block) := by
        apply take_ofBytes_zeros hcount
        unfold digitCount
        omega

theorem ofDigits_digits (x : Bytes) : ofDigits 5 (digits x) = filled 5 (ofBytes x) := by
  unfold digits
  fun_induction chunks 4 x with
  | case1 => rfl
  | case2 a l ih =>
    have hblock : (a :: l.take 4).length ≤ 5 := by
      rw [List.length_cons, List.length_take]
      omega
    rw [List.flatMap_cons, ofDigits_append, ofDigits_blockDigits hblock, ih]
    by_cases hl : 4 ≤ l.length
    · have hwhole : (ofBytes (a :: l.take 4)).length % 5 = 0 := by
        simp [Nat.min_eq_left hl]
      rw [filled_of_whole hwhole, ← filled_append hwhole, ← ofBytes_append, List.cons_append,
        List.take_append_drop]
    · have htake : l.take 4 = l := List.take_of_length_le (by omega)
      have hdrop : l.drop 4 = [] := List.drop_eq_nil_of_le (by omega)
      have hnil : filled 5 (ofBytes []) = [] := rfl
      rw [htake, hdrop, hnil, List.append_nil]

theorem missing_eq (x : Bytes) : missing x.length = shortfall 8 (digits x).length := by
  rw [length_digits, missing, shortfall]
  unfold digitCount
  split <;> omega

end Base32

/-! ## Base64 -/

namespace Base64

open BitString

theorem ofDigits_sextets (a b c : UInt8) :
    ofDigits 6 (sextets (a.toNat * 2 ^ 16 + b.toNat * 2 ^ 8 + c.toNat)) = ofBytes [a, b, c] := by
  have ha : a.toNat < 256 := a.toNat_lt
  have hb : b.toNat < 256 := b.toNat_lt
  have hc : c.toNat < 256 := c.toNat_lt
  have hvalue : Bytes.value [a, b, c] = a.toNat * 2 ^ 16 + b.toNat * 2 ^ 8 + c.toNat := by
    simp only [Bytes.value, List.foldl_cons, List.foldl_nil]
    omega
  generalize hv : a.toNat * 2 ^ 16 + b.toNat * 2 ^ 8 + c.toNat = v at hvalue
  have hlt : ∀ d ∈ sextets v, d < 2 ^ 6 := sextets_lt (by omega)
  have hsum (a b c d : Nat) : [a, b, c, d].foldl (fun v d => v * 2 ^ 6 + d) 0 =
      a * 2 ^ 18 + b * 2 ^ 12 + c * 2 ^ 6 + d := by
    simp only [List.foldl_cons, List.foldl_nil]
    omega
  have hfoldl : (sextets v).foldl (fun v d => v * 2 ^ 6 + d) 0 = v :=
    (hsum _ _ _ _).trans (sextets_sum v)
  have hwidth : 6 * (sextets v).length = 8 * [a, b, c].length := rfl
  rw [ofDigits_eq hlt, hfoldl, ofBytes_eq, hvalue, hwidth]

/-- A short last block is filled up with bytes that are zero, and only the digits with bits
of its own are written. -/
theorem ofDigits_encodeDigits (x : Bytes) :
    ofDigits 6 (encodeDigits x).1 = filled 6 (ofBytes x) := by
  fun_induction encodeDigits x with
  | case1 a b c x rest ih =>
    have hrest : ofDigits 6 rest.1 = filled 6 (ofBytes x) := ih
    have hwhole : (ofBytes [a, b, c]).length % 6 = 0 := by simp
    rw [ofDigits_append, ofDigits_sextets, hrest, ← filled_append hwhole, ← ofBytes_append]
    rfl
  | case2 a b =>
    have hfill := ofDigits_sextets a b 0
    rw [UInt8.toNat_zero, Nat.add_zero] at hfill
    rw [ofDigits_take, hfill]
    exact take_ofBytes_zeros (n := 1) (x := [a, b]) (by simp [shortfall]) (by simp)
  | case3 a =>
    have hfill := ofDigits_sextets a 0 0
    rw [UInt8.toNat_zero, Nat.zero_mul, Nat.add_zero] at hfill
    rw [ofDigits_take, hfill]
    exact take_ofBytes_zeros (n := 2) (x := [a]) (by simp [shortfall]) (by simp)
  | case4 => rfl

theorem missing_eq (x : Bytes) : (encodeDigits x).2 = shortfall 4 (encodeDigits x).1.length := by
  fun_induction encodeDigits x with
  | case1 a b c x rest ih =>
    have hwhole (v : Nat) : (sextets v).length % 4 = 0 := Nat.mod_self 4
    rw [List.length_append, shortfall_add (hwhole _)]
    exact ih
  | _ => rfl

theorem padSymbol_not_mem (urlSafe : Bool) : padSymbol ∉ (alphabet urlSafe).symbols := by
  intro hmem
  obtain ⟨d, hd, hsymbol⟩ := List.mem_iff_getElem.mp hmem
  have hlt : d < 64 := Nat.lt_of_lt_of_eq hd (radix_alphabet urlSafe)
  apply (symbol_plain urlSafe d hlt).2
  rw [List.getD_eq_getElem?_getD, List.getElem?_eq_getElem hd, hsymbol, Option.getD_some]

end Base64

/-- Base32 and Base64 write the text of the bits, most significant byte first. -/
theorem Encoding.writesBits (padding : Bool) :
    WritesBits .base32 5 8 5 padding (fun x => (Encoding.base32 padding).encode x .big) ∧
    ∀ urlSafe, WritesBits (Base64.alphabet urlSafe) 6 4 3 padding
      (fun x => (Encoding.base64 urlSafe padding).encode x .big) := by
  constructor
  · refine .of_digits (by decide) (by decide) rfl Base32.radix_base32 Base32.padSymbol_not_mem
      Base32.digits_lt Base32.ofDigits_digits ?_
    intro x
    rw [← Base32.missing_eq]
    exact Base32.encode_eq padding x
  · intro urlSafe
    refine .of_digits (by decide) (by decide) rfl (Base64.radix_alphabet urlSafe)
      (Base64.padSymbol_not_mem urlSafe) Base64.encodeDigits_lt Base64.ofDigits_encodeDigits ?_
    intro x
    rw [← Base64.missing_eq]
    rfl

end Octets
