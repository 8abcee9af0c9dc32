import Mathlib.Data.List.Induction
import Octets.Encoding.Basic
import Octets.Proofs.Encoding.Hex
/-!
# Which texts are hexadecimal

The digits of a text stand after the mark that it may begin with. Pairs are read in one scan,
which is that of the digits one by one (`decodePairs_eq`); so a text is read exactly when the
number of its digits is even and all of them are digits, and each byte has two of them
(`getElem_paired`). An odd number is refused before a foreign symbol is, and the symbol that
a refusal names is the first foreign one after the mark: `readsPairs`.
-/

namespace Octets

/-- The value of a hexadecimal digit: 0 to 9 or a letter from A to F, in either case. -/
def CodePoint.nibble? (c : CodePoint) : Option Nat :=
  if 0x30 ≤ c.val ∧ c.val ≤ 0x39 then some (c.val - 0x30)
  else if 0x41 ≤ c.val ∧ c.val ≤ 0x46 then some (c.val - 0x37)
  else if 0x61 ≤ c.val ∧ c.val ≤ 0x66 then some (c.val - 0x57)
  else none

namespace Hex

/-! ## Digits -/

/-- The alphabet reads a digit as its value, and nothing else. -/
theorem digitOf?_hex : Alphabet.hex.digitOf? = CodePoint.nibble? := by
  apply Alphabet.lookup_eq_of_ascii
  case h => decide
  case hascii => decide +kernel
  case hnone =>
    intro c hc
    unfold CodePoint.nibble?
    rw [if_neg (by omega), if_neg (by omega), if_neg (by omega)]

theorem nibble?_lt {c : CodePoint} {d : Nat} (h : c.nibble? = some d) : d < 16 := by
  unfold CodePoint.nibble? at h
  split at h
  · cases h
    omega
  · split at h
    · cases h
      omega
    · split at h
      · cases h
        omega
      · cases h

/-! ## The mark -/

/-- The marks of hexadecimal text. -/
def marks : List Text := [['0', 'x'], ['0', 'X']].map (List.map CodePoint.ofChar)

/-- Where the digits of a text start: after its mark, if it begins with one. -/
def start (t : Text) : Nat := if ∃ m ∈ marks, m <+: t then 2 else 0

theorem marked_iff {t : Text} : marked t = true ↔ ∃ m ∈ marks, m <+: t := by
  simp only [marks, List.map_cons, List.map_nil, List.mem_cons, List.not_mem_nil, or_false,
    exists_eq_or_imp, exists_eq_left]
  match t with
  | [] => simp [marked]
  | [a] => simp [marked]
  | a :: b :: t =>
    simp only [marked, Bool.and_eq_true, Bool.or_eq_true, beq_iff_eq, List.cons_prefix_cons,
      List.nil_prefix, and_true, eq_comm (a := a), eq_comm (a := b), and_or_left]

theorem decode_eq (t : Text) : decode t =
    if (t.drop (start t)).length % 2 = 1 then .error (.oddHexLength (t.drop (start t)).length)
    else decodePairs (start t) (t.drop (start t)) := by
  rw [decode, start]
  simp only [← marked_iff]

/-! ## Pairs -/

/-- The bytes of nibbles, the higher one of each pair first. -/
def paired : List Nat → Bytes
  | high :: low :: nibbles => UInt8.ofNat (high * 16 + low) :: paired nibbles
  | _ => []

theorem length_paired (nibbles : List Nat) : (paired nibbles).length = nibbles.length / 2 := by
  induction nibbles using List.twoStepInduction with
  | nil => rfl
  | singleton d => simp [paired]
  | cons_cons high low nibbles ih _ =>
    simp only [paired, List.length_cons, ih]
    omega

/-- Reading in pairs is reading one digit after another. -/
theorem decodePairs_eq {t : Text} (heven : t.length % 2 = 0) (i : Nat) :
    decodePairs i t = (Alphabet.hex.readFrom i t).map paired := by
  induction t using List.twoStepInduction generalizing i with
  | nil => rfl
  | singleton c => cases heven
  | cons_cons a b t ih _ =>
    have hparity : t.length % 2 = 0 := by
      simp only [List.length_cons] at heven
      omega
    have hrest := ih hparity (i + 2)
    simp only [decodePairs, Alphabet.readFrom, hrest]
    cases Alphabet.hex.decode [a] i with
    | error f => rfl
    | ok high =>
      cases Alphabet.hex.decode [b] (i + 1 : Nat) with
      | error f => rfl
      | ok low =>
        cases Alphabet.hex.readFrom (i + 2) t with
        | error f => rfl
        | ok nibbles => rfl

/-- Each byte has the two digits that stand where it is read. -/
theorem getElem_paired {t : Text} (hs : ∀ c ∈ t, c.nibble?.isSome) (k : Nat)
    (hk : k < (paired (t.filterMap CodePoint.nibble?)).length) :
    ∃ high low, t[2 * k]?.bind CodePoint.nibble? = some high ∧
      t[2 * k + 1]?.bind CodePoint.nibble? = some low ∧
      (paired (t.filterMap CodePoint.nibble?))[k].toNat = 16 * high + low := by
  induction t using List.twoStepInduction generalizing k with
  | nil => cases hk
  | singleton c =>
    obtain ⟨d, hd⟩ := Option.isSome_iff_exists.mp (hs c (List.mem_singleton_self c))
    simp [hd, paired] at hk
  | cons_cons a b t ih _ =>
    obtain ⟨high, ha⟩ := Option.isSome_iff_exists.mp (hs a (by simp))
    obtain ⟨low, hb⟩ := Option.isSome_iff_exists.mp (hs b (by simp))
    have hsplit : paired ((a :: b :: t).filterMap CodePoint.nibble?) =
        UInt8.ofNat (high * 16 + low) :: paired (t.filterMap CodePoint.nibble?) := by
      simp only [List.filterMap_cons_some ha, List.filterMap_cons_some hb, paired]
    simp only [hsplit] at hk ⊢
    cases k with
    | zero =>
      have hhigh := nibble?_lt ha
      have hlow := nibble?_lt hb
      refine ⟨high, low, ha, hb, ?_⟩
      show (UInt8.ofNat (high * 16 + low)).toNat = 16 * high + low
      rw [UInt8.toNat_ofNat']
      omega
    | succ k =>
      exact ih (fun c hc => hs c (by simp [hc])) k (Nat.lt_of_succ_lt_succ hk)

/-! ## Texts -/

/-- Whether a code point that is no digit stands at an index. -/
def Foreign (t : Text) (i : Nat) : Prop := ∃ c, t[i]? = some c ∧ c.nibble? = none

section Read

variable {t : Text}

theorem length_drop_start (t : Text) : (t.drop (start t)).length = t.length - start t :=
  List.length_drop

theorem decode_of_odd (hodd : (t.length - start t) % 2 = 1) :
    decode t = .error (.oddHexLength (t.length - start t)) := by
  rw [decode_eq, length_drop_start, if_pos hodd]

theorem decode_of_even (heven : (t.length - start t) % 2 = 0) : decode t =
    (Alphabet.hex.readFrom (start t) (t.drop (start t))).map paired := by
  rw [decode_eq, length_drop_start, if_neg (by omega), decodePairs_eq]
  rwa [length_drop_start]

theorem decode_of_digits (heven : (t.length - start t) % 2 = 0)
    (hs : ∀ c ∈ t.drop (start t), c.nibble?.isSome) :
    decode t = .ok (paired ((t.drop (start t)).filterMap CodePoint.nibble?)) := by
  rw [← digitOf?_hex] at hs ⊢
  rw [decode_of_even heven, Alphabet.readFrom_of_all hs]
  rfl

/-- The first code point for which there is no digit is the first foreign one. -/
theorem exists_foreign {n : Nat} (hs : ¬ ∀ c ∈ t.drop n, c.nibble?.isSome) :
    Foreign t (n + (t.drop n).findIdx fun c => c.nibble?.isNone) ∧
      ∀ j, n ≤ j → j < n + (t.drop n).findIdx (fun c => c.nibble?.isNone) → ¬ Foreign t j := by
  have hlt : (t.drop n).findIdx (fun c => c.nibble?.isNone) < (t.drop n).length := by
    rw [List.findIdx_lt_length]
    simpa using hs
  constructor
  · refine ⟨(t.drop n)[(t.drop n).findIdx fun c => c.nibble?.isNone], ?_, ?_⟩
    · rw [← List.getElem?_drop, List.getElem?_eq_getElem]
    · simpa using List.findIdx_getElem (w := hlt)
  · rintro j hn hj ⟨c, hc, hnone⟩
    obtain ⟨k, rfl⟩ := Nat.exists_eq_add_of_le hn
    have hk : k < (t.drop n).findIdx fun c => c.nibble?.isNone := by omega
    have hdigit := List.not_of_lt_findIdx hk
    rw [← List.getElem?_drop, List.getElem?_eq_getElem (Nat.lt_trans hk hlt),
      Option.some.injEq] at hc
    rw [hc, hnone] at hdigit
    cases hdigit

theorem decode_of_foreign (heven : (t.length - start t) % 2 = 0)
    (hs : ¬ ∀ c ∈ t.drop (start t), c.nibble?.isSome) :
    ∃ f i, decode t = .error f ∧ f.kind = .format ∧ f.position = (i : Nat) ∧
      start t ≤ i ∧ Foreign t i ∧ ∀ j, start t ≤ j → j < i → ¬ Foreign t j := by
  obtain ⟨hforeign, hfirst⟩ := exists_foreign hs
  have hread := hs
  rw [← digitOf?_hex] at hread
  obtain ⟨c, hc⟩ := Alphabet.readFrom_of_foreign hread (start t)
  rw [digitOf?_hex] at hc
  refine ⟨_, _, by rw [decode_of_even heven, hc]; rfl, rfl, rfl, Nat.le_add_right _ _, hforeign,
    hfirst⟩

theorem digits_of_decode {x : Bytes} (h : decode t = .ok x) :
    (t.length - start t) % 2 = 0 ∧ ∀ c ∈ t.drop (start t), c.nibble?.isSome := by
  by_cases hodd : (t.length - start t) % 2 = 1
  · rw [decode_of_odd hodd] at h
    cases h
  · have heven : (t.length - start t) % 2 = 0 := by omega
    by_cases hs : ∀ c ∈ t.drop (start t), c.nibble?.isSome
    · exact ⟨heven, hs⟩
    · obtain ⟨f, i, hf, -⟩ := decode_of_foreign heven hs
      rw [hf] at h
      cases h

end Read

/-- What reading makes of a text `t` whose digits start at the index `n`. -/
structure ReadsPairs (read : Text → Outcome Bytes) (t : Text) (n : Nat) : Prop where
  accepts : (∃ x, read t = .ok x) ↔
    (t.length - n) % 2 = 0 ∧ ∀ c ∈ t.drop n, c.nibble?.isSome
  /-- Every byte is read from two digits, the higher one first. -/
  bytes : ∀ x, read t = .ok x → x.length = (t.length - n) / 2 ∧
    ∀ (k : Nat) (hk : k < x.length), ∃ high low, t[n + 2 * k]?.bind CodePoint.nibble? = some high ∧
      t[n + 2 * k + 1]?.bind CodePoint.nibble? = some low ∧ x[k].toNat = 16 * high + low
  /-- An odd number of digits is refused whatever they are. -/
  refuses_length : (t.length - n) % 2 = 1 →
    ∃ f, read t = .error f ∧ f.kind = .format ∧ f.position = -1
  /-- Else the first foreign code point is named. -/
  refuses_symbol : (t.length - n) % 2 = 0 → ¬ (∀ c ∈ t.drop n, c.nibble?.isSome) →
    ∃ f i, read t = .error f ∧ f.kind = .format ∧ f.position = (i : Nat) ∧
      n ≤ i ∧ Foreign t i ∧ ∀ j, n ≤ j → j < i → ¬ Foreign t j
  /-- There is one mark: its letter is foreign wherever it stands among the digits. -/
  refuses_mark : ∀ i c, n ≤ i → t[i]? = some (CodePoint.ofChar c) → c = 'x' ∨ c = 'X' →
    ∃ f, read t = .error f ∧ f.kind = .format ∧ f.position ≤ i

theorem readsPairs_decode (t : Text) : ReadsPairs decode t (start t) where
  accepts := by
    constructor
    · rintro ⟨x, hx⟩
      exact digits_of_decode hx
    · rintro ⟨heven, hs⟩
      exact ⟨_, decode_of_digits heven hs⟩
  bytes x hx := by
    obtain ⟨heven, hs⟩ := digits_of_decode hx
    rw [decode_of_digits heven hs, Except.ok.injEq] at hx
    subst hx
    refine ⟨?_, fun k hk => ?_⟩
    · rw [length_paired, List.filterMap_length_eq_length.mpr hs, length_drop_start]
    · have hpair := getElem_paired hs k hk
      rwa [List.getElem?_drop, List.getElem?_drop, ← Nat.add_assoc] at hpair
  refuses_length hodd := ⟨_, decode_of_odd hodd, rfl, rfl⟩
  refuses_symbol heven hs := decode_of_foreign heven hs
  refuses_mark i c hi hc hmark := by
    have hnone : (CodePoint.ofChar c).nibble? = none := by
      rcases hmark with rfl | rfl
      · decide
      · decide
    by_cases hodd : (t.length - start t) % 2 = 1
    · exact ⟨_, decode_of_odd hodd, rfl, by show (-1 : Int) ≤ i; omega⟩
    · have hs : ¬ ∀ c ∈ t.drop (start t), c.nibble?.isSome := by
        intro hs
        obtain ⟨k, rfl⟩ := Nat.exists_eq_add_of_le hi
        rw [← List.getElem?_drop] at hc
        have hsome := hs _ (List.mem_of_getElem? hc)
        rw [hnone] at hsome
        cases hsome
      obtain ⟨f, j, hf, hkind, hposition, -, -, hfirst⟩ := decode_of_foreign (by omega) hs
      refine ⟨f, hf, hkind, ?_⟩
      have hle : j ≤ i := Nat.le_of_not_lt fun hlt => hfirst i hi hlt ⟨_, hc, hnone⟩
      omega

/-- Whatever case it is written in, hexadecimal text is read in pairs of digits after its
mark. -/
theorem readsPairs (upperCase : Bool) (t : Text) :
    ReadsPairs ((Encoding.hex upperCase).decode · .big) t (start t) := by
  have hread : ((Encoding.hex upperCase).decode · .big) = decode := by
    funext t
    exact Encoding.decode_big (.hex upperCase) t
  rw [hread]
  exact readsPairs_decode t

end Hex
end Octets
