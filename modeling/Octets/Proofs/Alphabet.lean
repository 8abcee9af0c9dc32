import Octets.Proofs.Tabulation
/-!
# Reading and spelling digits

* `lookup_tableFrom`: a table yields the first symbol that has the key;
* `readFrom_of_all`, `readFrom_of_foreign`: reading a text succeeds exactly when
  every code point is a digit, and names the first one that is none;
* `readFrom_spell`: what one alphabet spells, an alphabet that reads its symbols
  reads back;
* `digitOf?_casedAlphabet`: positional notation reads the digits and letters whose
  value is below the radix, in either case.
-/

namespace Octets

namespace CodePoint

/-- The value of a digit 0 to 9 or of a letter, which counts on from ten in either
case. -/
def digitValue? (c : CodePoint) : Option Nat :=
  if 0x30 ≤ c.val ∧ c.val ≤ 0x39 then some (c.val - 0x30)
  else if 0x41 ≤ c.val ∧ c.val ≤ 0x5A then some (c.val - 0x37)
  else if 0x61 ≤ c.val ∧ c.val ≤ 0x7A then some (c.val - 0x57)
  else none

theorem ofNat_val (c : CodePoint) : ofNat c.val = c := by
  apply Fin.ext
  simp [ofNat]

/-- What holds of the 128 code points of ASCII, one by one, holds of each of them. -/
theorem forall_ascii {P : CodePoint → Prop} (h : ∀ n : Fin 128, P (ofNat n)) (c : CodePoint)
    (hc : c.val < 128) : P c := by
  have := h ⟨c.val, hc⟩
  rwa [ofNat_val] at this

theorem digitValue?_eq_some {c : CodePoint} {d : Nat} : c.digitValue? = some d ↔
    d < 10 ∧ c.val = 0x30 + d ∨ 10 ≤ d ∧ d < 36 ∧ (c.val = 0x37 + d ∨ c.val = 0x57 + d) := by
  unfold digitValue?
  split
  · rw [Option.some.injEq]
    omega
  · split
    · rw [Option.some.injEq]
      omega
    · split
      · rw [Option.some.injEq]
        omega
      · constructor
        · intro h
          cases h
        · omega

theorem lt_of_digitValue? {c : CodePoint} {d : Nat} (h : c.digitValue? = some d) :
    c.val < 128 := by
  rw [digitValue?_eq_some] at h
  omega

/-- The code point of a digit in one case. -/
def ofDigit (upperCase : Bool) (d : Nat) : CodePoint :=
  ofNat (if d < 10 then 0x30 + d else if upperCase then 0x37 + d else 0x57 + d)

/-- A digit is written by one code point, or by two that differ in case. -/
theorem digitValue?_eq_some_iff {c : CodePoint} {d : Nat} (hd : d < 36) :
    c.digitValue? = some d ↔ c = ofDigit false d ∨ c = ofDigit true d := by
  have hval {n : Nat} (hn : n < 128) : c = ofNat n ↔ c.val = n := by
    rw [Fin.ext_iff]
    show c.val = n % 1114112 ↔ c.val = n
    rw [Nat.mod_eq_of_lt (by omega)]
  rw [digitValue?_eq_some, ofDigit, ofDigit]
  by_cases h10 : d < 10
  · rw [if_pos h10, if_pos h10, hval (by omega)]
    omega
  · rw [if_neg h10, if_neg h10, if_neg Bool.false_ne_true, if_pos rfl, hval (by omega),
      hval (by omega)]
    omega

end CodePoint

namespace Alphabet

/-- The digit that a code point is read as. -/
def digitOf? (a : Alphabet) (c : CodePoint) : Option Nat := a.table.lookup [c]

/-- The first symbol with the key counts, whether or not a later one has it too. -/
theorem lookup_tableFrom (keysOf : CodePoint → List Text) (d : Nat) (symbols k : Text) :
    (tableFrom keysOf d symbols).lookup k =
      (symbols.findIdx? fun c => (keysOf c).contains k).map (d + ·) := by
  induction symbols generalizing d with
  | nil => rfl
  | cons c cs ih =>
    rw [tableFrom, List.lookup_append, lookup_map_pair, ih, List.findIdx?_cons]
    cases h : (keysOf c).contains k with
    | true => simp
    | false =>
      simp only [Bool.false_eq_true, ↓reduceIte, Option.none_or, Option.map_map]
      congr 1
      funext n
      simp only [Function.comp_apply]
      omega

/-- A table whose keys are ASCII has no digit for any other code point. -/
theorem lookup_of_not_ascii {table : List (Text × Nat)}
    (h : (table.all fun p => p.1.all fun c => c.val < 128) = true) {c : CodePoint}
    (hc : ¬ c.val < 128) : table.lookup [c] = none := by
  rw [List.lookup_eq_none_iff]
  intro p hp
  rw [bne_iff_ne]
  intro hkey
  have hascii := List.all_eq_true.mp (List.all_eq_true.mp h p hp) c
    (hkey ▸ List.mem_singleton_self c)
  exact hc (of_decide_eq_true hascii)

/-- Such a table is a function of code points that agrees with it on ASCII and knows no
other code point. -/
theorem lookup_eq_of_ascii {table : List (Text × Nat)}
    (h : (table.all fun p => p.1.all fun c => c.val < 128) = true) {f : CodePoint → Option Nat}
    (hascii : ∀ n : Fin 128, table.lookup [CodePoint.ofNat n] = f (CodePoint.ofNat n))
    (hnone : ∀ c, ¬ c.val < 128 → f c = none) : (fun c => table.lookup [c]) = f := by
  funext c
  by_cases hc : c.val < 128
  · exact CodePoint.forall_ascii (P := fun c => table.lookup [c] = f c) hascii c hc
  · rw [lookup_of_not_ascii h hc, hnone c hc]

/-! ## Reading -/

theorem decode_singleton (a : Alphabet) (c : CodePoint) (position : Int) :
    a.decode [c] position =
      (a.digitOf? c).elim (.error (.notADigit [c] a.radix position)) .ok := rfl

theorem readFrom_of_all {a : Alphabet} {t : Text} (h : ∀ c ∈ t, (a.digitOf? c).isSome) (i : Nat) :
    a.readFrom i t = .ok (t.filterMap a.digitOf?) := by
  induction t generalizing i with
  | nil => rfl
  | cons c t ih =>
    obtain ⟨d, hd⟩ := Option.isSome_iff_exists.mp (h c (List.mem_cons_self ..))
    have ht := ih (fun b hb => h b (List.mem_cons_of_mem _ hb)) (i + 1)
    simp [readFrom, decode_singleton, hd, ht, bind, Except.bind, pure, Except.pure]

theorem readFrom_of_foreign {a : Alphabet} {t : Text} (h : ¬ ∀ c ∈ t, (a.digitOf? c).isSome)
    (i : Nat) : ∃ c, a.readFrom i t = .error
      (.notADigit [c] a.radix (i + t.findIdx (fun c => (a.digitOf? c).isNone) : Nat)) := by
  induction t generalizing i with
  | nil => simp at h
  | cons c t ih =>
    cases hd : a.digitOf? c with
    | none =>
      exact ⟨c, by simp [readFrom, decode_singleton, hd, bind, Except.bind, List.findIdx_cons]⟩
    | some d =>
      have ht : ¬ ∀ b ∈ t, (a.digitOf? b).isSome := by
        intro hall
        apply h
        intro b hb
        rcases List.mem_cons.mp hb with rfl | hb
        · simp [hd]
        · exact hall b hb
      obtain ⟨b, hb⟩ := ih ht (i + 1)
      refine ⟨b, ?_⟩
      simp [readFrom, decode_singleton, hd, hb, bind, Except.bind, List.findIdx_cons]
      omega

/-! ## Spelling -/

/-- `a` reads each symbol of `b` as the digit that `b` writes with it. -/
def Reads (a b : Alphabet) : Prop :=
  ∀ d < b.radix, a.digitOf? (b.symbols.getD d 0) = some d

theorem Reads.map_spell {a b : Alphabet} (h : a.Reads b) {digits : List Nat}
    (hd : ∀ d ∈ digits, d < b.radix) : (b.spell digits).map a.digitOf? = digits.map some := by
  simp only [spell, List.map_map]
  exact List.map_congr_left fun d hm => h d (hd d hm)

theorem readFrom_spell {a b : Alphabet} (h : a.Reads b) {digits : List Nat}
    (hd : ∀ d ∈ digits, d < b.radix) (i : Nat) : a.readFrom i (b.spell digits) = .ok digits := by
  have hmap := h.map_spell hd
  have hall : ∀ c ∈ b.spell digits, (a.digitOf? c).isSome := by
    intro c hc
    have hm : a.digitOf? c ∈ digits.map some := hmap ▸ List.mem_map_of_mem hc
    obtain ⟨d, -, hs⟩ := List.mem_map.mp hm
    simp [← hs]
  rw [readFrom_of_all hall]
  congr 1
  calc (b.spell digits).filterMap a.digitOf?
      = ((b.spell digits).map a.digitOf?).filterMap id := by simp [List.filterMap_map]
    _ = (digits.map some).filterMap id := by rw [hmap]
    _ = digits := by simp [List.filterMap_map]

theorem spell_mem {a : Alphabet} {digits : List Nat} (hd : ∀ d ∈ digits, d < a.radix)
    {c : CodePoint} (hc : c ∈ a.spell digits) : c ∈ a.symbols := by
  obtain ⟨d, hm, rfl⟩ := List.mem_map.mp hc
  rw [List.getD_eq_getElem?_getD, List.getElem?_eq_getElem (hd d hm)]
  exact List.getElem_mem _

/-! ## Positional notation -/

/-- The 36 digits of positional notation in one case. -/
def casedDigits (upperCase : Bool) : Text :=
  if upperCase then Text.asciiUpper digits else digits

/-- The first `n` digits in one case, either case being read. -/
def casedAlphabet (n : Nat) (upperCase : Bool) : Alphabet :=
  tabulated .ascii ((casedDigits upperCase).take n) true

theorem length_casedDigits (upperCase : Bool) : (casedDigits upperCase).length = 36 := by
  cases upperCase <;> decide

/-- A digit is found under itself and in either case. -/
private theorem keys_casedDigits (upperCase : Bool) : ∀ d < 36,
    keys .ascii true ((casedDigits upperCase).getD d 0) =
      [[.ofDigit upperCase d], [.ofDigit false d], [.ofDigit true d]] := by
  cases upperCase <;> decide

theorem mem_keys_casedDigits {upperCase : Bool} {d : Nat} (hd : d < 36) {c : CodePoint} :
    [c] ∈ keys .ascii true ((casedDigits upperCase).getD d 0) ↔ c.digitValue? = some d := by
  rw [keys_casedDigits upperCase d hd, CodePoint.digitValue?_eq_some_iff hd]
  simp only [List.mem_cons, List.cons.injEq, and_true, List.not_mem_nil, or_false]
  cases upperCase with
  | false => exact or_self_left
  | true => exact ⟨fun h => h.elim Or.inr id, Or.inr⟩

/-- Reading by the whole table is reading by value. -/
theorem findIdx?_casedDigits (upperCase : Bool) (c : CodePoint) :
    ((casedDigits upperCase).findIdx? fun s => (keys .ascii true s).contains [c]) =
      c.digitValue? := by
  have hkey {j : Nat} (hj : j < (casedDigits upperCase).length) :
      (keys .ascii true (casedDigits upperCase)[j]).contains [c] = true ↔
        c.digitValue? = some j := by
    rw [List.contains_iff_mem, ← mem_keys_casedDigits (length_casedDigits upperCase ▸ hj),
      List.getD_eq_getElem?_getD, List.getElem?_eq_getElem hj, Option.getD_some]
  cases hc : c.digitValue? with
  | none =>
    rw [List.findIdx?_eq_none_iff]
    intro s hs
    obtain ⟨j, hj, rfl⟩ := List.mem_iff_getElem.mp hs
    rw [← Bool.not_eq_true, hkey hj, hc]
    exact nofun
  | some d =>
    have hd : d < (casedDigits upperCase).length := by
      have := CodePoint.digitValue?_eq_some.mp hc
      rw [length_casedDigits]
      omega
    rw [List.findIdx?_eq_some_iff_getElem]
    refine ⟨hd, (hkey hd).mpr hc, ?_⟩
    intro j hj hjc
    rw [hkey (by omega), hc, Option.some.injEq] at hjc
    omega

theorem digitOf?_casedAlphabet (n : Nat) (upperCase : Bool) (c : CodePoint) :
    (casedAlphabet n upperCase).digitOf? c = c.digitValue?.filter (· < n) := by
  rw [digitOf?, casedAlphabet, tabulated, lookup_tableFrom, List.findIdx?_take,
    findIdx?_casedDigits]
  cases c.digitValue? with
  | none => rfl
  | some d => by_cases h : d < n <;> simp [Option.guard, Option.filter, h]

theorem radix_casedAlphabet {n : Nat} (hn : n ≤ 36) (upperCase : Bool) :
    (casedAlphabet n upperCase).radix = n := by
  simp [radix, casedAlphabet, tabulated, length_casedDigits, hn]

/-- The symbol of a digit has the value of the digit. -/
theorem digitValue?_casedDigits (upperCase : Bool) {d : Nat} (hd : d < 36) :
    ((casedDigits upperCase).getD d 0).digitValue? = some d := by
  rw [← mem_keys_casedDigits hd]
  exact List.mem_cons_self ..

theorem getD_casedAlphabet {n d : Nat} (hd : d < n) (upperCase : Bool) :
    (casedAlphabet n upperCase).symbols.getD d 0 = (casedDigits upperCase).getD d 0 := by
  simp [casedAlphabet, tabulated, List.getD_eq_getElem?_getD, hd]

/-- Each case reads what the other writes. -/
theorem reads_casedAlphabet {n : Nat} (hn : n ≤ 36) (upperCase upperCase' : Bool) :
    (casedAlphabet n upperCase').Reads (casedAlphabet n upperCase) := by
  intro d hd
  rw [radix_casedAlphabet hn] at hd
  rw [digitOf?_casedAlphabet, getD_casedAlphabet hd, digitValue?_casedDigits _ (by omega)]
  simp [hd]

/-- Symbols share no key if each key has the index of its symbol for its value. -/
private theorem unambiguous_of_value {keysOf : CodePoint → List Text} {f : Text → Option Nat}
    {symbols : Text} (h : ∀ j (hj : j < symbols.length), ∀ k ∈ keysOf symbols[j], f k = some j) :
    Unambiguous keysOf symbols := by
  intro i j b c hb hc hij k hkb hkc
  obtain ⟨hi, rfl⟩ := List.getElem?_eq_some_iff.mp hb
  obtain ⟨hj, rfl⟩ := List.getElem?_eq_some_iff.mp hc
  exact hij (Option.some.inj ((h i hi k hkb).symm.trans (h j hj k hkc)))

/-- The value of a key that is one code point. -/
private def keyValue? : Text → Option Nat
  | [c] => c.digitValue?
  | _ => none

theorem positional_eq {r : Nat} (h2 : 2 ≤ r) (h36 : r ≤ 36) (upperCase : Bool) :
    positional r upperCase = .ok (casedAlphabet r upperCase) := by
  have hkeys : Unambiguous (keys .ascii true) ((casedDigits upperCase).take r) := by
    apply unambiguous_of_value (f := keyValue?)
    intro j hj k hk
    have hj36 : j < 36 := by
      rw [List.length_take, length_casedDigits] at hj
      omega
    have hget : ((casedDigits upperCase).take r)[j] = (casedDigits upperCase).getD j 0 := by
      rw [List.getElem_take, List.getD_eq_getElem?_getD, List.getElem?_eq_getElem,
        Option.getD_some]
    rw [hget] at hk
    obtain ⟨c, rfl⟩ : ∃ c, k = [c] := by
      rw [keys_casedDigits upperCase j hj36] at hk
      simp only [List.mem_cons, List.not_mem_nil, or_false] at hk
      rcases hk with rfl | rfl | rfl
      · exact ⟨_, rfl⟩
      · exact ⟨_, rfl⟩
      · exact ⟨_, rfl⟩
    exact (mem_keys_casedDigits hj36).mp hk
  have hcase : (if upperCase then Text.asciiUpper (digits.take r) else digits.take r) =
      (casedDigits upperCase).take r := by
    cases upperCase <;> simp [casedDigits, Text.asciiUpper, List.map_take]
  have hr : 2 ≤ (r : Int) ∧ (r : Int) ≤ 36 := by omega
  have h2 : 2 ≤ ((casedDigits upperCase).take r).length := by
    rw [List.length_take, length_casedDigits]
    omega
  rw [positional, if_pos hr]
  simp only [Int.toNat_natCast, hcase]
  exact build_of_unambiguous h2 hkeys

end Alphabet
end Octets
