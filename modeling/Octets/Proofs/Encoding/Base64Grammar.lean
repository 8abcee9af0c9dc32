import Mathlib.Data.List.Induction
import Octets.Encoding.Basic
import Octets.Proofs.BitString
import Octets.Proofs.Encoding.Base64
/-!
# Which texts are Base64

Blanks aside, a text is read when it consists of symbols and padding after them
(`writes_iff`), unless one symbol is left over. What is read are the bits of the
symbols, as far as they fill bytes (`ofBytes_decodeDigits`). A text that is refused is
refused at the first code point that is out of place, if there is one (`scan_eq`).
-/

namespace Octets

/-- The value of a Base64 symbol of either alphabet: capital letters, small letters,
digits, plus or minus, slash or underscore. -/
def CodePoint.sextet? (c : CodePoint) : Option Nat :=
  if 0x41 ≤ c.val ∧ c.val ≤ 0x5A then some (c.val - 0x41)
  else if 0x61 ≤ c.val ∧ c.val ≤ 0x7A then some (c.val - 0x61 + 26)
  else if 0x30 ≤ c.val ∧ c.val ≤ 0x39 then some (c.val - 0x30 + 52)
  else if c = CodePoint.ofChar '+' ∨ c = CodePoint.ofChar '-' then some 62
  else if c = CodePoint.ofChar '/' ∨ c = CodePoint.ofChar '_' then some 63
  else none

namespace Base64

/-! ## Symbols -/

/-- What the two alphabets read together are the symbols, and nothing else. -/
theorem digit?_eq : digit? = CodePoint.sextet? := by
  apply Alphabet.lookup_eq_of_ascii
  case h => decide
  case hascii => decide +kernel
  case hnone =>
    intro c hc
    have hne (d : Char) (hd : d.toNat < 128) : c ≠ CodePoint.ofChar d := by
      rintro rfl
      exact hc hd
    unfold CodePoint.sextet?
    rw [if_neg (by omega), if_neg (by omega), if_neg (by omega), if_neg, if_neg]
    · exact fun h => h.elim (hne '/' (by decide)) (hne '_' (by decide))
    · exact fun h => h.elim (hne '+' (by decide)) (hne '-' (by decide))

theorem sextet?_lt {c : CodePoint} {d : Nat} (h : c.sextet? = some d) : d < 64 := by
  unfold CodePoint.sextet? at h
  repeat' split at h
  all_goals cases h
  all_goals omega

theorem lt_of_mem_sextets (t : Text) : ∀ d ∈ t.filterMap CodePoint.sextet?, d < 64 := by
  intro d hd
  obtain ⟨c, -, hc⟩ := List.mem_filterMap.mp hd
  exact sextet?_lt hc

/-- The blank, the tab and the four line breaks of ASCII. -/
def blanks : Text := [' ', '\t', '\r', '\n', '\x0C', '\x0B'].map CodePoint.ofChar

theorem isSpace_iff {c : CodePoint} : isSpace c = true ↔ c ∈ blanks := by
  simp only [isSpace, blanks, Bool.or_eq_true, Bool.and_eq_true, decide_eq_true_eq, List.map_cons,
    List.map_nil, List.mem_cons, List.not_mem_nil, or_false, Fin.ext_iff, CodePoint.val_ofChar]
  simp
  omega

theorem padSymbol_not_mem_blanks : padSymbol ∉ blanks := by decide

theorem sextet?_padSymbol : padSymbol.sextet? = none := by decide

theorem sextet?_of_blank {c : CodePoint} (h : c ∈ blanks) : c.sextet? = none := by
  have hall : (blanks.all fun c => c.sextet? == none) = true := by decide
  simpa using List.all_eq_true.mp hall c h

/-! ## Places -/

/-- A text without its blanks. -/
def compact (t : Text) : Text := t.filter (· ∉ blanks)

theorem compact_append (t t' : Text) : compact (t ++ t') = compact t ++ compact t' :=
  List.filter_append ..

theorem compact_cons_of_blank {c : CodePoint} (h : c ∈ blanks) (t : Text) :
    compact (c :: t) = compact t :=
  List.filter_cons_of_neg (by simpa using h)

theorem compact_cons_of_not_blank {c : CodePoint} (h : c ∉ blanks) (t : Text) :
    compact (c :: t) = c :: compact t :=
  List.filter_cons_of_pos (by simpa using h)

theorem mem_compact {t : Text} {c : CodePoint} : c ∈ compact t ↔ c ∈ t ∧ c ∉ blanks := by
  simp [compact]

/-- Neither a blank nor padding stands at index `i`, and what stands there is no symbol
or has padding before it. -/
def Misplaced (t : Text) (i : Nat) : Prop :=
  ∃ c, t[i]? = some c ∧ c ∉ blanks ∧ c ≠ padSymbol ∧
    (c.sextet? = none ∨ padSymbol ∈ t.take i)

/-- What a text writes: the symbols left when its blanks are taken out, and the padding
from its end. -/
structure Writes (t u : Text) : Prop where
  padded : ∃ k, compact t = u ++ List.replicate k padSymbol
  symbols : ∀ c ∈ u, c.sextet?.isSome

theorem misplaced_append_of_lt {t : Text} (t' : Text) {i : Nat} (hi : i < t.length) :
    Misplaced (t ++ t') i ↔ Misplaced t i := by
  unfold Misplaced
  rw [List.getElem?_append_left hi, List.take_append_of_le_length (Nat.le_of_lt hi)]

theorem misplaced_append_cons {t : Text} {c : CodePoint} (t' : Text) :
    Misplaced (t ++ c :: t') t.length ↔
      c ∉ blanks ∧ c ≠ padSymbol ∧ (c.sextet? = none ∨ padSymbol ∈ t) := by
  unfold Misplaced
  simp

theorem Writes.not_misplaced {t u : Text} (h : Writes t u) (i : Nat) : ¬ Misplaced t i := by
  rintro ⟨c, hc, hblank, hpad, hbad⟩
  obtain ⟨k, hk⟩ := h.padded
  obtain ⟨hi, rfl⟩ := List.getElem?_eq_some_iff.mp hc
  have hsplit : t = t.take i ++ t[i] :: t.drop (i + 1) := by simp
  rw [hsplit, compact_append, compact_cons_of_not_blank hblank] at hk
  have hnot (n : Nat) : t[i] ∉ List.replicate n padSymbol :=
    fun hm => hpad (List.eq_of_mem_replicate hm)
  -- What is no padding stands in `u`, and so does everything before it.
  rcases List.append_eq_append_iff.mp hk with ⟨v, hu, hv⟩ | ⟨v, -, hv⟩
  · cases v with
    | nil =>
      rw [List.nil_append] at hv
      exact hnot k (hv ▸ List.mem_cons_self ..)
    | cons d v =>
      rw [List.cons_append, List.cons.injEq] at hv
      rcases hbad with hnone | hbefore
      · have hs := h.symbols t[i] (by simp [hu, hv.1])
        simp [hnone] at hs
      · have hs := h.symbols padSymbol (by
          simp [hu, mem_compact, hbefore, padSymbol_not_mem_blanks])
        simp [sextet?_padSymbol] at hs
  · exact hnot k (hv ▸ by simp)

theorem exists_writes {t : Text} (h : ∀ i, ¬ Misplaced t i) : ∃ u, Writes t u := by
  induction t using List.reverseRecOn with
  | nil => exact ⟨[], ⟨0, rfl⟩, by simp⟩
  | append_singleton t c ih =>
    have ht (i : Nat) : ¬ Misplaced t i := by
      intro hi
      have hlt : i < t.length := by
        obtain ⟨d, hd, -⟩ := hi
        exact (List.getElem?_eq_some_iff.mp hd).1
      exact h i ((misplaced_append_of_lt [c] hlt).mpr hi)
    have hlast := mt (misplaced_append_cons (c := c) []).mpr (h t.length)
    obtain ⟨u, ⟨k, hk⟩, hu⟩ := ih ht
    by_cases hblank : c ∈ blanks
    · refine ⟨u, ⟨k, ?_⟩, hu⟩
      rw [compact_append, compact_cons_of_blank hblank, hk]
      exact List.append_nil _
    have hcompact : compact (t ++ [c]) = u ++ (List.replicate k padSymbol ++ [c]) := by
      rw [compact_append, compact_cons_of_not_blank hblank, hk, List.append_assoc]
      rfl
    by_cases hpad : c = padSymbol
    · refine ⟨u, ⟨k + 1, ?_⟩, hu⟩
      rw [hcompact, hpad, List.replicate_succ']
    · obtain ⟨hsome, hbefore⟩ : c.sextet?.isSome ∧ padSymbol ∉ t := by
        simpa [hblank, hpad, Option.isSome_iff_ne_none] using hlast
      have hk0 : k = 0 := by
        by_contra hne
        apply hbefore
        have hmem : padSymbol ∈ compact t := by
          simp [hk, hne]
        exact (mem_compact.mp hmem).1
      refine ⟨u ++ [c], ⟨0, ?_⟩, ?_⟩
      · simp [hcompact, hk0]
      · intro d hd
        rcases List.mem_append.mp hd with hd | hd
        · exact hu d hd
        · rwa [List.mem_singleton.mp hd]

/-- The texts in which everything is in its place. -/
theorem writes_iff {t : Text} : (∃ u, Writes t u) ↔ ∀ i, ¬ Misplaced t i := by
  constructor
  · rintro ⟨u, h⟩
    exact h.not_misplaced
  · exact exists_writes

theorem Writes.sextets_eq {t u : Text} (h : Writes t u) :
    t.filterMap CodePoint.sextet? = u.filterMap CodePoint.sextet? := by
  obtain ⟨k, hk⟩ := h.padded
  have hblank : t.filterMap CodePoint.sextet? =
      (compact t).filterMap CodePoint.sextet? := by
    rw [compact, List.filterMap_filter]
    congr 1
    funext c
    by_cases hc : c ∈ blanks
    · simp [hc, sextet?_of_blank hc]
    · simp [hc]
  rw [hblank, hk, List.filterMap_append]
  simp [sextet?_padSymbol]

theorem Writes.length_sextets {t u : Text} (h : Writes t u) :
    (u.filterMap CodePoint.sextet?).length = u.length :=
  List.filterMap_length_eq_length.mpr h.symbols

/-! ## Reading the symbols -/

/-- A code point in its place is read, and reading goes on behind it. -/
theorem scan_of_placed {t t' : Text} {c : CodePoint}
    (h : ¬ Misplaced (t ++ c :: t') t.length) :
    scan t.length (t.contains padSymbol) (c :: t') =
      (scan (t ++ [c]).length ((t ++ [c]).contains padSymbol) t').map
        (c.sextet?.toList ++ ·) := by
  rw [misplaced_append_cons] at h
  have hmap (r : Outcome (List Nat)) : r.map (fun digits => digits) = r := by
    cases r <;> rfl
  by_cases hblank : c ∈ blanks
  · have hne : c ≠ padSymbol := by
      rintro rfl
      exact padSymbol_not_mem_blanks hblank
    rw [scan, if_pos (isSpace_iff.mpr hblank), sextet?_of_blank hblank]
    simp [hmap, hne.symm]
  · have hspace : ¬ isSpace c = true := mt isSpace_iff.mp hblank
    rw [scan, if_neg hspace]
    by_cases hpad : c = padSymbol
    · subst hpad
      rw [if_pos rfl, sextet?_padSymbol]
      simp [hmap]
    · obtain ⟨hsome, hbefore⟩ : c.sextet? ≠ none ∧ padSymbol ∉ t := by
        simpa [hblank, hpad] using h
      obtain ⟨d, hd⟩ := Option.ne_none_iff_exists'.mp hsome
      rw [if_neg hpad, digit?_eq, hd]
      simp [hbefore, Ne.symm hpad]

/-- A code point out of place is refused where it stands. -/
theorem scan_of_misplaced {t t' : Text} {c : CodePoint}
    (h : Misplaced (t ++ c :: t') t.length) :
    ∃ f, scan t.length (t.contains padSymbol) (c :: t') = .error f ∧ f.kind = .format ∧
      f.position = t.length := by
  obtain ⟨hblank, hpad, hbad⟩ := (misplaced_append_cons t').mp h
  have hspace : ¬ isSpace c = true := mt isSpace_iff.mp hblank
  rw [scan, if_neg hspace, if_neg hpad]
  by_cases hbefore : padSymbol ∈ t
  · refine ⟨.afterPadding t.length, ?_, rfl, rfl⟩
    rw [if_pos (by simpa using hbefore)]
  · have hnone : c.sextet? = none := by
      simpa [hbefore] using hbad
    refine ⟨.notBase64 c t.length, ?_, rfl, rfl⟩
    rw [if_neg (by simpa using hbefore), digit?_eq, hnone]

/-- Reading from behind `t` on, where nothing in `t` is out of place: either nothing
is, and the symbols are read, or the first code point that is names the index. -/
theorem scan_eq (t t' : Text) (ht : ∀ i < t.length, ¬ Misplaced (t ++ t') i) :
    (∀ i, ¬ Misplaced (t ++ t') i) ∧
        scan t.length (t.contains padSymbol) t' = .ok (t'.filterMap CodePoint.sextet?) ∨
      ∃ i f, Misplaced (t ++ t') i ∧ (∀ j < i, ¬ Misplaced (t ++ t') j) ∧
        scan t.length (t.contains padSymbol) t' = .error f ∧ f.kind = .format ∧
        f.position = i := by
  induction t' generalizing t with
  | nil =>
    refine Or.inl ⟨?_, rfl⟩
    rintro i ⟨c, hc, h⟩
    rw [List.append_nil] at hc ht
    exact ht i (List.getElem?_eq_some_iff.mp hc).1 ⟨c, hc, by simpa using h⟩
  | cons c t' ih =>
    by_cases hc : Misplaced (t ++ c :: t') t.length
    · obtain ⟨f, hscan, hkind, hposition⟩ := scan_of_misplaced hc
      exact Or.inr ⟨t.length, f, hc, ht, hscan, hkind, hposition⟩
    · have happend : t ++ [c] ++ t' = t ++ c :: t' := by simp
      have hstep := ih (t ++ [c])
      rw [happend] at hstep
      rw [scan_of_placed hc]
      have hprefix : ∀ i < (t ++ [c]).length, ¬ Misplaced (t ++ c :: t') i := by
        intro i hi
        rw [List.length_append, List.length_singleton] at hi
        rcases Nat.lt_succ_iff_lt_or_eq.mp hi with hi | rfl
        · exact ht i hi
        · exact hc
      rcases hstep hprefix with ⟨hall, hscan⟩ | ⟨i, f, hi, hleast, hscan, hkind, hposition⟩
      · refine Or.inl ⟨hall, ?_⟩
        rw [hscan]
        cases hd : c.sextet? <;> simp [hd, Except.map]
      · refine Or.inr ⟨i, f, hi, hleast, ?_, hkind, hposition⟩
        rw [hscan]
        rfl

/-! ## Blocks -/

theorem triple_eq_ofNat (v : Nat) : triple v = Bytes.ofNat 3 v := by
  simp [triple, Bytes.ofNat, Bytes.littleOfNat, Nat.div_div_eq_div_mul]

/-- The bytes that the digits of a block fill are their bits. -/
theorem ofBytes_take_triple {digits : List Nat} (hd : ∀ d ∈ digits, d < 2 ^ 6) {k n : Nat}
    (hwidth : 6 * digits.length + k = 24) (hfilled : 6 * digits.length / 8 = n) :
    BitString.ofBytes ((triple (digits.foldl (fun v d => v * 2 ^ 6 + d) 0 * 2 ^ k)).take n) =
      BitString.whole 6 digits := by
  have hthree : 8 * 3 = 6 * digits.length + k := hwidth.symm
  rw [BitString.ofBytes_take, triple_eq_ofNat, BitString.ofBytes_ofNat, hthree, ← hfilled,
    BitString.take_ofNat_whole hd]

/-- The bytes of the digits are their bits, as far as they fill bytes. -/
theorem ofBytes_decodeDigits {digits : List Nat} (hd : ∀ d ∈ digits, d < 64) :
    BitString.ofBytes (decodeDigits digits) = BitString.whole 6 digits := by
  fun_induction decodeDigits digits with
  | case1 a b c d ds ih =>
    have hblock : ∀ e ∈ [a, b, c, d], e < 64 := fun e he => hd e (by simp at he ⊢; tauto)
    have hrest : ∀ e ∈ ds, e < 64 := fun e he => hd e (by simp [he])
    have hfull : 6 * [a, b, c, d].length = 8 * 3 := rfl
    have hvalue : [a, b, c, d].foldl (fun v e => v * 2 ^ 6 + e) 0 * 2 ^ 0 =
        a * 2 ^ 18 + b * 2 ^ 12 + c * 2 ^ 6 + d := by
      simp only [List.foldl_cons, List.foldl_nil]
      omega
    have hbits := ofBytes_take_triple hblock (k := 0) (n := 3) rfl (by simp)
    rw [hvalue, BitString.whole_block hfull] at hbits
    rw [BitString.ofBytes_append, ih hrest]
    exact (congrArg (· ++ _) hbits).trans (BitString.whole_append hfull ds).symm
  | case2 a b c =>
    have hvalue : [a, b, c].foldl (fun v e => v * 2 ^ 6 + e) 0 * 2 ^ 6 =
        a * 2 ^ 18 + b * 2 ^ 12 + c * 2 ^ 6 := by
      simp only [List.foldl_cons, List.foldl_nil]
      omega
    have hbits := ofBytes_take_triple hd (k := 6) (n := 2) rfl (by simp)
    rwa [hvalue] at hbits
  | case3 a b =>
    have hvalue : [a, b].foldl (fun v e => v * 2 ^ 6 + e) 0 * 2 ^ 12 =
        a * 2 ^ 18 + b * 2 ^ 12 := by
      simp only [List.foldl_cons, List.foldl_nil]
      omega
    have hbits := ofBytes_take_triple hd (k := 12) (n := 1) rfl (by simp)
    rwa [hvalue] at hbits
  | case4 digits h4 h3 h2 =>
    match digits, h4, h3, h2 with
    | [], _, _, _ => rfl
    | [a], _, _, _ => simp [BitString.whole, BitString.ofBytes, BitString.ofDigits]
    | [a, b], _, _, h2 => exact absurd rfl (h2 a b)
    | [a, b, c], _, h3, _ => exact absurd rfl (h3 a b c)
    | a :: b :: c :: d :: ds, h4, _, _ => exact absurd rfl (h4 a b c d ds)

/-! ## Texts -/

/-- What reading makes of a text. -/
structure ReadsLeniently (read : Text → Outcome Bytes) (t : Text) : Prop where
  accepts : (∃ x, read t = .ok x) ↔ ∃ u, Writes t u ∧ u.length % 4 ≠ 1
  /-- What is read are the bits of the symbols, without those that fill no byte; these
  are four at most, whatever they are. -/
  bits : ∀ u x, Writes t u → read t = .ok x → x.length = 6 * u.length / 8 ∧
    6 * u.length ≤ 8 * x.length + 4 ∧ BitString.ofBytes x =
      (BitString.ofDigits 6 (u.filterMap CodePoint.sextet?)).take (8 * x.length)
  /-- The first code point out of place is named; where there is none, a symbol is left
  over and no index is known. -/
  refuses : (¬ ∃ x, read t = .ok x) → ∃ f, read t = .error f ∧ f.kind = .format ∧
    ((∃ i : Nat, Misplaced t i ∧ (∀ j < i, ¬ Misplaced t j) ∧ f.position = i) ∨
      (∀ i, ¬ Misplaced t i) ∧ f.position = -1)

theorem decode_of_writes {t u : Text} (h : Writes t u) : decode t =
    if u.length % 4 = 1 then .error (.danglingSymbol u.length)
    else .ok (decodeDigits (u.filterMap CodePoint.sextet?)) := by
  rcases scan_eq [] t (by simp) with ⟨-, hscan⟩ | ⟨i, -, hi, -⟩
  · have hscan : scan 0 false t = .ok (t.filterMap CodePoint.sextet?) := hscan
    simp only [decode, hscan, bind, Except.bind, h.sextets_eq, h.length_sextets]
    rfl
  · exact absurd hi (h.not_misplaced i)

theorem decode_of_misplaced {t : Text} {i : Nat} (h : Misplaced t i) :
    ∃ j f, Misplaced t j ∧ (∀ n < j, ¬ Misplaced t n) ∧ decode t = .error f ∧
      f.kind = .format ∧ f.position = j := by
  rcases scan_eq [] t (by simp) with ⟨hall, -⟩ | ⟨j, f, hj, hleast, hscan, hkind, hposition⟩
  · exact absurd h (hall i)
  · have hscan : scan 0 false t = .error f := hscan
    refine ⟨j, f, hj, hleast, ?_, hkind, hposition⟩
    simp only [decode, hscan, bind, Except.bind]

theorem digits_of_decode {t u : Text} {x : Bytes} (hu : Writes t u) (hx : decode t = .ok x) :
    u.length % 4 ≠ 1 ∧ decodeDigits (u.filterMap CodePoint.sextet?) = x := by
  rw [decode_of_writes hu] at hx
  by_cases hmod : u.length % 4 = 1
  · rw [if_pos hmod] at hx
    cases hx
  · rw [if_neg hmod] at hx
    exact ⟨hmod, Except.ok.inj hx⟩

theorem exists_writes_of_decode {t : Text} {x : Bytes} (hx : decode t = .ok x) :
    ∃ u, Writes t u ∧ u.length % 4 ≠ 1 := by
  have hplaced : ∀ i, ¬ Misplaced t i := by
    intro i hi
    obtain ⟨j, f, -, -, hf, -⟩ := decode_of_misplaced hi
    simp [hf] at hx
  obtain ⟨u, hu⟩ := writes_iff.mpr hplaced
  exact ⟨u, hu, (digits_of_decode hu hx).1⟩

theorem decode_of_refused {t : Text} (h : ¬ ∃ x, decode t = .ok x) :
    ∃ f, decode t = .error f ∧ f.kind = .format ∧
      ((∃ i : Nat, Misplaced t i ∧ (∀ j < i, ¬ Misplaced t j) ∧ f.position = i) ∨
        (∀ i, ¬ Misplaced t i) ∧ f.position = -1) := by
  by_cases hplaced : ∀ i, ¬ Misplaced t i
  · obtain ⟨u, hu⟩ := exists_writes hplaced
    have hdecode := decode_of_writes hu
    by_cases hmod : u.length % 4 = 1
    · rw [if_pos hmod] at hdecode
      exact ⟨_, hdecode, rfl, Or.inr ⟨hplaced, rfl⟩⟩
    · rw [if_neg hmod] at hdecode
      exact absurd ⟨_, hdecode⟩ h
  · obtain ⟨i, hi⟩ := not_forall_not.mp hplaced
    obtain ⟨j, f, hj, hleast, hf, hkind, hposition⟩ := decode_of_misplaced hi
    exact ⟨f, hf, hkind, Or.inl ⟨j, hj, hleast, hposition⟩⟩

theorem readsLeniently_decode (t : Text) : ReadsLeniently decode t where
  accepts := by
    constructor
    · rintro ⟨x, hx⟩
      exact exists_writes_of_decode hx
    · rintro ⟨u, hu, hmod⟩
      exact ⟨_, (decode_of_writes hu).trans (if_neg hmod)⟩
  bits u x hu hx := by
    obtain ⟨hmod, hdigits⟩ := digits_of_decode hu hx
    have hbits := ofBytes_decodeDigits (lt_of_mem_sextets u)
    rw [hdigits] at hbits
    obtain ⟨hlength, htake⟩ := BitString.length_and_eq_take hbits
    rw [hu.length_sextets] at hlength
    exact ⟨hlength, by omega, htake⟩
  refuses := decode_of_refused

/-- Whatever alphabet and padding of its own it writes, Base64 reads every text the
same way. -/
theorem readsLeniently (urlSafe padding : Bool) (t : Text) :
    ReadsLeniently ((Encoding.base64 urlSafe padding).decode · .big) t := by
  have hread : ((Encoding.base64 urlSafe padding).decode · .big) = decode := by
    funext t
    exact Encoding.decode_big (.base64 urlSafe padding) t
  rw [hread]
  exact readsLeniently_decode t

end Base64
end Octets
