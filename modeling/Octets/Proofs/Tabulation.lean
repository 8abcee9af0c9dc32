import Mathlib.Data.List.Basic
import Mathlib.Order.Bounds.Basic
import Octets.Alphabet
/-!
# Filling the table of an alphabet

The keys of the symbols are entered one after the other, those of one symbol in any order.
What carries over from one symbol to the next is that the table records the symbols seen
(`Records`): it has their keys and no others, each with the index of its symbol. While it
does, the keys of a further symbol can be entered exactly when it shares none with a symbol
seen (`Records.free_iff`), and then one symbol more is recorded (`Records.enter`). So in the
end all symbols are recorded and no two share a key, or the first symbol is named that shares
one with a symbol before it (`tabulation_enterSymbols`).

All in one: `tabulates`.
-/

namespace Octets.Alphabet

variable {keysOf listing : CodePoint → List Text} {symbols seen : Text} {c : CodePoint}
  {table entered : List (Text × Nat)} {ks : List Text} {k : Text} {d j : Nat}

/-! ## Entering the keys of one symbol -/

theorem lookup_map_pair (keys : List Text) (d : Nat) (k : Text) :
    (keys.map (·, d)).lookup k = if keys.contains k then some d else none := by
  induction keys with
  | nil => rfl
  | cons a keys ih =>
    by_cases h : k = a
    · subst h
      simp
    · have hb : (k == a) = false := by simpa using h
      simp [List.lookup_cons, hb, ih, h]

/-- None of the keys stands for a digit other than `d`. -/
def Free (d : Nat) (ks : List Text) (table : List (Text × Nat)) : Prop :=
  ∀ k ∈ ks, ∀ i, table.lookup k = some i → i = d

theorem free_cons : Free d (k :: ks) table ↔
    (∀ i, table.lookup k = some i → i = d) ∧ Free d ks table :=
  List.forall_mem_cons

/-- What has been entered for `d` itself is not in the way. -/
theorem free_append (k : Text) : Free d ks (table ++ [(k, d)]) ↔ Free d ks table := by
  refine forall₂_congr fun q _ => ?_
  have hlast := lookup_map_pair [k] d q
  rw [List.map_singleton] at hlast
  rw [List.lookup_append, hlast]
  cases table.lookup q with
  | some i => rfl
  | none => simp

theorem enterKeys_eq_some_iff :
    enterKeys d ks table = some entered ↔ Free d ks table ∧ entered = table ++ ks.map (·, d) := by
  induction ks generalizing table with
  | nil => simp [enterKeys, Free, eq_comm]
  | cons k ks ih =>
    have hany : (table.lookup k).any (· != d) = true ↔
        ¬ ∀ i, table.lookup k = some i → i = d := by
      cases table.lookup k <;> simp
    rw [enterKeys, free_cons]
    by_cases hk : ∀ i, table.lookup k = some i → i = d
    · rw [if_neg (fun h => hany.mp h hk), ih, free_append, and_iff_right hk, List.append_assoc]
      rfl
    · rw [if_pos (hany.mpr hk)]
      simp [hk]

/-! ## What the table records -/

/-- The table has the keys of the symbols seen and no others, each with the index of its
symbol. -/
def Records (keysOf : CodePoint → List Text) (seen : Text) (table : List (Text × Nat)) : Prop :=
  ∀ k i, table.lookup k = some i ↔ ∃ c, seen[i]? = some c ∧ k ∈ keysOf c

/-- The symbol at `j` has a key of a symbol before it. -/
def Clashes (keysOf : CodePoint → List Text) (symbols : Text) (j : Nat) : Prop :=
  ∃ i < j, ∃ b c, symbols[i]? = some b ∧ symbols[j]? = some c ∧ ∃ k ∈ keysOf b, k ∈ keysOf c

/-- No two symbols share a key. -/
def Unambiguous (keysOf : CodePoint → List Text) (symbols : Text) : Prop :=
  ∀ (i j : Nat) (b c : CodePoint), symbols[i]? = some b → symbols[j]? = some c → i ≠ j →
    (keysOf b).Disjoint (keysOf c)

/-- The keys of each symbol in some order. -/
def Lists (listing keysOf : CodePoint → List Text) : Prop :=
  ∀ c k, k ∈ listing c ↔ k ∈ keysOf c

theorem unambiguous_iff : Unambiguous keysOf symbols ↔ ∀ j, ¬ Clashes keysOf symbols j := by
  constructor
  · rintro h j ⟨i, hij, b, c, hb, hc, k, hkb, hkc⟩
    exact h i j b c hb hc (Nat.ne_of_lt hij) hkb hkc
  · intro h i j b c hb hc hij k hkb hkc
    rcases Nat.lt_or_gt_of_ne hij with hlt | hgt
    · exact h j ⟨i, hlt, b, c, hb, hc, k, hkb, hkc⟩
    · exact h i ⟨j, hgt, c, b, hc, hb, k, hkc, hkb⟩

/-- Whether a symbol clashes is a matter of the symbols up to it. -/
theorem clashes_append (hj : j < seen.length) (rest : Text) :
    Clashes keysOf (seen ++ rest) j ↔ Clashes keysOf seen j := by
  refine exists_congr fun i => and_congr_right fun hij => ?_
  rw [List.getElem?_append_left hj, List.getElem?_append_left (Nat.lt_trans hij hj)]

private theorem getElem?_concat_eq_some {i : Nat} {b : CodePoint} :
    (seen ++ [c])[i]? = some b ↔ seen[i]? = some b ∨ i = seen.length ∧ c = b := by
  grind

namespace Records

theorem nil : Records keysOf [] [] := by
  intro k i
  simp

theorem lookup_eq (h : Records keysOf seen table) (h' : Records keysOf seen entered) (k : Text) :
    table.lookup k = entered.lookup k :=
  Option.ext fun i => (h k i).trans (h' k i).symm

theorem unambiguous (h : Records keysOf seen table) : Unambiguous keysOf seen := by
  intro i j b c hb hc hij k hkb hkc
  have hi := (h k i).mpr ⟨b, hb, hkb⟩
  have hj := (h k j).mpr ⟨c, hc, hkc⟩
  exact hij (Option.some.inj (hi.symm.trans hj))

/-- The keys of a further symbol can be entered unless it shares one with a symbol seen. -/
theorem free_iff (h : Records keysOf seen table) (hks : ∀ k, k ∈ ks ↔ k ∈ keysOf c)
    (rest : Text) :
    Free seen.length ks table ↔ ¬ Clashes keysOf (seen ++ c :: rest) seen.length := by
  constructor
  · rintro hfree ⟨i, hi, b, c', hb, hc', k, hkb, hkc⟩
    rw [List.getElem?_append_left hi] at hb
    rw [List.getElem?_append_right (Nat.le_refl _), Nat.sub_self] at hc'
    cases hc'
    exact Nat.ne_of_lt hi (hfree k ((hks k).mpr hkc) i ((h k i).mpr ⟨b, hb, hkb⟩))
  · intro hclash k hk i hi
    obtain ⟨b, hb, hkb⟩ := (h k i).mp hi
    have hlt := (List.getElem?_eq_some_iff.mp hb).1
    refine absurd ⟨i, hlt, b, c, ?_, ?_, k, hkb, (hks k).mp hk⟩ hclash
    · rwa [List.getElem?_append_left hlt]
    · rw [List.getElem?_append_right (Nat.le_refl _), Nat.sub_self]
      rfl

/-- Once its keys have been entered, a further symbol is recorded. -/
theorem enter (h : Records keysOf seen table) (hks : ∀ k, k ∈ ks ↔ k ∈ keysOf c)
    (hfree : Free seen.length ks table) :
    Records keysOf (seen ++ [c]) (table ++ ks.map (·, seen.length)) := by
  intro k i
  have hnew : (∃ b, (seen ++ [c])[i]? = some b ∧ k ∈ keysOf b) ↔
      table.lookup k = some i ∨ i = seen.length ∧ k ∈ ks := by
    rw [h k i, hks k]
    simp only [getElem?_concat_eq_some, or_and_right, exists_or, and_assoc, exists_and_left,
      exists_eq_left']
  rw [hnew, List.lookup_append, lookup_map_pair]
  cases hlookup : table.lookup k with
  | some j =>
    -- A key that is found already keeps its digit, and `hfree` says that it is the new one.
    rw [Option.some_or, iff_self_or]
    rintro ⟨rfl, hk⟩
    rw [hfree k hk j hlookup]
  | none =>
    by_cases hk : k ∈ ks
    · simp [hk, eq_comm]
    · simp [hk]

end Records

/-! ## Entering all symbols -/

/-- What comes of entering the symbols. -/
inductive Tabulation (keysOf : CodePoint → List Text) (symbols : Text) :
    Except CodePoint (List (Text × Nat)) → Prop
  | filled {table : List (Text × Nat)} (h : Records keysOf symbols table) :
      Tabulation keysOf symbols (.ok table)
  /-- The earliest symbol that clashes is named. -/
  | clash {j : Nat} {c : CodePoint} (hj : IsLeast {j | Clashes keysOf symbols j} j)
      (hc : symbols[j]? = some c) : Tabulation keysOf symbols (.error c)

theorem tabulation_enterSymbols (hl : Lists listing keysOf) (h : Records keysOf seen table)
    (rest : Text) :
    Tabulation keysOf (seen ++ rest) (enterSymbols listing seen.length rest table) := by
  induction rest generalizing seen table with
  | nil =>
    rw [List.append_nil]
    exact .filled h
  | cons c rest ih =>
    rw [enterSymbols]
    cases hk : enterKeys seen.length (listing c) table with
    | none =>
      -- The symbols before this one are recorded, so that none of them clashes.
      refine .clash (j := seen.length) ⟨?_, ?_⟩ (by simp)
      · by_contra hclash
        have hfree := (h.free_iff (hl c) rest).mpr hclash
        rw [enterKeys_eq_some_iff.mpr ⟨hfree, rfl⟩] at hk
        cases hk
      · intro j hj
        by_contra hlt
        exact unambiguous_iff.mp h.unambiguous j ((clashes_append (by omega) _).mp hj)
    | some entered =>
      obtain ⟨hfree, rfl⟩ := enterKeys_eq_some_iff.mp hk
      have hnext := ih (h.enter (hl c) hfree)
      rwa [List.length_append, List.append_assoc] at hnext

theorem enterSymbols_eq_ok (h : enterSymbols keysOf d symbols table = .ok entered) :
    entered = table ++ tableFrom keysOf d symbols := by
  induction symbols generalizing d table with
  | nil =>
    cases h
    exact (List.append_nil _).symm
  | cons c cs ih =>
    rw [enterSymbols] at h
    cases hk : enterKeys d (keysOf c) table with
    | none =>
      rw [hk] at h
      cases h
    | some t =>
      rw [hk] at h
      obtain ⟨-, rfl⟩ := enterKeys_eq_some_iff.mp hk
      rw [ih h, List.append_assoc]
      rfl

/-! ## What is accepted -/

/-- What comes of an alphabet's symbols. -/
inductive Assembly (keysOf : CodePoint → List Text) (symbols : Text) (ignoresCase : Bool) :
    Outcome Alphabet → Prop
  | few (h : symbols.length < 2) :
      Assembly keysOf symbols ignoresCase (.error (.fewSymbols symbols.length))
  | ambiguous {j : Nat} {c : CodePoint} (h : 2 ≤ symbols.length)
      (hj : IsLeast {j | Clashes keysOf symbols j} j) (hc : symbols[j]? = some c) :
      Assembly keysOf symbols ignoresCase (.error (.ambiguousSymbol c symbols))
  | accepted {table : List (Text × Nat)} (h : 2 ≤ symbols.length)
      (ht : Records keysOf symbols table) :
      Assembly keysOf symbols ignoresCase (.ok ⟨symbols, ignoresCase, table⟩)

theorem assembly (hl : Lists listing keysOf) (symbols : Text) (ignoresCase : Bool) :
    Assembly keysOf symbols ignoresCase (assemble listing symbols ignoresCase) := by
  rw [assemble]
  by_cases hfew : symbols.length < 2
  · rw [if_pos hfew]
    exact .few hfew
  · rw [if_neg hfew]
    have htable := tabulation_enterSymbols hl .nil symbols
    rw [List.nil_append, List.length_nil] at htable
    generalize enterSymbols listing 0 symbols [] = r at htable
    cases htable with
    | filled h => exact .accepted (by omega) h
    | clash hj hc => exact .ambiguous (by omega) hj hc

namespace Assembly

variable {ignoresCase : Bool} {r : Outcome Alphabet}

theorem accepted_iff (h : Assembly keysOf symbols ignoresCase r) :
    (∃ a, r = .ok a) ↔ 2 ≤ symbols.length ∧ Unambiguous keysOf symbols := by
  cases h with
  | few h =>
    refine ⟨nofun, fun hr => ?_⟩
    omega
  | ambiguous _ hj _ => exact ⟨nofun, fun hr => absurd hj.1 (unambiguous_iff.mp hr.2 _)⟩
  | accepted h ht => exact ⟨fun _ => ⟨h, ht.unambiguous⟩, fun _ => ⟨_, rfl⟩⟩

theorem refused_few (h : Assembly keysOf symbols ignoresCase r) (hfew : symbols.length < 2) :
    r = .error (.fewSymbols symbols.length) := by
  cases h with
  | few _ => rfl
  | ambiguous h _ _ => omega
  | accepted h _ => omega

theorem refused_ambiguous (h : Assembly keysOf symbols ignoresCase r)
    (h2 : 2 ≤ symbols.length) (hne : ¬ Unambiguous keysOf symbols) :
    ∃ j c, IsLeast {j | Clashes keysOf symbols j} j ∧ symbols[j]? = some c ∧
      r = .error (.ambiguousSymbol c symbols) := by
  cases h with
  | few h => omega
  | ambiguous _ hj hc => exact ⟨_, _, hj, hc, rfl⟩
  | accepted _ ht => exact absurd ht.unambiguous hne

theorem kind_of_refused (h : Assembly keysOf symbols ignoresCase r) {f : Fault}
    (hr : r = .error f) : f.kind = .configuration := by
  cases h with
  | few _ => cases hr; rfl
  | ambiguous _ _ _ => cases hr; rfl
  | accepted _ _ => cases hr

end Assembly

theorem assemble_eq_ok {ignoresCase : Bool} {a : Alphabet}
    (h : assemble keysOf symbols ignoresCase = .ok a) :
    a = ⟨symbols, ignoresCase, tableFrom keysOf 0 symbols⟩ := by
  rw [assemble] at h
  split at h
  · cases h
  · split at h
    · cases h
    · next ht =>
      cases h
      rw [enterSymbols_eq_ok ht, List.nil_append]

theorem assembly_build (cases : CaseMap) (symbols : Text) (ignoresCase : Bool) :
    Assembly (keys cases ignoresCase) symbols ignoresCase (build cases symbols ignoresCase) :=
  assembly (fun _ _ => Iff.rfl) symbols ignoresCase

/-- The check is all that building adds to the table. -/
theorem build_of_unambiguous {cases : CaseMap} {ignoresCase : Bool} (h2 : 2 ≤ symbols.length)
    (h : Unambiguous (keys cases ignoresCase) symbols) :
    build cases symbols ignoresCase = .ok (tabulated cases symbols ignoresCase) := by
  obtain ⟨a, ha⟩ := (assembly_build cases symbols ignoresCase).accepted_iff.mpr ⟨h2, h⟩
  rw [ha, assemble_eq_ok ha]
  rfl

/-! ## Both ways -/

/-- How the digits of an alphabet and the keys of its symbols stand for each other. -/
structure TwoWay (cases : CaseMap) (a : Alphabet) : Prop where
  decode_iff : ∀ k position i, a.decode k position = .ok i ↔
    ∃ c, a.symbols[i]? = some c ∧ k ∈ keys cases a.ignoresCase c
  /-- What is no key of any symbol is refused. -/
  decode_foreign : ∀ k position, (∀ c ∈ a.symbols, k ∉ keys cases a.ignoresCase c) →
    a.decode k position = .error (.notADigit k a.radix position)
  /-- Every refusal says where the key stood. -/
  refuses : ∀ k position f, a.decode k position = .error f →
    f.kind = .format ∧ f.position = position
  contains_iff : ∀ k position, a.contains k = true ↔ ∃ i, a.decode k position = .ok i
  decode_encode : ∀ i < a.radix, ∃ c, a.symbols[i]? = some c ∧ a.encode i = .ok c ∧
    ∀ position, a.decode [c] position = .ok i

theorem decode_eq_ok_iff {a : Alphabet} {position : Int} {i : Nat} :
    a.decode k position = .ok i ↔ a.table.lookup k = some i := by
  rw [decode]
  cases a.table.lookup k <;> simp

theorem encode_natCast {a : Alphabet} {i : Nat} (hc : a.symbols[i]? = some c) :
    a.encode i = .ok c := by
  have hnonneg : ¬ (i : Int) < 0 := by omega
  simp only [encode, if_neg hnonneg, Int.toNat_natCast, hc]
  rfl

theorem self_mem_keys (cases : CaseMap) (ignoresCase : Bool) (c : CodePoint) :
    [c] ∈ keys cases ignoresCase c := by
  rw [keys]
  split
  · exact List.mem_cons_self
  · exact List.mem_cons_self

theorem Records.twoWay {cases : CaseMap} {a : Alphabet}
    (h : Records (keys cases a.ignoresCase) a.symbols a.table) : TwoWay cases a where
  decode_iff k position i := decode_eq_ok_iff.trans (h k i)
  decode_foreign k position hforeign := by
    cases hlookup : a.table.lookup k with
    | none =>
      rw [decode, hlookup]
      rfl
    | some i =>
      obtain ⟨c, hc, hk⟩ := (h k i).mp hlookup
      exact absurd hk (hforeign c (List.mem_of_getElem? hc))
  refuses k position f hf := by
    rw [decode] at hf
    cases hlookup : a.table.lookup k with
    | none =>
      rw [hlookup] at hf
      cases hf
      exact ⟨rfl, rfl⟩
    | some i =>
      rw [hlookup] at hf
      cases hf
  contains_iff k position := by
    simp only [contains, decode_eq_ok_iff, Option.isSome_iff_exists]
  decode_encode i hi := by
    have hc := List.getElem?_eq_getElem hi
    refine ⟨_, hc, encode_natCast hc, fun position => ?_⟩
    rw [decode_eq_ok_iff, h]
    exact ⟨_, hc, self_mem_keys ..⟩

/-- The same refusal, or alphabets of the same symbols with the same digit for every key. -/
inductive Alike : Outcome Alphabet → Outcome Alphabet → Prop
  | refused (f : Fault) : Alike (.error f) (.error f)
  | accepted {a b : Alphabet} (hs : a.symbols = b.symbols)
      (hi : a.ignoresCase = b.ignoresCase)
      (ht : ∀ k, a.table.lookup k = b.table.lookup k) : Alike (.ok a) (.ok b)

theorem Assembly.alike {ignoresCase : Bool} {r r' : Outcome Alphabet}
    (h : Assembly keysOf symbols ignoresCase r) (h' : Assembly keysOf symbols ignoresCase r') :
    Alike r r' := by
  cases h with
  | few hfew =>
    rw [h'.refused_few hfew]
    exact .refused _
  | ambiguous h2 hj hc =>
    cases h' with
    | few _ => omega
    | ambiguous _ hj' hc' =>
      rw [hj.unique hj'] at hc
      rw [Option.some.inj (hc.symm.trans hc')]
      exact .refused _
    | accepted _ ht => exact absurd hj.1 (unambiguous_iff.mp ht.unambiguous _)
  | accepted h2 ht =>
    cases h' with
    | few _ => omega
    | ambiguous _ hj _ => exact absurd hj.1 (unambiguous_iff.mp ht.unambiguous _)
    | accepted _ ht' => exact .accepted rfl rfl (ht.lookup_eq ht')

/-- What building an alphabet comes to. -/
structure Tabulates (cases : CaseMap) (symbols : Text) (ignoresCase : Bool) : Prop where
  accepts : (∃ a, build cases symbols ignoresCase = .ok a) ↔
    2 ≤ symbols.length ∧ Unambiguous (keys cases ignoresCase) symbols
  refuses : ∀ f, build cases symbols ignoresCase = .error f → f.kind = .configuration
  refuses_few : symbols.length < 2 →
    build cases symbols ignoresCase = .error (.fewSymbols symbols.length)
  /-- The earliest symbol with a key of a symbol before it is named. -/
  refuses_ambiguous : 2 ≤ symbols.length → ¬ Unambiguous (keys cases ignoresCase) symbols →
    ∃ j c, IsLeast {j | Clashes (keys cases ignoresCase) symbols j} j ∧ symbols[j]? = some c ∧
      build cases symbols ignoresCase = .error (.ambiguousSymbol c symbols)
  twoWay : ∀ a, build cases symbols ignoresCase = .ok a →
    a.symbols = symbols ∧ a.ignoresCase = ignoresCase ∧ TwoWay cases a
  /-- The order in which the keys of a symbol are gone through makes no difference. -/
  anyOrder : ∀ listing, Lists listing (keys cases ignoresCase) →
    Alike (assemble listing symbols ignoresCase) (build cases symbols ignoresCase)

theorem tabulates (cases : CaseMap) (symbols : Text) (ignoresCase : Bool) :
    Tabulates cases symbols ignoresCase where
  accepts := (assembly_build ..).accepted_iff
  refuses := fun _ => (assembly_build ..).kind_of_refused
  refuses_few := (assembly_build ..).refused_few
  refuses_ambiguous := (assembly_build ..).refused_ambiguous
  twoWay := by
    intro a ha
    have hbuild := assembly_build cases symbols ignoresCase
    rw [ha] at hbuild
    cases hbuild with
    | accepted _ ht => exact ⟨rfl, rfl, ht.twoWay⟩
  anyOrder := fun _ hl => (assembly hl symbols ignoresCase).alike (assembly_build ..)

/-- Two symbols may share a key that is neither of them: here it is the capital S. -/
example :
    let capital (c : CodePoint) : Text :=
      if c = .ofChar 'ſ' then [.ofChar 'S'] else [c.asciiUpper]
    build ⟨fun c => [c], capital⟩ (['s', 'ſ'].map CodePoint.ofChar) true =
      .error (.ambiguousSymbol (.ofChar 'ſ') (['s', 'ſ'].map CodePoint.ofChar)) := by
  decide

end Octets.Alphabet
