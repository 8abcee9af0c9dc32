import Octets.Deflate.Inflate
/-!
# The format of compressed data

What deflate data are, as relations without fuel and without refusals: the symbols of a coded
block (`Symbols`), the code lengths of a described one (`Lengths`), blocks, and the data as a
whole (`Inflates`). The bits that are read are the bits that are taken off a stream, so every
symbol and every block leaves fewer of them behind, and the fuel that reading starts with is
never used up: what is read is what the format has (`inflate?_eq_some_iff`).
-/

namespace Octets.Deflate

/-! ## Bits -/

theorem length_takeBits {n v : Nat} {s r : BitStream} (h : takeBits n s = some (v, r)) :
    r.length + n = s.length := by
  induction n generalizing s v with
  | zero =>
    cases h
    rfl
  | succ n ih =>
    cases s with
    | nil => cases h
    | cons b s =>
      obtain ⟨⟨w, r'⟩, hrest, heq⟩ := Option.map_eq_some_iff.mp h
      obtain ⟨-, rfl⟩ := Prod.mk.inj heq
      have hlength := ih hrest
      rw [List.length_cons, ← hlength, Nat.add_assoc]

theorem length_takeBytes {n : Nat} {x : Bytes} {s r : BitStream}
    (h : takeBytes n s = some (x, r)) : r.length ≤ s.length := by
  induction n generalizing s x with
  | zero =>
    cases h
    exact Nat.le_refl _
  | succ n ih =>
    simp only [takeBytes, Option.bind_eq_bind, Option.bind_eq_some_iff] at h
    obtain ⟨⟨b, s'⟩, hb, ⟨y, r'⟩, hy, heq⟩ := h
    obtain ⟨-, rfl⟩ := Prod.mk.inj (Option.some.inj heq)
    exact Nat.le_trans (ih hy) (Nat.le.intro (length_takeBits hb))

theorem length_takeTriples {n : Nat} {l : List Nat} {s r : BitStream}
    (h : takeTriples n s = some (l, r)) : r.length ≤ s.length := by
  induction n generalizing s l with
  | zero =>
    cases h
    exact Nat.le_refl _
  | succ n ih =>
    simp only [takeTriples, Option.bind_eq_bind, Option.bind_eq_some_iff] at h
    obtain ⟨⟨b, s'⟩, hb, ⟨y, r'⟩, hy, heq⟩ := h
    obtain ⟨-, rfl⟩ := Prod.mk.inj (Option.some.inj heq)
    exact Nat.le_trans (ih hy) (Nat.le.intro (length_takeBits hb))

/-! ## Symbols -/

namespace Code

theorem length_next {c : Code} {symbol : Nat} {s r : BitStream} (h : c.next s = some (symbol, r)) :
    r.length ≤ s.length := by
  induction c generalizing s with
  | hole => cases h
  | leaf _ =>
    cases h
    exact Nat.le_refl _
  | fork zero one ihzero ihone =>
    cases s with
    | nil => cases h
    | cons b s =>
      rw [next] at h
      split at h
      · exact Nat.le_succ_of_le (ihone h)
      · exact Nat.le_succ_of_le (ihzero h)

/-- Every symbol takes a bit at least. -/
def Spends (c : Code) : Prop :=
  ∀ s symbol r, c.next s = some (symbol, r) → r.length < s.length

theorem spends_hole : hole.Spends := nofun

theorem spends_fork (zero one : Code) : (fork zero one).Spends := by
  intro s symbol r h
  cases s with
  | nil => cases h
  | cons b s =>
    rw [next] at h
    split at h
    · exact Nat.lt_succ_of_le (length_next h)
    · exact Nat.lt_succ_of_le (length_next h)

/-- No code from lengths has a symbol of length zero. -/
theorem spends_ofLengths {lax : Bool} {lengths : List Nat} {c : Code}
    (h : ofLengths lax lengths = some c) : c.Spends := by
  rw [ofLengths] at h
  split at h
  · cases h
    cases hitems : items lengths with
    | nil => exact spends_hole
    | cons item rest =>
      have hmem : item ∈ items lengths := hitems ▸ List.mem_cons_self ..
      have hlength : item.1 ≠ 0 := by
        rw [items, List.mem_mergeSort, List.mem_filter] at hmem
        simpa using hmem.2
      rw [grow, if_neg (by omega)]
      exact spends_fork _ _
  · cases h

end Code

/-- The symbols of a coded block. With `out` written so far and `s` to be read, they are read
up to the end of the block, and then `out'` is written and `r` is left. -/
inductive Symbols (literals distances : Code) :
    Array UInt8 → BitStream → Array UInt8 → BitStream → Prop
  | stop {out : Array UInt8} {s r : BitStream} :
      literals.next s = some (256, r) → Symbols literals distances out s out r
  | literal {out out' : Array UInt8} {s s' r : BitStream} {symbol : Nat} :
      literals.next s = some (symbol, s') → symbol < 256 →
      Symbols literals distances (out.push (UInt8.ofNat symbol)) s' out' r →
      Symbols literals distances out s out' r
  | copy {out out' : Array UInt8} {s s₁ s₂ s₃ s₄ r : BitStream} {symbol n symbol' distance : Nat} :
      literals.next s = some (symbol, s₁) → 256 < symbol →
      extended lengthTable (symbol - 257) s₁ = some (n, s₂) →
      distances.next s₂ = some (symbol', s₃) →
      extended distanceTable symbol' s₃ = some (distance, s₄) → distance ≤ out.size →
      Symbols literals distances (repeated distance n out) s₄ out' r →
      Symbols literals distances out s out' r

theorem length_extended {table : List (Nat × Nat)} {symbol n : Nat} {s r : BitStream}
    (h : extended table symbol s = some (n, r)) : r.length ≤ s.length := by
  simp only [extended, Option.bind_eq_bind, Option.bind_eq_some_iff] at h
  obtain ⟨row, -, ⟨v, r'⟩, hv, heq⟩ := h
  obtain ⟨-, rfl⟩ := Prod.mk.inj (Option.some.inj heq)
  exact Nat.le.intro (length_takeBits hv)

section Symbols

variable {literals distances : Code} {out out' : Array UInt8} {s r : BitStream}

theorem Symbols.length_le (h : Symbols literals distances out s out' r) :
    r.length ≤ s.length := by
  induction h with
  | stop hnext => exact Code.length_next hnext
  | literal hnext _ _ ih => exact Nat.le_trans ih (Code.length_next hnext)
  | copy hnext _ hlength hnext' hdistance _ _ ih =>
    have h1 := Code.length_next hnext
    have h2 := length_extended hlength
    have h3 := Code.length_next hnext'
    have h4 := length_extended hdistance
    omega

theorem symbols_of_codedBlock {fuel : Nat}
    (h : codedBlock literals distances fuel out s = some (out', r)) :
    Symbols literals distances out s out' r := by
  induction fuel generalizing out s with
  | zero => cases h
  | succ fuel ih =>
    simp only [codedBlock, Option.bind_eq_bind, Option.bind_eq_some_iff] at h
    obtain ⟨⟨symbol, s'⟩, hnext, h⟩ := h
    simp only at h
    split at h
    · next hlt => exact .literal hnext hlt (ih h)
    split at h
    · next heq =>
      subst heq
      cases h
      exact .stop hnext
    · next hlt hne =>
      simp only [Option.bind_eq_some_iff] at h
      obtain ⟨⟨n, s₂⟩, hlength, ⟨symbol', s₃⟩, hnext', ⟨distance, s₄⟩, hdistance, h⟩ := h
      simp only at h
      split at h
      · cases h
      · next hsize =>
        exact .copy hnext (by omega) hlength hnext' hdistance (Nat.le_of_not_lt hsize) (ih h)

/-- As much fuel as there are bits is enough. -/
theorem Symbols.codedBlock (hspends : literals.Spends)
    (h : Symbols literals distances out s out' r) {fuel : Nat} (hfuel : s.length < fuel) :
    codedBlock literals distances fuel out s = some (out', r) := by
  induction h generalizing fuel with
  | @stop out s r hnext =>
    obtain ⟨fuel, rfl⟩ := Nat.exists_eq_add_of_lt hfuel
    rw [Deflate.codedBlock]
    simp [hnext]
  | @literal out out' s s' r symbol hnext hlt _ ih =>
    obtain ⟨fuel, rfl⟩ := Nat.exists_eq_add_of_lt hfuel
    have hless := hspends _ _ _ hnext
    rw [Deflate.codedBlock]
    simp [hnext, hlt, ih (show s'.length < s.length + fuel by omega)]
  | @copy out out' s s₁ s₂ s₃ s₄ r symbol n symbol' distance hnext hgt hlength hnext' hdistance
      hsize _ ih =>
    obtain ⟨fuel, rfl⟩ := Nat.exists_eq_add_of_lt hfuel
    have hless := hspends _ _ _ hnext
    have hlength' := length_extended hlength
    have hnext'' := Code.length_next hnext'
    have hdistance' := length_extended hdistance
    have hliteral : ¬ symbol < 256 := by omega
    have hstop : ¬ symbol = 256 := by omega
    rw [Deflate.codedBlock]
    simp [hnext, hliteral, hstop, hlength, hnext', hdistance, Nat.not_lt.mpr hsize,
      ih (show s₄.length < s.length + fuel by omega)]

end Symbols

/-! ## Code lengths -/

/-- Code lengths up to `total` of them. Those in `done` have been read, last first; the
lengths `l` are what these and the ones to come are in all. -/
inductive Lengths (code : Code) (total : Nat) :
    List Nat → BitStream → List Nat → BitStream → Prop
  | stop {done : List Nat} {s : BitStream} :
      done.length = total → Lengths code total done s done.reverse s
  | length {done l : List Nat} {s s' r : BitStream} {symbol : Nat} :
      done.length < total → code.next s = some (symbol, s') → symbol < 16 →
      Lengths code total (symbol :: done) s' l r → Lengths code total done s l r
  | again {done l : List Nat} {s s₁ s₂ r : BitStream} {last n : Nat} :
      done.length < total → code.next s = some (16, s₁) → done.head? = some last →
      takeBits 2 s₁ = some (n, s₂) →
      Lengths code total (List.replicate (n + 3) last ++ done) s₂ l r →
      Lengths code total done s l r
  | zeros {done l : List Nat} {s s₁ s₂ r : BitStream} {symbol n : Nat} :
      done.length < total → code.next s = some (symbol, s₁) → 16 < symbol →
      takeBits (if symbol = 17 then 3 else 7) s₁ = some (n, s₂) →
      Lengths code total (List.replicate (n + if symbol = 17 then 3 else 11) 0 ++ done) s₂ l r →
      Lengths code total done s l r

section Lengths

variable {code : Code} {total : Nat} {done l : List Nat} {s r : BitStream}

theorem Lengths.length_le (h : Lengths code total done s l r) : r.length ≤ s.length := by
  induction h with
  | stop => exact Nat.le_refl _
  | length _ hnext _ _ ih => exact Nat.le_trans ih (Code.length_next hnext)
  | again _ hnext _ htake _ ih =>
    exact Nat.le_trans ih (Nat.le_trans (Nat.le.intro (length_takeBits htake))
      (Code.length_next hnext))
  | zeros _ hnext _ htake _ ih =>
    exact Nat.le_trans ih (Nat.le_trans (Nat.le.intro (length_takeBits htake))
      (Code.length_next hnext))

theorem lengths_of_takeLengths {fuel : Nat}
    (h : takeLengths code total fuel done s = some (l, r)) : Lengths code total done s l r := by
  induction fuel generalizing done s with
  | zero => cases h
  | succ fuel ih =>
    rw [takeLengths] at h
    split at h
    · next heq =>
      cases h
      exact .stop heq
    split at h
    · cases h
    · next hne hle =>
      have hlt : done.length < total := by omega
      simp only [Option.bind_eq_bind, Option.bind_eq_some_iff] at h
      obtain ⟨⟨symbol, s₁⟩, hnext, h⟩ := h
      simp only at h
      split at h
      · next hsmall => exact .length hlt hnext hsmall (ih h)
      split at h
      · next heq =>
        subst heq
        simp only [Option.bind_eq_some_iff] at h
        obtain ⟨last, hlast, ⟨n, s₂⟩, htake, h⟩ := h
        exact .again hlt hnext hlast htake (ih h)
      · next hsmall hne =>
        simp only [Option.bind_eq_some_iff] at h
        obtain ⟨⟨n, s₂⟩, htake, h⟩ := h
        exact .zeros hlt hnext (by omega) htake (ih h)

/-- Every symbol adds a length at least, so as much fuel as lengths are missing is enough. -/
theorem Lengths.takeLengths (h : Lengths code total done s l r) {fuel : Nat}
    (hfuel : total < fuel + done.length) :
    takeLengths code total fuel done s = some (l, r) := by
  induction h generalizing fuel with
  | @stop done s heq =>
    obtain ⟨fuel, rfl⟩ : ∃ k, fuel = k + 1 := Nat.exists_eq_succ_of_ne_zero (by omega)
    rw [Deflate.takeLengths, if_pos heq]
  | @length done l s s' r symbol hlt hnext hsmall _ ih =>
    obtain ⟨fuel, rfl⟩ : ∃ k, fuel = k + 1 := Nat.exists_eq_succ_of_ne_zero (by omega)
    have hrest := @ih fuel (by simp; omega)
    rw [Deflate.takeLengths, if_neg (by omega), if_neg (by omega)]
    simp [hnext, hsmall, hrest]
  | @again done l s s₁ s₂ r last n hlt hnext hlast htake _ ih =>
    obtain ⟨fuel, rfl⟩ : ∃ k, fuel = k + 1 := Nat.exists_eq_succ_of_ne_zero (by omega)
    have hrest := @ih fuel (by simp; omega)
    rw [Deflate.takeLengths, if_neg (by omega), if_neg (by omega)]
    simp [hnext, hlast, htake, hrest]
  | @zeros done l s s₁ s₂ r symbol n hlt hnext hgt htake _ ih =>
    obtain ⟨fuel, rfl⟩ : ∃ k, fuel = k + 1 := Nat.exists_eq_succ_of_ne_zero (by omega)
    have hrun : 0 < n + if symbol = 17 then 3 else 11 := by split <;> omega
    have hrest := @ih fuel (by simp only [List.length_append, List.length_replicate]; omega)
    have hsmall : ¬ symbol < 16 := by omega
    have hagain : ¬ symbol = 16 := by omega
    rw [Deflate.takeLengths, if_neg (by omega), if_neg (by omega)]
    simp only [hnext, Option.bind_eq_bind, Option.bind_some, hsmall, ↓reduceIte, hagain, htake,
      hrest]

end Lengths

/-- The codes that a block describes: how many lengths each of them has, the code in which
the lengths are written, and the lengths. There is a code for the end of the block. -/
inductive Described (s : BitStream) (literals distances : Code) (r : BitStream) : Prop
  | intro {a b c : Nat} {s₁ s₂ s₃ s₄ : BitStream} {triples lengths : List Nat} {code : Code} :
      takeBits 5 s = some (a, s₁) → takeBits 5 s₁ = some (b, s₂) → takeBits 4 s₂ = some (c, s₃) →
      a + 257 ≤ 286 → b + 1 ≤ 30 → takeTriples (c + 4) s₃ = some (triples, s₄) →
      Code.ofLengths false ((List.range 19).map fun i =>
        ((lengthOrder.zip triples).lookup i).getD 0) = some code →
      Lengths code (a + 257 + (b + 1)) [] s₄ lengths r → lengths.getD 256 0 ≠ 0 →
      Code.ofLengths true (lengths.take (a + 257)) = some literals →
      Code.ofLengths true (lengths.drop (a + 257)) = some distances →
      Described s literals distances r

theorem Described.length_le {s r : BitStream} {literals distances : Code}
    (h : Described s literals distances r) : r.length ≤ s.length := by
  obtain ⟨ha, hb, hc, -, -, htriples, -, hlengths, -, -, -⟩ := h
  have h1 := length_takeBits ha
  have h2 := length_takeBits hb
  have h3 := length_takeBits hc
  have h4 := length_takeTriples htriples
  have h5 := hlengths.length_le
  omega

theorem describedCodes_eq_some_iff {s r : BitStream} {literals distances : Code} :
    describedCodes s = some ((literals, distances), r) ↔ Described s literals distances r := by
  constructor
  · intro h
    simp only [describedCodes, Option.bind_eq_bind, Option.bind_eq_some_iff] at h
    obtain ⟨⟨a, s₁⟩, ha, ⟨b, s₂⟩, hb, ⟨c, s₃⟩, hc, h⟩ := h
    simp only at h
    split at h
    · cases h
    · next hcounts =>
      simp only [Option.bind_eq_some_iff] at h
      obtain ⟨⟨triples, s₄⟩, htriples, code, hcode, ⟨lengths, s₅⟩, hlengths, h⟩ := h
      simp only at h
      split at h
      · cases h
      · next hstop =>
        simp only [Option.bind_eq_some_iff] at h
        obtain ⟨literals', hl, distances', hd, h⟩ := h
        cases h
        simp only [Bool.or_eq_true, decide_eq_true_eq, not_or, Nat.not_lt] at hcounts
        exact .intro ha hb hc hcounts.1 hcounts.2 htriples hcode (lengths_of_takeLengths hlengths)
          hstop hl hd
  · intro h
    cases h with
    | @intro a b c s₁ s₂ s₃ s₄ triples lengths code ha hb hc hliterals hdistances htriples hcode
        hlengths hstop hl hd =>
      have hcounts : ¬ (286 < a + 257 || 30 < b + 1) = true := by
        simp
        omega
      have htake := hlengths.takeLengths (Nat.lt_succ_self _)
      simp only [describedCodes, ha, hb, hc, Option.bind_eq_bind, Option.bind_some]
      rw [if_neg hcounts]
      simp only [htriples, hcode, Option.bind_some]
      rw [htake]
      simp only [Option.bind_some]
      rw [if_neg hstop, hl, hd]
      rfl

theorem Described.spends {s r : BitStream} {literals distances : Code}
    (h : Described s literals distances r) : literals.Spends := by
  obtain ⟨-, -, -, -, -, -, -, -, -, hliterals, -⟩ := h
  exact Code.spends_ofLengths hliterals

/-! ## Blocks -/

/-- A block after its first bit. -/
inductive Block : Array UInt8 → BitStream → Array UInt8 → BitStream → Prop
  | stored {out : Array UInt8} {s s₁ s₂ s₃ r : BitStream} {n complement : Nat} {x : Bytes} :
      takeBits 2 s = some (0, s₁) → takeBits 16 (align s₁) = some (n, s₂) →
      takeBits 16 s₂ = some (complement, s₃) → n + complement = 65535 →
      takeBytes n s₃ = some (x, r) → Block out s (out ++ x) r
  | fixed {out out' : Array UInt8} {s s₁ r : BitStream} {literals distances : Code} :
      takeBits 2 s = some (1, s₁) → Code.ofLengths false fixedLengths = some literals →
      Code.ofLengths false (List.replicate 32 5) = some distances →
      Symbols literals distances out s₁ out' r → Block out s out' r
  | described {out out' : Array UInt8} {s s₁ s₂ r : BitStream} {literals distances : Code} :
      takeBits 2 s = some (2, s₁) → Described s₁ literals distances s₂ →
      Symbols literals distances out s₂ out' r → Block out s out' r

/-- Blocks up to the one that is marked as the last. -/
inductive Blocks : Array UInt8 → BitStream → Array UInt8 → BitStream → Prop
  | last {out out' : Array UInt8} {s s' r : BitStream} :
      takeBits 1 s = some (1, s') → Block out s' out' r → Blocks out s out' r
  | more {out out' out'' : Array UInt8} {s s₁ s₂ r : BitStream} {mark : Nat} :
      takeBits 1 s = some (mark, s₁) → mark ≠ 1 → Block out s₁ out' s₂ →
      Blocks out' s₂ out'' r → Blocks out s out'' r

section Blocks

variable {out out' : Array UInt8} {s r : BitStream}

theorem Block.length_le (h : Block out s out' r) : r.length ≤ s.length := by
  cases h with
  | stored hkind hn hcomplement _ hbytes =>
    have h1 := length_takeBits hkind
    have h2 := length_takeBits hn
    have h3 := length_takeBits hcomplement
    have h4 := length_takeBytes hbytes
    rw [align, List.length_drop] at h2
    omega
  | fixed hkind _ _ hsymbols =>
    have h1 := length_takeBits hkind
    have h2 := hsymbols.length_le
    omega
  | described hkind hcodes hsymbols =>
    have h1 := length_takeBits hkind
    have h2 := hcodes.length_le
    have h3 := hsymbols.length_le
    omega

theorem block_eq_some_iff : block out s = some (out', r) ↔ Block out s out' r := by
  constructor
  · intro h
    simp only [block, Option.bind_eq_bind, Option.bind_eq_some_iff] at h
    obtain ⟨⟨kind, s₁⟩, hkind, h⟩ := h
    simp only at h
    split at h
    · next heq =>
      subst heq
      simp only [Option.bind_eq_some_iff] at h
      obtain ⟨⟨n, s₂⟩, hn, ⟨complement, s₃⟩, hcomplement, h⟩ := h
      simp only at h
      split at h
      · next hsum =>
        simp only [Option.bind_eq_some_iff] at h
        obtain ⟨⟨x, s₄⟩, hx, h⟩ := h
        cases h
        exact .stored hkind hn hcomplement hsum hx
      · cases h
    split at h
    · next heq =>
      subst heq
      simp only [Option.bind_eq_some_iff] at h
      obtain ⟨literals, hl, distances, hd, h⟩ := h
      exact .fixed hkind hl hd (symbols_of_codedBlock h)
    split at h
    · next heq =>
      subst heq
      simp only [Option.bind_eq_some_iff] at h
      obtain ⟨⟨⟨literals, distances⟩, s₂⟩, hcodes, h⟩ := h
      exact .described hkind (describedCodes_eq_some_iff.mp hcodes) (symbols_of_codedBlock h)
    · cases h
  · intro h
    cases h with
    | stored hkind hn hcomplement hsum hx => simp [block, hkind, hn, hcomplement, hsum, hx]
    | fixed hkind hl hd hsymbols =>
      simp only [block, hkind, hl, hd, Option.bind_eq_bind, Option.bind_some]
      exact hsymbols.codedBlock (Code.spends_ofLengths hl) (Nat.lt_succ_self _)
    | described hkind hcodes hsymbols =>
      have hread := hsymbols.codedBlock hcodes.spends (Nat.lt_succ_self _)
      simp [block, hkind, describedCodes_eq_some_iff.mpr hcodes, hread]

theorem blocks_of_fuel {fuel : Nat} (h : blocks fuel out s = some (out', r)) :
    Blocks out s out' r := by
  induction fuel generalizing out s with
  | zero => cases h
  | succ fuel ih =>
    simp only [blocks, Option.bind_eq_bind, Option.bind_eq_some_iff] at h
    obtain ⟨⟨mark, s₁⟩, hmark, ⟨out₁, s₂⟩, hblock, h⟩ := h
    have hblock := block_eq_some_iff.mp hblock
    simp only at h
    split at h
    · next heq =>
      subst heq
      cases h
      exact .last hmark hblock
    · next hne => exact .more hmark hne hblock (ih h)

/-- Every block takes a bit at least, so as much fuel as there are bits is enough. -/
theorem Blocks.blocks (h : Blocks out s out' r) {fuel : Nat} (hfuel : s.length < fuel) :
    blocks fuel out s = some (out', r) := by
  induction h generalizing fuel with
  | last hmark hblock =>
    obtain ⟨fuel, rfl⟩ := Nat.exists_eq_add_of_lt hfuel
    simp [Deflate.blocks, hmark, block_eq_some_iff.mpr hblock]
  | @more out out' out'' s s₁ s₂ r mark hmark hne hblock _ ih =>
    obtain ⟨fuel, rfl⟩ := Nat.exists_eq_add_of_lt hfuel
    have h1 := length_takeBits hmark
    have h2 := hblock.length_le
    have hrest := ih (show s₂.length < s.length + fuel by omega)
    simp [Deflate.blocks, hmark, hne, block_eq_some_iff.mpr hblock, hrest]

end Blocks

/-- The deflate data `x` begins with have the content `out`, and `rest` is behind them. -/
def Inflates (x out rest : Bytes) : Prop :=
  ∃ r, Blocks #[] (bitsOf x) out.toArray r ∧ rest = x.drop (x.length - r.length / 8)

theorem inflate?_eq_some_iff {x out rest : Bytes} :
    inflate? x = some (out, rest) ↔ Inflates x out rest := by
  constructor
  · intro h
    simp only [inflate?, Option.bind_eq_bind, Option.bind_eq_some_iff] at h
    obtain ⟨⟨content, r⟩, hblocks, h⟩ := h
    cases h
    exact ⟨r, blocks_of_fuel hblocks, rfl⟩
  · rintro ⟨r, hblocks, rfl⟩
    simp [inflate?, hblocks.blocks (Nat.lt_succ_self _)]

end Octets.Deflate
