import Octets.Bytes
/-!
# Strings of bits

A number in `w` bits is the string of them, most significant first. Digits of `w` bits
one after another are the string of the number they write (`ofNat_foldl`), and so are
bytes, which are digits of eight bits (`ofBytes_ofNat`). Digits fill bytes block by
block, and the bits left over at the end are dropped (`whole_append`).
-/

namespace Octets

/-- A string of bits. -/
abbrev BitString := List Bool

namespace BitString

/-- The `w` lowest bits of a number, most significant first. -/
def ofNat : Nat → Nat → BitString
  | 0, _ => []
  | w + 1, n => n.testBit w :: ofNat w n

/-- The bits of digits of `w` bits each, one digit after another. -/
def ofDigits (w : Nat) (digits : List Nat) : BitString := digits.flatMap (ofNat w)

/-- The bits of a byte string, byte by byte. -/
def ofBytes (x : Bytes) : BitString := ofDigits 8 (x.map UInt8.toNat)

@[simp] theorem length_ofNat (w n : Nat) : (ofNat w n).length = w := by
  induction w with
  | zero => rfl
  | succ w ih => simp [ofNat, ih]

theorem ofDigits_cons (w d : Nat) (digits : List Nat) :
    ofDigits w (d :: digits) = ofNat w d ++ ofDigits w digits := rfl

theorem ofDigits_append (w : Nat) (digits digits' : List Nat) :
    ofDigits w (digits ++ digits') = ofDigits w digits ++ ofDigits w digits' :=
  List.flatMap_append

@[simp] theorem length_ofDigits (w : Nat) (digits : List Nat) :
    (ofDigits w digits).length = w * digits.length := by
  induction digits with
  | nil => rfl
  | cons d digits ih =>
    rw [ofDigits_cons, List.length_append, length_ofNat, ih, List.length_cons, Nat.mul_succ]
    omega

theorem ofDigits_take (w k : Nat) (digits : List Nat) :
    ofDigits w (digits.take k) = (ofDigits w digits).take (w * k) := by
  induction digits generalizing k with
  | nil => simp [ofDigits]
  | cons d digits ih =>
    cases k with
    | zero => simp [ofDigits]
    | succ k =>
      have hsplit : w * (k + 1) = (ofNat w d).length + w * k := by
        rw [length_ofNat, Nat.mul_succ, Nat.add_comm]
      rw [List.take_succ_cons, ofDigits_cons, ofDigits_cons, ih, hsplit,
        List.take_length_add_append]

/-! ## Numbers -/

/-- Only the lowest bits count. -/
theorem ofNat_congr {w n m : Nat} (h : ∀ i < w, n.testBit i = m.testBit i) :
    ofNat w n = ofNat w m := by
  induction w with
  | zero => rfl
  | succ w ih =>
    rw [ofNat, ofNat, h w (Nat.lt_succ_self w), ih fun i hi => h i (Nat.lt_succ_of_lt hi)]

theorem ofNat_mod (w n : Nat) : ofNat w (n % 2 ^ w) = ofNat w n := by
  apply ofNat_congr
  intro i hi
  rw [Nat.testBit_mod_two_pow]
  simp [hi]

/-- The high bits of a number stand before its `k` lowest ones. -/
theorem ofNat_add {k b : Nat} (hb : b < 2 ^ k) (w a : Nat) :
    ofNat (w + k) (a * 2 ^ k + b) = ofNat w a ++ ofNat k b := by
  have hbit (i : Nat) : (a * 2 ^ k + b).testBit i =
      if i < k then b.testBit i else a.testBit (i - k) := by
    rw [Nat.mul_comm a]
    exact Nat.testBit_two_pow_mul_add a hb i
  induction w with
  | zero =>
    rw [Nat.zero_add]
    apply ofNat_congr
    intro i hi
    rw [hbit, if_pos hi]
  | succ w ih =>
    have hhigh : ¬ w + k < k := by omega
    rw [Nat.succ_add, ofNat, ofNat, ih, hbit, if_neg hhigh, Nat.add_sub_cancel]
    rfl

/-- The number that digits of `w` bits write has their bits. -/
theorem ofNat_foldl {w : Nat} {digits : List Nat} (hd : ∀ d ∈ digits, d < 2 ^ w)
    (k v : Nat) :
    ofNat (k + w * digits.length) (digits.foldl (fun v d => v * 2 ^ w + d) v) =
      ofNat k v ++ ofDigits w digits := by
  induction digits generalizing k v with
  | nil => simp [ofDigits]
  | cons d digits ih =>
    have hrest := ih (fun e he => hd e (List.mem_cons_of_mem _ he)) (k + w) (v * 2 ^ w + d)
    have hwidth : k + w * (d :: digits).length = k + w + w * digits.length := by
      rw [List.length_cons, Nat.mul_succ]
      omega
    rw [hwidth, List.foldl_cons, hrest, ofNat_add (hd d (List.mem_cons_self ..)),
      ofDigits_cons, List.append_assoc]

theorem ofDigits_eq {w : Nat} {digits : List Nat} (hd : ∀ d ∈ digits, d < 2 ^ w) :
    ofDigits w digits =
      ofNat (w * digits.length) (digits.foldl (fun v d => v * 2 ^ w + d) 0) := by
  have h := ofNat_foldl hd 0 0
  rw [Nat.zero_add, ofNat, List.nil_append] at h
  exact h.symm

/-- Digits write a number of as many bits as they have. -/
theorem foldl_lt {w : Nat} {digits : List Nat} (hd : ∀ d ∈ digits, d < 2 ^ w) (v : Nat) :
    digits.foldl (fun v d => v * 2 ^ w + d) v < (v + 1) * 2 ^ (w * digits.length) := by
  induction digits generalizing v with
  | nil => simp
  | cons d digits ih =>
    have hlt : d < 2 ^ w := hd d (List.mem_cons_self ..)
    have hstep : v * 2 ^ w + d + 1 ≤ (v + 1) * 2 ^ w := by
      rw [Nat.succ_mul]
      omega
    calc digits.foldl (fun v d => v * 2 ^ w + d) (v * 2 ^ w + d)
        < (v * 2 ^ w + d + 1) * 2 ^ (w * digits.length) :=
          ih (fun e he => hd e (List.mem_cons_of_mem _ he)) _
      _ ≤ (v + 1) * 2 ^ w * 2 ^ (w * digits.length) := Nat.mul_le_mul_right _ hstep
      _ = (v + 1) * 2 ^ (w * (d :: digits).length) := by
          rw [Nat.mul_assoc, ← Nat.pow_add, List.length_cons, Nat.mul_succ, Nat.add_comm w]

/-! ## Whole bytes of digits -/

/-- The bits of digits as far as they fill whole bytes. -/
def whole (w : Nat) (digits : List Nat) : BitString :=
  (ofDigits w digits).take (8 * (w * digits.length / 8))

theorem length_whole (w : Nat) (digits : List Nat) :
    (whole w digits).length = 8 * (w * digits.length / 8) := by
  rw [whole, List.length_take, length_ofDigits]
  omega

/-- A block that fills bytes leaves no bits over, so the count starts anew after it. -/
theorem whole_append {w m : Nat} {block : List Nat} (hblock : w * block.length = 8 * m)
    (rest : List Nat) : whole w (block ++ rest) = ofDigits w block ++ whole w rest := by
  have hcount : 8 * (w * (block ++ rest).length / 8) =
      (ofDigits w block).length + 8 * (w * rest.length / 8) := by
    rw [length_ofDigits, List.length_append, Nat.mul_add, hblock,
      Nat.mul_add_div (by decide), Nat.mul_add]
  rw [whole, hcount, ofDigits_append, List.take_length_add_append]
  rfl

theorem whole_block {w m : Nat} {block : List Nat} (hblock : w * block.length = 8 * m) :
    whole w block = ofDigits w block := by
  have hnil : whole w [] = [] := by simp [whole, ofDigits]
  have h := whole_append hblock []
  rwa [List.append_nil, hnil, List.append_nil] at h

/-- The number of a block, zeros filling it up at its end, starts with its bits. -/
theorem take_ofNat_whole {w k : Nat} {digits : List Nat} (hd : ∀ d ∈ digits, d < 2 ^ w) :
    (ofNat (w * digits.length + k) (digits.foldl (fun v d => v * 2 ^ w + d) 0 * 2 ^ k)).take
      (8 * (w * digits.length / 8)) = whole w digits := by
  have hfill := ofNat_add (Nat.two_pow_pos k) (w * digits.length)
    (digits.foldl (fun v d => v * 2 ^ w + d) 0)
  rw [Nat.add_zero] at hfill
  rw [hfill, ← ofDigits_eq hd]
  apply List.take_append_of_le_length
  rw [length_ofDigits]
  omega

/-! ## Bytes -/

theorem ofBytes_append (x y : Bytes) : ofBytes (x ++ y) = ofBytes x ++ ofBytes y := by
  rw [ofBytes, List.map_append, ofDigits_append]
  rfl

@[simp] theorem length_ofBytes (x : Bytes) : (ofBytes x).length = 8 * x.length := by
  simp [ofBytes]

theorem ofBytes_take (k : Nat) (x : Bytes) :
    ofBytes (x.take k) = (ofBytes x).take (8 * k) := by
  rw [ofBytes, List.map_take, ofDigits_take]
  rfl

theorem ofBytes_eq (x : Bytes) : ofBytes x = ofNat (8 * x.length) x.value := by
  have hd : ∀ d ∈ x.map UInt8.toNat, d < 2 ^ 8 := by
    intro d hd
    obtain ⟨b, -, rfl⟩ := List.mem_map.mp hd
    exact b.toNat_lt
  rw [ofBytes, ofDigits_eq hd, List.foldl_map, List.length_map]
  rfl

/-- A number written in bytes has the bits of the number. -/
theorem ofBytes_ofNat (w n : Nat) : ofBytes (Bytes.ofNat w n) = ofNat (8 * w) n := by
  have hpow : (256 : Nat) ^ w = 2 ^ (8 * w) := by
    rw [show (256 : Nat) = 2 ^ 8 by decide, ← Nat.pow_mul]
  rw [ofBytes_eq, Bytes.length_ofNat, Bytes.value_ofNat, hpow, ofNat_mod]

/-- Bytes with the bits of digits are as many as the digits fill. -/
theorem length_and_eq_take {w : Nat} {digits : List Nat} {x : Bytes}
    (h : ofBytes x = whole w digits) :
    x.length = w * digits.length / 8 ∧
      ofBytes x = (ofDigits w digits).take (8 * x.length) := by
  have hbits := congrArg List.length h
  rw [length_ofBytes, length_whole] at hbits
  have hlength : x.length = w * digits.length / 8 := by omega
  refine ⟨hlength, ?_⟩
  rw [h, whole, hlength]

end BitString
end Octets
