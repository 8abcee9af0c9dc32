import Octets.Bits
import Octets.Encoding.Basic
import Octets.Numeric.Integer
import Octets.Numeric.Real
import Octets.Numeric.Uuid
import Octets.Proofs.Chunks
/-!
# Little strings as reversed big ones

A little string is read, and its bits are changed, as the reversed one is in the big
order. Where operations are not defined so, it is a fact about indices: the byte of a bit
stands as far from the end of the reversal as it does from the start of the string
(`Bits.bitAt_little`, `Bits.switchBit_little`), a window lies as far from one end as it
did from the other (`Bytes.reverse_window`), and the blocks of the reversal are those of
the string, each reversed, from the last one on (`IntegerKind.array_little`).
-/

namespace Octets

theorem Bytes.reverse_window (x : Bytes) {i n : Nat} (h : i + n ≤ x.length) :
    (Bytes.window x i n).reverse = Bytes.window x.reverse (x.length - n - i) n := by
  have hstart : x.length - i - n = x.length - n - i := Nat.sub_right_comm ..
  have hsize : x.length - i - (x.length - n - i) = n := by omega
  rw [Bytes.window, Bytes.window, List.reverse_take, List.reverse_drop, List.length_drop,
    hstart, List.drop_take, hsize]

/-! ## Bits -/

namespace Bits

theorem getElem?_reverse_sub {α : Type} {l : List α} {i : Nat} (h : i < l.length) :
    l.reverse[l.length - 1 - i]? = l[i]? :=
  List.getElem?_reverse' (by omega)

theorem reverse_modify_reverse {α : Type} {l : List α} {i : Nat} (h : i < l.length)
    (f : α → α) : (l.reverse.modify (l.length - 1 - i) f).reverse = l.modify i f := by
  apply List.ext_getElem?
  intro j
  by_cases hj : j < l.length
  · have hmirror : l.length - 1 - i = l.length - 1 - j ↔ i = j := by omega
    rw [List.getElem?_reverse (by simpa using hj), List.length_modify, List.length_reverse,
      List.getElem?_modify, List.getElem?_modify, getElem?_reverse_sub hj]
    simp only [hmirror]
  · rw [List.getElem?_eq_none (by simpa using hj), List.getElem?_eq_none (by simpa using hj)]

theorem inside_lt {p : Int} {n : Nat} (h : inside p n = true) : p.toNat / 8 < n := by
  rw [inside, Bool.and_eq_true, decide_eq_true_eq, decide_eq_true_eq] at h
  omega

theorem bitAt_little (x : Bytes) (p : Int) : bitAt .little x p = bitAt .big x.reverse p := by
  rw [bitAt, bitAt, List.length_reverse]
  by_cases hp : inside p x.length = true
  · simp only [if_pos hp, byteIndex, List.getD_eq_getElem?_getD,
      getElem?_reverse_sub (inside_lt hp)]
  · rw [if_neg hp, if_neg hp]

theorem switchBit_little (p : Int) (value : Option Bool) (x : Bytes) :
    switchBit .little p value x = (switchBit .big p value x.reverse).map List.reverse := by
  rw [switchBit, switchBit, List.length_reverse]
  by_cases hp : inside p x.length = true
  · rw [if_pos hp, if_pos hp]
    exact congrArg Except.ok (reverse_modify_reverse (inside_lt hp) _).symm
  · rw [if_neg hp, if_neg hp]
    rfl

theorem shift_little (d : Direction) (n : Nat) (x : Bytes) :
    shift d n .little x = (shift d n .big x.reverse).reverse := by
  simp only [shift, ByteOrder.logical, List.length_reverse]

end Bits

/-! ## Numbers -/

namespace Check

theorem evenLength_eq {length divisor : Nat} (subject : String) (hd : divisor ≠ 0) :
    evenLength length divisor subject =
      if divisor ∣ length then .ok () else .error (.unevenLength subject divisor length) := by
  rw [evenLength, if_neg (by omega)]
  simp only [← Int.natCast_dvd_natCast, Int.dvd_iff_emod_eq_zero]

theorem evenLength_eq_ok {length divisor : Nat} {subject : String} (hd : divisor ≠ 0) :
    evenLength length divisor subject = .ok () ↔ divisor ∣ length := by
  rw [evenLength_eq subject hd]
  by_cases h : divisor ∣ length
  · simp [h]
  · simp [h]

theorem whole_of_evenLength {x : Bytes} {k : Nat} {subject : String}
    (h : evenLength x.length (k + 1 : Nat) subject = .ok ()) : Whole k x :=
  whole_of_length (Nat.mod_eq_zero_of_dvd ((evenLength_eq_ok (Nat.succ_ne_zero k)).mp h))

end Check

theorem signedValue_little (x : Bytes) : signedValue .little x = signedValue .big x.reverse :=
  rfl

theorem Uuid.ofBytes_little (x : Bytes) : ofBytes .little x = ofBytes .big x.reverse := by
  rw [ofBytes, ofBytes, List.length_reverse]
  rfl

namespace IntegerKind

variable {k : IntegerKind} {x : Bytes} {v : Int}

theorem read_little (k : IntegerKind) (x : Bytes) : k.read .little x = k.read .big x.reverse :=
  rfl

theorem exact_little (k : IntegerKind) (x : Bytes) :
    k.exact .little x = k.exact .big x.reverse := by
  rw [exact, exact, List.length_reverse]
  rfl

theorem readAt_eq_ok {o : ByteOrder} {i : Int} : k.readAt o x i = .ok v ↔
    (0 ≤ i ∧ i + k.width ≤ x.length) ∧ k.read o (Bytes.window x i.toNat k.width) = v := by
  have hinside : Check.readInside x.length i k.width k.name = .ok () ↔
      0 ≤ i ∧ i + k.width ≤ x.length := Check.readInside_eq_ok
  rw [← hinside, readAt]
  cases Check.readInside x.length i k.width k.name with
  | ok u => exact ⟨fun h => ⟨rfl, Except.ok.inj h⟩, fun h => congrArg Except.ok h.2⟩
  | error f => exact ⟨nofun, fun h => nomatch h.1⟩

/-- What is read at an index of a little string stands as far from the end of the
reversed one. -/
theorem readAt_little (k : IntegerKind) (x : Bytes) (i : Int) (v : Int) :
    k.readAt .little x i = .ok v ↔
      k.readAt .big x.reverse (x.length - k.width - i) = .ok v := by
  rw [readAt_eq_ok, readAt_eq_ok, List.length_reverse]
  have hinside : 0 ≤ i ∧ i + k.width ≤ x.length ↔
      0 ≤ (x.length - k.width - i : Int) ∧ x.length - k.width - i + k.width ≤ (x.length : Int) := by
    omega
  rw [← hinside]
  refine and_congr_right fun h => ?_
  have hindex : (x.length - k.width - i : Int).toNat = x.length - k.width - i.toNat := by omega
  have hwindow : i.toNat + k.width ≤ x.length := by omega
  rw [read_little, Bytes.reverse_window x hwindow, hindex]

/-- The numbers of a little string are those of the reversed one, the last one first. -/
theorem array_little (k : IntegerKind) (x : Bytes) :
    k.array .little x = (k.array .big x.reverse).map List.reverse := by
  rw [array, array, List.length_reverse]
  cases h : Check.evenLength x.length k.width s!"{k.name} array" with
  | error f => rfl
  | ok u =>
    exact congrArg Except.ok ((Check.whole_of_evenLength h).map_chunks_reverse k.read_little)

end IntegerKind

namespace RealKind

theorem read_little (k : RealKind) (x : Bytes) : k.read .little x = k.read .big x.reverse :=
  rfl

theorem exact_little (k : RealKind) (x : Bytes) :
    k.exact .little x = k.exact .big x.reverse := by
  rw [exact, exact, List.length_reverse]
  rfl

theorem array_little (k : RealKind) (x : Bytes) :
    k.array .little x = (k.array .big x.reverse).map List.reverse := by
  rw [array, array, List.length_reverse]
  cases h : Check.evenLength x.length k.width s!"{k.name} array" with
  | error f => rfl
  | ok u =>
    exact congrArg Except.ok ((Check.whole_of_evenLength h).map_chunks_reverse k.read_little)

end RealKind
end Octets
