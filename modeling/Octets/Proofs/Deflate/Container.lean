import Octets.Deflate.Container
import Octets.Proofs.Deflate.Format
/-!
# The containers of compressed data

A zlib container has one stream of deflate data, a gzip container any number of members, each
with a stream of its own. What is unpacked is what a container holds, and what is none is
refused for its form (`Container.unpack_eq_ok_iff`, `Container.kind_of_unpack`).
-/

namespace Octets.Deflate

/-- A zlib container and its content: two bytes of header, deflate data and an Adler-32;
anything may be behind it. -/
inductive Zlib : Bytes → Bytes → Prop
  | intro {method flags : UInt8} {x out rest : Bytes} : zlibHeaderHolds method flags →
      Inflates x out rest → 4 ≤ rest.length → Bytes.value (rest.take 4) = Checksum.adler out →
      Zlib (method :: flags :: x) out

theorem zlibDecode?_eq_some_iff {x out : Bytes} : zlibDecode? x = some out ↔ Zlib x out := by
  constructor
  · intro h
    unfold zlibDecode? at h
    split at h
    · next method flags x =>
      split at h
      · next hheader =>
        simp only [Option.bind_eq_bind, Option.bind_eq_some_iff] at h
        obtain ⟨⟨out', rest⟩, hdata, h⟩ := h
        simp only at h
        split at h
        · next hcheck =>
          cases h
          exact .intro hheader (inflate?_eq_some_iff.mp hdata) hcheck.1 hcheck.2
        · cases h
      · cases h
    · cases h
  · rintro ⟨hheader, hdata, hlength, hcheck⟩
    simp [zlibDecode?, hheader, inflate?_eq_some_iff.mpr hdata, hlength, hcheck]

/-- A member of a gzip container, its content, and what is behind it and the zeros that
follow it: a header, deflate data, a CRC-32 and the length. -/
inductive Member : Bytes → Bytes → Bytes → Prop
  | intro {x data out tail : Bytes} : afterHeader x = some data → Inflates data out tail →
      8 ≤ tail.length → Bytes.littleValue (tail.take 4) = (Checksum.crc out).toNat →
      Bytes.littleValue (Bytes.window tail 4 4) = out.length % 2 ^ 32 →
      Member x out ((tail.drop 8).dropWhile (· == 0))

/-- A gzip container and its content: members one after another. -/
inductive Gzip : Bytes → Bytes → Prop
  | nil : Gzip [] []
  | cons {x out rest more : Bytes} : Member x out rest → Gzip rest more → Gzip x (out ++ more)

theorem length_skip {n : Nat} {x y : Bytes} (h : skip n x = some y) : y.length ≤ x.length := by
  rw [skip] at h
  split at h
  · cases h
    simp
  · cases h

theorem length_afterZero (x : Bytes) : (afterZero x).length ≤ x.length := by
  rw [afterZero, List.length_drop]
  exact Nat.le_trans (Nat.sub_le _ _) (List.dropWhile_sublist _).length_le

/-- The name, the comment and the check of a header, which may be left out. -/
theorem length_optional {x data : Bytes} {name comment check : Bool}
    (h : (let y := if name then afterZero x else x
      let z := if comment then afterZero y else y
      if check then skip 2 z else pure z) = some data) : data.length ≤ x.length := by
  have hzero (b : Bool) (y : Bytes) : (if b then afterZero y else y).length ≤ y.length := by
    cases b with
    | false => exact Nat.le_refl _
    | true => exact length_afterZero y
  refine Nat.le_trans ?_ (Nat.le_trans (hzero comment _) (hzero name x))
  cases check with
  | false =>
    cases h
    exact Nat.le_refl _
  | true => exact length_skip h

theorem length_afterHeader {x data : Bytes} (h : afterHeader x = some data) :
    data.length < x.length := by
  unfold afterHeader at h
  split at h
  · next flags x =>
    simp only [Option.bind_eq_bind, Option.bind_eq_some_iff] at h
    obtain ⟨x₁, hskip, h⟩ := h
    have hfixed := length_skip hskip
    have hdata : data.length ≤ x₁.length := by
      split at h
      · simp only [Option.bind_eq_some_iff] at h
        obtain ⟨x₂, hcount, x₃, hextra, h⟩ := h
        exact Nat.le_trans (length_optional h)
          (Nat.le_trans (length_skip hextra) (length_skip hcount))
      · exact length_optional h
    simp only [List.length_cons]
    omega
  · cases h

theorem Member.length_lt {x out rest : Bytes} (h : Member x out rest) :
    rest.length < x.length := by
  obtain ⟨hheader, ⟨r, -, rfl⟩, -, -, -⟩ := h
  have hdata := length_afterHeader hheader
  refine Nat.lt_of_le_of_lt (List.dropWhile_sublist _).length_le ?_
  simp only [List.length_drop]
  omega

theorem member?_eq_some_iff {x out rest : Bytes} :
    member? x = some (out, rest) ↔ Member x out rest := by
  constructor
  · intro h
    simp only [member?, Option.bind_eq_bind, Option.bind_eq_some_iff] at h
    obtain ⟨data, hheader, ⟨out', tail⟩, hdata, h⟩ := h
    simp only at h
    split at h
    · next hcheck =>
      cases h
      exact .intro hheader (inflate?_eq_some_iff.mp hdata) hcheck.1 hcheck.2.1 hcheck.2.2
    · cases h
  · rintro ⟨hheader, hdata, hlength, hcrc, hsize⟩
    simp [member?, hheader, inflate?_eq_some_iff.mpr hdata, hlength, hcrc, hsize]

theorem gzip_of_members? {count : Nat} {x out : Bytes} (h : members? count x = some out) :
    Gzip x out := by
  induction count generalizing x out with
  | zero =>
    cases x with
    | nil =>
      cases h
      exact .nil
    | cons b x => cases h
  | succ count ih =>
    cases x with
    | nil =>
      cases h
      exact .nil
    | cons b x =>
      simp only [members?, Option.bind_eq_bind, Option.bind_eq_some_iff] at h
      obtain ⟨⟨out', rest⟩, hmember, more, hmore, h⟩ := h
      cases h
      exact .cons (member?_eq_some_iff.mp hmember) (ih hmore)

/-- Every member takes a byte at least, so there are no more members than bytes. -/
theorem Gzip.members? {x out : Bytes} (h : Gzip x out) {count : Nat}
    (hcount : x.length ≤ count) : members? count x = some out := by
  induction h generalizing count with
  | nil => cases count <;> rfl
  | @cons x out rest more hmember _ ih =>
    have hless := hmember.length_lt
    obtain ⟨count, rfl⟩ : ∃ k, count = k + 1 := Nat.exists_eq_succ_of_ne_zero (by omega)
    have hrest := ih (show rest.length ≤ count by omega)
    cases x with
    | nil => cases hless
    | cons b x => simp [Deflate.members?, member?_eq_some_iff.mpr hmember, hrest]

theorem gzipDecode?_eq_some_iff {x out : Bytes} : gzipDecode? x = some out ↔ Gzip x out :=
  ⟨gzip_of_members?, fun h => h.members? (Nat.le_refl _)⟩

namespace Container

/-- The content of a container, if the bytes are one. -/
def Holds : Container → Bytes → Bytes → Prop
  | zlib => Zlib
  | gzip => Gzip

theorem unpack_eq_ok_iff {c : Container} {x out : Bytes} :
    c.unpack x = .ok out ↔ c.Holds x out := by
  cases c with
  | zlib =>
    rw [Holds, ← zlibDecode?_eq_some_iff, unpack]
    cases zlibDecode? x <;> simp
  | gzip =>
    rw [Holds, ← gzipDecode?_eq_some_iff, unpack]
    cases gzipDecode? x <;> simp

end Container

end Octets.Deflate
