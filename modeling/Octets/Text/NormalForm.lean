import Octets.Fault
import Octets.Text.Composition
/-!
Unicode normal forms. A text is decomposed, its marks are put in canonical order,
and the composed forms join letters with marks again. Hangul syllables are computed,
all else is as the version of Unicode has it. Core Lean only.
-/
namespace Octets

inductive NormalForm
  | composed
  | decomposed
  | compatComposed
  | compatDecomposed
  deriving DecidableEq, Repr

namespace NormalForm

/-- The form of a name, which is taken exactly. -/
def ofName? (name : Text) : Option NormalForm :=
  if name = Text.ofString "NFC" then some .composed
  else if name = Text.ofString "NFD" then some .decomposed
  else if name = Text.ofString "NFKC" then some .compatComposed
  else if name = Text.ofString "NFKD" then some .compatDecomposed
  else none

def joins? : NormalForm → Bool
  | composed | compatComposed => true
  | _ => false

def isCompat : NormalForm → Bool
  | compatComposed | compatDecomposed => true
  | _ => false

/-- The parts of a Hangul syllable. -/
def hangulParts (c : Nat) : List Nat :=
  let s := c - 0xAC00
  let pair := [0x1100 + s / 588, 0x1161 + s % 588 / 28]
  if s % 28 = 0 then pair else pair ++ [0x11A7 + s % 28]

/-- The Hangul syllable of two parts, the first of which may itself be one. -/
def hangulJoin? (a b : Nat) : Option Nat :=
  if 0x1100 ≤ a ∧ a < 0x1113 ∧ 0x1161 ≤ b ∧ b < 0x1176 then
    some (0xAC00 + ((a - 0x1100) * 21 + (b - 0x1161)) * 28)
  else if 0xAC00 ≤ a ∧ a < 0xD7A4 ∧ (a - 0xAC00) % 28 = 0 ∧ 0x11A7 < b ∧ b < 0x11C3 then
    some (a + (b - 0x11A7))
  else none

section Composition

variable (u : Text.Composition)

/-- A code point in full decomposition. -/
def parts (f : NormalForm) (c : Nat) : List Nat :=
  if 0xAC00 ≤ c ∧ c < 0xD7A4 then hangulParts c
  else if f.isCompat then u.compatible c
  else u.canonical c

/-- Every run of marks in the order of their classes; marks of one class keep theirs. -/
def ordered : List Nat → List Nat
  | [] => []
  | c :: cs =>
    if u.markClass c = 0 then c :: ordered cs
    else
      let run := cs.takeWhile fun m => u.markClass m ≠ 0
      (c :: run).mergeSort (fun a b => u.markClass a ≤ u.markClass b) ++
        ordered (cs.drop run.length)
termination_by cs => cs.length
decreasing_by all_goals simp only [List.length_drop, List.length_cons]; omega

/-- Join marks to the letter `starter` where no mark of at least their class stands
between; `kept` holds the marks that stay, last first, and `last` the class of the
last of them. -/
def joinFrom (starter : Nat) (kept : List Nat) (last : Nat) : List Nat → List Nat
  | [] => starter :: kept.reverse
  | c :: cs =>
    let k := u.markClass c
    let free := kept.isEmpty || last < k
    let whole? := if free then (u.join? starter c).orElse fun _ => hangulJoin? starter c else none
    match whole? with
    | some whole => joinFrom whole kept last cs
    | none =>
      if k = 0 then starter :: kept.reverse ++ joinFrom c [] 0 cs
      else joinFrom starter (c :: kept) k cs

/-- Join letters and marks; marks before the first letter stay as they are. -/
def joined : List Nat → List Nat
  | [] => []
  | c :: cs => if u.markClass c = 0 then joinFrom u c [] 0 cs else c :: joined cs

/-- The text in a normal form. -/
def apply (f : NormalForm) (t : Text) : Text :=
  let l := ordered u (t.flatMap fun c => parts u f c.val)
  (if f.joins? then joined u l else l).map CodePoint.ofNat

end Composition

end NormalForm

/-- A normal form by its name, with the Unicode data to make it by. -/
structure Normalization where
  form : Text
  composition : Text.Composition

/-- The text in a normal form. An empty text has every form, also those that do not
exist. -/
def Normalization.apply (n : Normalization) (t : Text) : Outcome Text :=
  if t.isEmpty then .ok t
  else (NormalForm.ofName? n.form).elim (.error (.unknownForm n.form)) fun f =>
    .ok (f.apply n.composition t)

end Octets
