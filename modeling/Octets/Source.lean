import Octets.Bytes
import Octets.Check
/-!
Sources of bytes that are read piece by piece, and files that are read by range. A
source may hand out fewer bytes than it is asked for; it is at its end when it hands
out none. Core Lean only.
-/
namespace Octets

structure Source where
  rest : Bytes
  /-- How many bytes the source is willing to hand out, by the number of reads before
  and the size asked for. -/
  policy : Nat → Nat → Nat
  reads : Nat

namespace Source

/-- A source that hands out all it is asked for. -/
def ofBytes (x : Bytes) : Source := ⟨x, fun _ size => size, 0⟩

/-- A source that hands out no more than `limit` bytes at a time. -/
def limited (limit : Nat) (x : Bytes) : Source := ⟨x, fun _ size => min size limit, 0⟩

/-- Ask for `size` bytes. -/
def read (s : Source) (size : Nat) : Bytes × Source :=
  let n := min size (s.policy s.reads size)
  (s.rest.take n, ⟨s.rest.drop n, s.policy, s.reads + 1⟩)

/-- The most that is asked for at a time. -/
def pieceSize : Nat := 4096

structure Reading where
  data : Bytes
  source : Source
  /-- The sizes asked for, in order. -/
  sizes : List Nat

/-- Read up to the end, or up to `wanted` bytes. -/
def readAll (s : Source) (wanted : Option Nat) : Reading :=
  if wanted = some 0 then ⟨[], s, []⟩
  else
    let size := wanted.elim pieceSize (min pieceSize)
    let n := min size (s.policy s.reads size)
    let s' : Source := ⟨s.rest.drop n, s.policy, s.reads + 1⟩
    if _h : s.rest.take n = [] then ⟨[], s', [size]⟩
    else
      let piece := s.rest.take n
      let more := readAll s' (wanted.map (· - piece.length))
      ⟨piece ++ more.data, more.source, size :: more.sizes⟩
termination_by s.rest.length
decreasing_by
  simp only [List.length_drop]
  have hpos : 0 < (s.rest.take n).length := List.length_pos_iff.mpr _h
  rw [List.length_take] at hpos
  exact Nat.sub_lt (Nat.lt_min.mp hpos).2 (Nat.lt_min.mp hpos).1

/-- Read a source up to its end, or up to `limit` bytes. -/
def readUpTo (s : Source) (limit : Option Int) : Outcome Reading := do
  if let some n := limit then Check.notNegative n "max_length"
  return s.readAll (limit.map Int.toNat)

end Source

/-- A computation that reads a source. A fault leaves the source as it stands then. -/
abbrev SourceM := ExceptT Fault (StateM Source)

namespace SourceM

/-- A check, for which nothing is read. -/
def checking (c : Outcome Unit) : SourceM Unit := ExceptT.mk fun s => (c, s)

def readAll (wanted : Option Nat) : SourceM Bytes :=
  ExceptT.mk fun s => (.ok (s.readAll wanted).data, (s.readAll wanted).source)

/-- Read the source up to its end, or up to `limit` bytes. -/
def readUpTo (limit : Option Int) : SourceM Bytes := do
  if let some n := limit then checking (Check.notNegative n "max_length")
  readAll (limit.map Int.toNat)

end SourceM

/-- The bytes of a file from `offset` on, all of them or `length`; `content` is
missing where there is no file. -/
def readRange (path : String) (content : Option Bytes) (offset : Int) (length : Option Int) :
    Outcome Bytes := do
  Check.notNegative offset "offset"
  if let some n := length then Check.notNegative n "length"
  match content with
  | none => .error .fileMissing
  | some x =>
    let stop := length.elim (x.length : Int) (offset + ·)
    if x.length < offset ∨ x.length < stop then
      .error (.fileOutside offset stop path x.length)
    else .ok (x.window offset.toNat (stop - offset).toNat)

end Octets
