import Octets.Chunks
/-!
# Whole blocks

A list whose length is a multiple of a block's is none, or a whole block before such a
list (`whole_of_length`). Its blocks come before those of any list put after it
(`Whole.chunks_append`), they start at the multiples of their length (`Whole.chunks_eq`), and
reversing it reverses each block and their order (`Whole.chunks_reverse`,
`Whole.map_chunks_reverse`).
-/

namespace Octets

variable {α : Type} {k : Nat} {l : List α}

/-- Lists made of whole blocks of `k + 1` items. -/
inductive Whole (k : Nat) : List α → Prop
  | nil : Whole k []
  | block {b l : List α} (hb : b.length = k + 1) (hl : Whole k l) : Whole k (b ++ l)

theorem whole_of_length (h : l.length % (k + 1) = 0) : Whole k l := by
  fun_induction chunks k l with
  | case1 => exact .nil
  | case2 a l ih =>
    have hlength : ¬ (a :: l).length < k + 1 := by
      intro hlt
      rw [Nat.mod_eq_of_lt hlt] at h
      cases h
    rw [List.length_cons, Nat.succ_lt_succ_iff, Nat.not_lt] at hlength
    have hblock : (a :: l.take k).length = k + 1 := by
      rw [List.length_cons, List.length_take, Nat.min_eq_left hlength]
    have hsplit : a :: l = (a :: l.take k) ++ l.drop k := by
      rw [List.cons_append, List.take_append_drop]
    rw [hsplit, List.length_append, hblock, Nat.add_mod_left] at h
    rw [hsplit]
    exact .block hblock (ih h)

namespace Whole

theorem length_mod (h : Whole k l) : l.length % (k + 1) = 0 := by
  induction h with
  | nil => exact Nat.zero_mod _
  | block hb hl ih => rw [List.length_append, hb, Nat.add_mod_left, ih]

theorem reverse (h : Whole k l) : Whole k l.reverse :=
  whole_of_length (by rw [List.length_reverse, h.length_mod])

theorem chunks_append (h : Whole k l) (m : List α) :
    chunks k (l ++ m) = chunks k l ++ chunks k m := by
  induction h with
  | nil => rw [chunks_nil, List.nil_append, List.nil_append]
  | @block b l hb hl ih =>
    rw [List.append_assoc, Octets.chunks_append k b _ hb, ih, Octets.chunks_append k b l hb,
      List.cons_append]

/-- The blocks are what stands at the multiples of their length. -/
theorem chunks_eq (h : Whole k l) : chunks k l =
    (List.range (l.length / (k + 1))).map fun j => (l.drop (j * (k + 1))).take (k + 1) := by
  induction h with
  | nil => simp [chunks_nil]
  | @block b l hb hl ih =>
    have hcount : (b ++ l).length / (k + 1) = l.length / (k + 1) + 1 := by
      rw [List.length_append, hb, Nat.add_comm, Nat.add_div_right _ (Nat.succ_pos k)]
    have hfirst : (b ++ l).take (k + 1) = b := by rw [← hb, List.take_left]
    have hrest (j : Nat) : (b ++ l).drop ((j + 1) * (k + 1)) = l.drop (j * (k + 1)) := by
      rw [Nat.succ_mul, Nat.add_comm, ← List.drop_drop, ← hb, List.drop_left]
    rw [Octets.chunks_append k b l hb, ih, hcount, List.range_succ_eq_map, List.map_cons,
      List.map_map]
    simp only [Nat.zero_mul, List.drop_zero, hfirst, hrest, Function.comp_def]

/-- The blocks of a reversed list are the reversed blocks, the last one first. -/
theorem chunks_reverse (h : Whole k l) :
    chunks k l.reverse = ((chunks k l).map List.reverse).reverse := by
  induction h with
  | nil => rw [List.reverse_nil, chunks_nil, List.map_nil, List.reverse_nil]
  | @block b l hb hl ih =>
    have hlast : chunks k b.reverse = [b.reverse] := by
      have hone := Octets.chunks_append k b.reverse [] (by rw [List.length_reverse, hb])
      rwa [List.append_nil, chunks_nil] at hone
    rw [List.reverse_append, hl.reverse.chunks_append, ih, hlast, Octets.chunks_append k b l hb,
      List.map_cons, List.reverse_cons]

/-- A reading of the blocks that reverses each reads those of the reversed list backwards. -/
theorem map_chunks_reverse {β : Type} (h : Whole k l) {f g : List α → β}
    (hfg : ∀ b, f b = g b.reverse) :
    (chunks k l).map f = ((chunks k l.reverse).map g).reverse := by
  have hcomp : f = g ∘ List.reverse := funext hfg
  rw [h.chunks_reverse, List.map_reverse, List.reverse_reverse, List.map_map, hcomp]

end Whole
end Octets
