import Mathlib.Data.List.TakeWhile
/-!
# Runs at the ends of a list

A list is a run of one item and a rest that does not start with that item, in one way
only: what `takeWhile` and `dropWhile` yield. The same holds at the end of a list.
-/

namespace Octets

theorem drop_length_takeWhile {α : Type} (p : α → Bool) (l : List α) :
    l.drop (l.takeWhile p).length = l.dropWhile p := by
  have h : (l.takeWhile p ++ l.dropWhile p).drop (l.takeWhile p).length = l.dropWhile p :=
    List.drop_left
  rwa [List.takeWhile_append_dropWhile] at h

section Runs

variable {α : Type} [BEq α] [LawfulBEq α] {a : α} {l : List α}

theorem takeWhile_replicate_append (h : l.head? ≠ some a) (n : Nat) :
    (List.replicate n a ++ l).takeWhile (· == a) = List.replicate n a := by
  have hl : l.takeWhile (· == a) = [] := by
    cases l with
    | nil => rfl
    | cons b l =>
      have hb : b ≠ a := by simpa using h
      simp [hb]
  rw [List.takeWhile_append_of_pos (by simp), hl, List.append_nil]

theorem dropWhile_replicate_append (h : l.head? ≠ some a) (n : Nat) :
    (List.replicate n a ++ l).dropWhile (· == a) = l := by
  cases l with
  | nil => simp
  | cons b l =>
    have hb : b ≠ a := by simpa using h
    rw [List.dropWhile_append_of_pos (by simp)]
    simp [hb]

theorem head?_dropWhile_ne (a : α) (l : List α) : (l.dropWhile (· == a)).head? ≠ some a := by
  intro h
  have := List.head?_dropWhile_not (· == a) l
  rw [h] at this
  simp at this

theorem replicate_append_dropWhile (a : α) (l : List α) :
    List.replicate (l.takeWhile (· == a)).length a ++ l.dropWhile (· == a) = l := by
  have hrun : l.takeWhile (· == a) = List.replicate (l.takeWhile (· == a)).length a := by
    apply List.eq_replicate_of_mem
    intro b hb
    simpa using List.mem_takeWhile_imp hb
  rw [← hrun]
  exact List.takeWhile_append_dropWhile

/-- A list is what is before a run at its end, and the run. -/
theorem dropWhile_reverse_append (a : α) (l : List α) :
    (l.reverse.dropWhile (· == a)).reverse ++
      List.replicate (l.reverse.takeWhile (· == a)).length a = l := by
  have h := congrArg List.reverse (replicate_append_dropWhile a l.reverse)
  rwa [List.reverse_append, List.reverse_replicate, List.reverse_reverse] at h

/-- A run at the end of a list that did not end in its item is dropped, and no more. -/
theorem dropWhile_reverse_append_replicate (h : l.getLast? ≠ some a) (n : Nat) :
    ((l ++ List.replicate n a).reverse.dropWhile (· == a)).reverse = l := by
  rw [← List.head?_reverse] at h
  rw [List.reverse_append, List.reverse_replicate, dropWhile_replicate_append h,
    List.reverse_reverse]

end Runs
end Octets
