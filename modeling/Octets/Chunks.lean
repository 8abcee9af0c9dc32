/-!
Lists cut into blocks of equal length, the last of which may be shorter. Core
Lean only.
-/
namespace Octets

/-- The list in blocks of `k + 1` items, the last one holding what is left. -/
def chunks {α : Type} (k : Nat) : List α → List (List α)
  | [] => []
  | a :: l => (a :: l.take k) :: chunks k (l.drop k)
termination_by l => l.length
decreasing_by simp only [List.length_drop, List.length_cons]; omega

theorem chunks_nil {α : Type} (k : Nat) : chunks k ([] : List α) = [] := by
  simp [chunks]

theorem chunks_append {α : Type} (k : Nat) (b l : List α) (h : b.length = k + 1) :
    chunks k (b ++ l) = b :: chunks k l := by
  match b, h with
  | a :: b, h =>
    have hb : b.length = k := by simpa using h
    rw [List.cons_append, chunks]
    simp [← hb]

theorem chunks_flatten {α : Type} (k : Nat) (l : List α) : (chunks k l).flatten = l := by
  fun_induction chunks k l with
  | case1 => rfl
  | case2 a l ih => simp [ih]

theorem mem_of_mem_chunks {α : Type} {k : Nat} {l b : List α} {a : α} (hb : b ∈ chunks k l)
    (ha : a ∈ b) : a ∈ l := by
  rw [← chunks_flatten k l]
  exact List.mem_flatten.mpr ⟨b, hb, ha⟩

theorem length_le_of_mem_chunks {α : Type} {k : Nat} {l b : List α} (hb : b ∈ chunks k l) :
    b.length ≤ k + 1 := by
  fun_induction chunks k l with
  | case1 => cases hb
  | case2 a l ih =>
    rcases List.mem_cons.mp hb with rfl | hb
    · simp only [List.length_cons, List.length_take]
      omega
    · exact ih hb

end Octets
