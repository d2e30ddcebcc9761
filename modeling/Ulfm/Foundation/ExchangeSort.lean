import Mathlib.Data.List.Sort

/-!
# Sorting by exchanges

For each position of an array a loop runs over the later positions, and exchanges the two
entries where the later one is greater. The array ends in decreasing order.
-/

namespace Ulfm

variable {α : Type} [LinearOrder α]

/-- The inner loop: the entry left at the position, and the entries after it. -/
def exchangeAt (x : α) : List α → α × List α
  | [] => (x, [])
  | y :: ys =>
    if x < y then ((exchangeAt y ys).1, x :: (exchangeAt y ys).2)
    else ((exchangeAt x ys).1, y :: (exchangeAt x ys).2)

@[simp] theorem length_exchangeAt (x : α) (l : List α) : (exchangeAt x l).2.length = l.length := by
  induction l generalizing x with
  | nil => rfl
  | cons y ys ih =>
    rw [exchangeAt]
    split
    · simp [ih]
    · simp [ih]

theorem exchangeAt_perm (x : α) (l : List α) :
    ((exchangeAt x l).1 :: (exchangeAt x l).2).Perm (x :: l) := by
  induction l generalizing x with
  | nil => rfl
  | cons y ys ih =>
    rw [exchangeAt]
    split
    · exact (List.Perm.swap x _ _).trans ((ih y).cons x)
    · exact ((List.Perm.swap y _ _).trans ((ih x).cons y)).trans (List.Perm.swap x y ys)

theorem exchangeAt_max (x : α) (l : List α) :
    x ≤ (exchangeAt x l).1 ∧ ∀ y ∈ l, y ≤ (exchangeAt x l).1 := by
  induction l generalizing x with
  | nil => exact ⟨le_rfl, nofun⟩
  | cons y ys ih =>
    rw [exchangeAt, List.forall_mem_cons]
    split
    next hlt =>
      obtain ⟨hy, hys⟩ := ih y
      exact ⟨hlt.le.trans hy, hy, hys⟩
    next hle =>
      obtain ⟨hx, hys⟩ := ih x
      exact ⟨hx, (le_of_not_gt hle).trans hx, hys⟩

def exchangeSort : List α → List α
  | [] => []
  | x :: xs => (exchangeAt x xs).1 :: exchangeSort (exchangeAt x xs).2
termination_by l => l.length
decreasing_by simp

theorem exchangeSort_perm (l : List α) : (exchangeSort l).Perm l := by
  induction l using exchangeSort.induct with
  | case1 => rw [exchangeSort]
  | case2 x xs ih =>
    rw [exchangeSort]
    exact (ih.cons _).trans (exchangeAt_perm x xs)

theorem exchangeSort_sorted (l : List α) : (exchangeSort l).Pairwise (· ≥ ·) := by
  induction l using exchangeSort.induct with
  | case1 => simp [exchangeSort]
  | case2 x xs ih =>
    rw [exchangeSort, List.pairwise_cons]
    refine ⟨?_, ih⟩
    intro y hy
    have hmem : y ∈ x :: xs := by
      apply (exchangeAt_perm x xs).subset
      exact List.mem_cons_of_mem _ ((exchangeSort_perm _).subset hy)
    obtain ⟨hx, hxs⟩ := exchangeAt_max x xs
    rcases List.mem_cons.1 hmem with rfl | hmem
    · exact hx
    · exact hxs y hmem

end Ulfm
