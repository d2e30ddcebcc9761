import Mathlib.Algebra.Order.Ring.Int
import Mathlib.Data.List.Basic

/-!
# Lists of ups and downs

Each entry of a list moves a level by `δ`. `level` is where the whole list leads, and
`height` is the highest level on the way.
-/

namespace Ulfm.Nesting

open List

section Levels

variable {α : Type*} (δ : α → ℤ)

def level : List α → ℤ
  | [] => 0
  | x :: xs => δ x + level xs

def height : List α → ℤ
  | [] => 0
  | x :: xs => max 0 (δ x + height xs)

@[simp] theorem level_nil : level δ [] = 0 := rfl

@[simp] theorem level_cons (x : α) (xs : List α) : level δ (x :: xs) = δ x + level δ xs := rfl

@[simp] theorem level_append (xs ys : List α) : level δ (xs ++ ys) = level δ xs + level δ ys := by
  induction xs with
  | nil => rw [nil_append, level_nil, zero_add]
  | cons x xs ih => rw [cons_append, level_cons, level_cons, ih, add_assoc]

theorem level_take_add (xs : List α) (m n : ℕ) :
    level δ (xs.take (m + n)) = level δ (xs.take m) + level δ ((xs.drop m).take n) := by
  rw [take_add, level_append]

theorem height_nonneg (xs : List α) : 0 ≤ height δ xs := by
  cases xs with
  | nil => exact le_refl 0
  | cons x xs => exact le_max_left 0 _

theorem height_append (xs ys : List α) :
    height δ (xs ++ ys) = max (height δ xs) (level δ xs + height δ ys) := by
  induction xs with
  | nil =>
    have hys := height_nonneg δ ys
    rw [nil_append, height, level_nil, zero_add, max_eq_right hys]
  | cons x xs ih =>
    rw [cons_append, height, ih, height, level_cons]
    omega

theorem level_take_le (xs : List α) (n : ℕ) : level δ (xs.take n) ≤ height δ xs := by
  conv_rhs => rw [← take_append_drop n xs, height_append]
  have hrest := height_nonneg δ (xs.drop n)
  omega

theorem level_congr {xs ys : List α} (h : xs.map δ = ys.map δ) : level δ xs = level δ ys := by
  induction xs generalizing ys with
  | nil =>
    rw [map_nil, eq_comm, map_eq_nil_iff] at h
    rw [h]
  | cons x xs ih =>
    cases ys with
    | nil => cases h
    | cons y ys =>
      obtain ⟨hxy, htail⟩ := List.cons.inj h
      rw [level_cons, level_cons, ih htail, hxy]

theorem height_congr {xs ys : List α} (h : xs.map δ = ys.map δ) : height δ xs = height δ ys := by
  induction xs generalizing ys with
  | nil =>
    rw [map_nil, eq_comm, map_eq_nil_iff] at h
    rw [h]
  | cons x xs ih =>
    cases ys with
    | nil => cases h
    | cons y ys =>
      obtain ⟨hxy, htail⟩ := List.cons.inj h
      rw [height, height, ih htail, hxy]

end Levels

end Ulfm.Nesting
