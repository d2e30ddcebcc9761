import Mathlib.Data.Nat.Bitwise

/-!
# The lowest bit that is not set

`x ||| (x + 1)` is `x` with its lowest unset bit set: the carry of the addition runs
through the ones at the end of `x`.
-/

namespace Ulfm

open Nat

variable {x j : ℕ}

/-- `while (x & 1) { n++; x >>= 1; }`. -/
def trailingOnes (x : ℕ) : ℕ := if x % 2 = 1 then trailingOnes (x / 2) + 1 else 0
termination_by x

theorem trailingOnes_odd (h : x % 2 = 1) : trailingOnes x = trailingOnes (x / 2) + 1 := by
  rw [trailingOnes, if_pos h]

theorem trailingOnes_even (h : x % 2 ≠ 1) : trailingOnes x = 0 := by
  rw [trailingOnes, if_neg h]

theorem testBit_of_lt_trailingOnes (h : j < trailingOnes x) : x.testBit j = true := by
  induction x using trailingOnes.induct generalizing j with
  | case1 x hodd ih =>
    rw [trailingOnes_odd hodd] at h
    cases j with
    | zero => rw [testBit_zero, hodd, decide_eq_true rfl]
    | succ j =>
      rw [testBit_succ]
      exact ih (lt_of_succ_lt_succ h)
  | case2 x heven =>
    rw [trailingOnes_even heven] at h
    exact absurd h (Nat.not_lt_zero j)

theorem testBit_trailingOnes (x : ℕ) : x.testBit (trailingOnes x) = false := by
  induction x using trailingOnes.induct with
  | case1 x hodd ih => rw [trailingOnes_odd hodd, testBit_succ, ih]
  | case2 x heven => rw [trailingOnes_even heven, testBit_zero, decide_eq_false heven]

theorem testBit_add_one (h : x.testBit j = false) :
    (x + 1).testBit j = decide (j = trailingOnes x) := by
  induction x using trailingOnes.induct generalizing j with
  | case1 x hodd ih =>
    cases j with
    | zero =>
      rw [testBit_zero, hodd] at h
      exact nomatch h
    | succ j =>
      have hhalf : (x + 1) / 2 = x / 2 + 1 := by omega
      rw [testBit_succ] at h ⊢
      rw [hhalf, ih h, trailingOnes_odd hodd]
      exact decide_eq_decide.2 (succ_inj).symm
  | case2 x heven =>
    rw [trailingOnes_even heven]
    cases j with
    | zero =>
      have hodd : (x + 1) % 2 = 1 := by omega
      rw [testBit_zero, hodd]
      rfl
    | succ j =>
      have hhalf : (x + 1) / 2 = x / 2 := by omega
      rw [testBit_succ] at h ⊢
      rw [hhalf, h]
      rfl

theorem testBit_or_add_one (x j : ℕ) :
    (x ||| (x + 1)).testBit j = (x.testBit j || decide (j = trailingOnes x)) := by
  rw [testBit_or]
  cases h : x.testBit j with
  | true => rfl
  | false => rw [testBit_add_one h]

end Ulfm
