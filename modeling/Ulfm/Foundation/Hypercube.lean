import Mathlib.Algebra.Order.Ring.Canonical
import Mathlib.Algebra.Order.Ring.Nat
import Mathlib.Data.Nat.Bitwise

/-!
# Numbers that differ in one bit

In many algorithms a process `v` talks to the processes `v ^^^ 2 ^ j`.
-/

namespace Ulfm

open Nat

variable {v j : ℕ}

theorem xor_two_pow_div (v j : ℕ) : (v ^^^ 2 ^ j) / 2 ^ j = v / 2 ^ j ^^^ 1 := by
  rw [xor_div_two_pow, Nat.div_self (Nat.two_pow_pos j)]

theorem xor_two_pow_eq (v j : ℕ) : v ^^^ 2 ^ j = 2 ^ j * (v / 2 ^ j ^^^ 1) + v % 2 ^ j := by
  have hmod : (v ^^^ 2 ^ j) % 2 ^ j = v % 2 ^ j := by
    rw [xor_mod_two_pow, mod_self, xor_zero]
  rw [← xor_two_pow_div, ← hmod, div_add_mod]

theorem xor_two_pow_of_even (h : Even (v / 2 ^ j)) : v ^^^ 2 ^ j = v + 2 ^ j := by
  rw [xor_two_pow_eq, xor_one_of_even h, mul_add, mul_one, Nat.add_right_comm, div_add_mod]

theorem xor_two_pow_of_odd (h : Odd (v / 2 ^ j)) : (v ^^^ 2 ^ j) + 2 ^ j = v := by
  have hpos : 1 ≤ v / 2 ^ j := h.pos
  rw [xor_two_pow_eq, xor_one_of_odd h, Nat.mul_sub, mul_one, Nat.add_right_comm,
    Nat.sub_add_cancel (Nat.le_mul_of_pos_right _ hpos), div_add_mod]

theorem xor_two_pow_of_lt (h : v < 2 ^ j) : v ^^^ 2 ^ j = v + 2 ^ j := by
  refine xor_two_pow_of_even ?_
  rw [div_eq_of_lt h]
  exact Even.zero

theorem xor_two_pow_ne (v j : ℕ) : v ^^^ 2 ^ j ≠ v := by
  have hpos : 0 < 2 ^ j := Nat.two_pow_pos j
  rcases even_or_odd (v / 2 ^ j) with h | h
  · rw [xor_two_pow_of_even h]
    omega
  · have hsum := xor_two_pow_of_odd h
    omega

theorem even_div_two_pow_iff (h : 2 ^ j ∣ v) : Even (v / 2 ^ j) ↔ 2 ^ (j + 1) ∣ v := by
  rw [even_iff_two_dvd, dvd_div_iff_mul_dvd h, pow_succ]

theorem div_two_eq_iff (a b : ℕ) : a / 2 = b / 2 ↔ a = b ^^^ 1 ∨ a = b := by
  rcases even_or_odd b with hb | hb
  · rw [xor_one_of_even hb]
    rw [even_iff] at hb
    omega
  · rw [xor_one_of_odd hb]
    rw [odd_iff] at hb
    omega

theorem xor_eq_iff {a b c : ℕ} : a ^^^ b = c ↔ c ^^^ b = a := by
  constructor
  · rintro rfl
    rw [Nat.xor_assoc, Nat.xor_self, xor_zero]
  · rintro rfl
    rw [Nat.xor_assoc, Nat.xor_self, xor_zero]

end Ulfm
