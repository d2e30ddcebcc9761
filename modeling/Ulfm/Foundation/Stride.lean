import Mathlib.Algebra.Order.Ring.Int
import Mathlib.Data.List.Basic
import Mathlib.Order.Bounds.Basic

/-!
# Lists of displacements

`consecutive a n` lists `n` displacements from `a` on; `repeated n stride l` lists
the displacements of `l` once for each of `n` copies, each copy `stride` further
than the one before it.
-/

namespace Ulfm

open List Nat

section Consecutive

def consecutive : ℤ → ℕ → List ℤ
  | _, 0 => []
  | a, n + 1 => a :: consecutive (a + 1) n

@[simp] theorem length_consecutive (a : ℤ) (n : ℕ) : (consecutive a n).length = n := by
  induction n generalizing a with
  | zero => rfl
  | succ n ih => rw [consecutive, length_cons, ih]

theorem consecutive_add (a : ℤ) (m n : ℕ) :
    consecutive a (m + n) = consecutive a m ++ consecutive (a + m) n := by
  induction m generalizing a with
  | zero => simp [consecutive]
  | succ m ih =>
    have hshift : a + ((m + 1 : ℕ) : ℤ) = a + 1 + m := by
      push_cast
      omega
    rw [succ_add, consecutive, ih, consecutive, cons_append, hshift]

theorem map_consecutive (a d : ℤ) (n : ℕ) :
    (consecutive a n).map (· + d) = consecutive (a + d) n := by
  induction n generalizing a with
  | zero => rfl
  | succ n ih =>
    have hshift : a + 1 + d = a + d + 1 := by omega
    rw [consecutive, map_cons, ih, consecutive, hshift]

end Consecutive

section Repeated

def repeated : ℕ → ℤ → List ℤ → List ℤ
  | 0, _, _ => []
  | n + 1, stride, l => l ++ repeated n stride (l.map (· + stride))

variable {n : ℕ} {stride : ℤ} {l l' : List ℤ}

@[simp] theorem length_repeated (n : ℕ) (stride : ℤ) (l : List ℤ) :
    (repeated n stride l).length = n * l.length := by
  induction n generalizing l with
  | zero => simp [repeated]
  | succ n ih =>
    rw [repeated, length_append, ih, length_map, succ_mul, Nat.add_comm]

@[simp] theorem repeated_one (stride : ℤ) (l : List ℤ) : repeated 1 stride l = l := by
  rw [repeated, repeated, List.append_nil]

theorem repeated_consecutive (n : ℕ) (a : ℤ) (m : ℕ) :
    repeated n m (consecutive a m) = consecutive a (n * m) := by
  induction n generalizing a with
  | zero => simp [repeated, consecutive]
  | succ n ih =>
    rw [repeated, map_consecutive, ih, ← consecutive_add]
    congr 1
    rw [succ_mul, Nat.add_comm]

end Repeated

section Members

variable {n : ℕ} {stride : ℤ} {l : List ℤ}

theorem mem_consecutive {a x : ℤ} {n : ℕ} : x ∈ consecutive a n ↔ a ≤ x ∧ x < a + n := by
  induction n generalizing a with
  | zero =>
    rw [consecutive]
    simp
  | succ n ih =>
    rw [consecutive, mem_cons, ih]
    push_cast
    omega

theorem mem_repeated {x : ℤ} : x ∈ repeated n stride l ↔ ∃ i < n, ∃ y ∈ l, x = y + i * stride := by
  induction n generalizing l with
  | zero =>
    rw [repeated]
    simp
  | succ n ih =>
    rw [repeated, mem_append, ih]
    constructor
    · rintro (hx | ⟨i, hi, y, hy, rfl⟩)
      · exact ⟨0, succ_pos n, x, hx, by simp⟩
      · obtain ⟨z, hz, rfl⟩ := mem_map.mp hy
        refine ⟨i + 1, succ_lt_succ hi, z, hz, ?_⟩
        push_cast
        rw [Int.add_mul, Int.one_mul]
        omega
    · rintro ⟨i, hi, y, hy, rfl⟩
      cases i with
      | zero =>
        apply Or.inl
        simpa using hy
      | succ i =>
        refine Or.inr ⟨i, lt_of_succ_lt_succ hi, y + stride, ?_, ?_⟩
        · exact mem_map.mpr ⟨y, hy, rfl⟩
        · push_cast
          rw [Int.add_mul, Int.one_mul]
          omega

@[simp] theorem repeated_nil (n : ℕ) (stride : ℤ) : repeated n stride [] = [] := by
  induction n with
  | zero => rfl
  | succ n ih => rw [repeated, map_nil, ih, List.append_nil]

theorem copy_bounds {i : ℕ} (hi : i < n) (stride : ℤ) :
    min 0 (stride * ((n : ℤ) - 1)) ≤ i * stride ∧ i * stride ≤ max 0 (stride * ((n : ℤ) - 1)) := by
  have hlast : (i : ℤ) ≤ (n : ℤ) - 1 := by omega
  rcases le_total 0 stride with hs | hs
  · have hle : (i : ℤ) * stride ≤ stride * ((n : ℤ) - 1) := by
      rw [mul_comm]
      exact mul_le_mul_of_nonneg_left hlast hs
    have hnonneg : 0 ≤ (i : ℤ) * stride := mul_nonneg (Int.natCast_nonneg i) hs
    omega
  · have hle : stride * ((n : ℤ) - 1) ≤ (i : ℤ) * stride := by
      rw [mul_comm (i : ℤ)]
      exact mul_le_mul_of_nonpos_left hlast hs
    have hnonpos : (i : ℤ) * stride ≤ 0 := mul_nonpos_of_nonneg_of_nonpos (Int.natCast_nonneg i) hs
    omega

theorem isLeast_repeated (hn : 0 < n) {a : ℤ} (h : IsLeast {x | x ∈ l} a) :
    IsLeast {x | x ∈ repeated n stride l} (a + min 0 (stride * ((n : ℤ) - 1))) := by
  constructor
  · apply mem_repeated.mpr
    rcases le_total 0 (stride * ((n : ℤ) - 1)) with hs | hs
    · exact ⟨0, hn, a, h.1, by rw [min_eq_left hs]; simp⟩
    · refine ⟨n - 1, sub_lt hn Nat.one_pos, a, h.1, ?_⟩
      rw [min_eq_right hs, cast_sub hn, cast_one, mul_comm]
  · intro x hx
    obtain ⟨i, hi, y, hy, rfl⟩ := mem_repeated.mp hx
    have hay : a ≤ y := h.2 hy
    have hcopy := (copy_bounds hi stride).1
    omega

theorem isGreatest_repeated (hn : 0 < n) {a : ℤ} (h : IsGreatest {x | x ∈ l} a) :
    IsGreatest {x | x ∈ repeated n stride l} (a + max 0 (stride * ((n : ℤ) - 1))) := by
  constructor
  · apply mem_repeated.mpr
    rcases le_total 0 (stride * ((n : ℤ) - 1)) with hs | hs
    · refine ⟨n - 1, sub_lt hn Nat.one_pos, a, h.1, ?_⟩
      rw [max_eq_right hs, cast_sub hn, cast_one, mul_comm]
    · exact ⟨0, hn, a, h.1, by rw [max_eq_left hs]; simp⟩
  · intro x hx
    obtain ⟨i, hi, y, hy, rfl⟩ := mem_repeated.mp hx
    have hya : y ≤ a := h.2 hy
    have hcopy := (copy_bounds hi stride).2
    omega

theorem isLeast_shift {a : ℤ} (h : IsLeast {x | x ∈ l} a) (d : ℤ) :
    IsLeast {x | x ∈ l.map (· + d)} (a + d) := by
  constructor
  · exact mem_map.mpr ⟨a, h.1, rfl⟩
  · intro x hx
    obtain ⟨y, hy, rfl⟩ := mem_map.mp hx
    exact Int.add_le_add_right (h.2 hy) d

theorem isGreatest_shift {a : ℤ} (h : IsGreatest {x | x ∈ l} a) (d : ℤ) :
    IsGreatest {x | x ∈ l.map (· + d)} (a + d) := by
  constructor
  · exact mem_map.mpr ⟨a, h.1, rfl⟩
  · intro x hx
    obtain ⟨y, hy, rfl⟩ := mem_map.mp hx
    exact Int.add_le_add_right (h.2 hy) d

theorem setOf_mem_append (l l' : List ℤ) : {x | x ∈ l ++ l'} = {x | x ∈ l} ∪ {x | x ∈ l'} := by
  ext x
  exact mem_append

end Members

end Ulfm
