import Mathlib.Algebra.Order.BigOperators.Group.List
import Mathlib.Data.List.Infix
import Mathlib.Algebra.Order.Ring.Int

/-!
# Lists that are read in a circle

A `Lasso` is a list that is read once and then a list that is read again and again.
`first k` lists the first `k` entries; the partial sums of a lasso of positive
entries determine the entries.
-/

namespace Ulfm

open List

/-- The entries of `stem`, and then those of `cycle` without end. -/
structure Lasso (α : Type*) where
  stem : List α
  cycle : List α
  deriving DecidableEq

namespace Lasso

section Entries

variable {α : Type*} (s : Lasso α)

/-- A list read in a circle from its start. -/
def ofList (l : List α) : Lasso α := ⟨[], l⟩

/-- The stem and `k` turns of the cycle. -/
def unrolled (k : ℕ) : List α := s.stem ++ (replicate k s.cycle).flatten

/-- The first `k` entries. -/
def first (k : ℕ) : List α := (s.unrolled k).take k

variable {s}

theorem unrolled_succ (k : ℕ) : s.unrolled (k + 1) = s.unrolled k ++ s.cycle := by
  rw [unrolled, unrolled, replicate_succ', flatten_append, flatten_singleton, List.append_assoc]

theorem unrolled_prefix {k m : ℕ} (h : k ≤ m) : s.unrolled k <+: s.unrolled m := by
  induction m, h using Nat.le_induction with
  | base => exact prefix_refl _
  | succ m _ ih =>
    rw [unrolled_succ]
    exact ih.trans (prefix_append _ _)

theorem le_length_unrolled (hs : s.cycle ≠ []) (k : ℕ) : k ≤ (s.unrolled k).length := by
  induction k with
  | zero => exact Nat.zero_le _
  | succ k ih =>
    have hpos : 0 < s.cycle.length := length_pos_iff.mpr hs
    rw [unrolled_succ, length_append]
    omega

theorem take_unrolled (hs : s.cycle ≠ []) {k m : ℕ} (h : k ≤ (s.unrolled m).length) :
    (s.unrolled m).take k = s.first k := by
  rw [first]
  rcases Nat.le_total k m with hkm | hmk
  · obtain ⟨t, ht⟩ := unrolled_prefix (s := s) hkm
    rw [← ht, take_append_of_le_length (le_length_unrolled hs k)]
  · obtain ⟨t, ht⟩ := unrolled_prefix (s := s) hmk
    rw [← ht, take_append_of_le_length h]

theorem first_succ (hs : s.cycle ≠ []) (k : ℕ) : ∃ x, s.first (k + 1) = s.first k ++ [x] := by
  have hlen : k + 1 ≤ (s.unrolled (k + 1)).length := le_length_unrolled hs (k + 1)
  refine ⟨(s.unrolled (k + 1))[k], ?_⟩
  rw [← take_unrolled hs hlen, ← take_unrolled hs (Nat.le_of_succ_le hlen), take_concat_get']

theorem mem_of_mem_first {k : ℕ} {x : α} (h : x ∈ s.first k) : x ∈ s.stem ∨ x ∈ s.cycle := by
  have hx : x ∈ s.unrolled k := mem_of_mem_take h
  rw [unrolled, mem_append, mem_flatten] at hx
  refine hx.imp_right ?_
  rintro ⟨l, hl, hxl⟩
  rwa [eq_of_mem_replicate hl] at hxl

theorem first_ofList {l : List α} (hl : l ≠ []) {k : ℕ} (hk : k ≤ l.length) :
    (ofList l).first k = l.take k := by
  have hone : (ofList l).unrolled 1 = l := by
    rw [unrolled, ofList, replicate_one, flatten_singleton, nil_append]
  have hk1 : k ≤ ((ofList l).unrolled 1).length := by rwa [hone]
  rw [← take_unrolled (s := ofList l) hl hk1, hone]

theorem first_stem (hs : s.cycle ≠ []) {k : ℕ} (hk : k ≤ s.stem.length) :
    s.first k = s.stem.take k := by
  have hzero : s.unrolled 0 = s.stem := append_nil _
  rw [← take_unrolled hs (m := 0) (by rwa [hzero]), hzero]

theorem first_ofList_add {l : List α} (hl : l ≠ []) (q r : ℕ) (hr : r ≤ l.length) :
    (ofList l).first (q * l.length + r) = (replicate q l).flatten ++ l.take r := by
  have hunroll : (ofList l).unrolled (q + 1) = (List.replicate q l).flatten ++ l := by
    rw [unrolled_succ, unrolled, ofList, nil_append]
  have hq : ((List.replicate q l).flatten).length = q * l.length := by
    simp
  have hlen : q * l.length + r ≤ ((ofList l).unrolled (q + 1)).length := by
    rw [hunroll, length_append, hq]
    omega
  rw [← take_unrolled (s := ofList l) hl hlen, hunroll, ← hq, take_length_add_append]

end Entries

section Sums

variable {s t : Lasso ℕ}

/-- The sum of the first `k` entries. -/
def sumFirst (s : Lasso ℕ) (k : ℕ) : ℕ := (s.first k).sum

/-- Every entry is positive, and there is no end of them. -/
structure Positive (s : Lasso ℕ) : Prop where
  cycle_ne : s.cycle ≠ []
  stem_pos : ∀ x ∈ s.stem, 0 < x
  cycle_pos : ∀ x ∈ s.cycle, 0 < x

theorem Positive.unrolled_pos (h : s.Positive) (k : ℕ) : ∀ x ∈ s.unrolled k, 0 < x := by
  intro x hx
  rw [unrolled, mem_append, mem_flatten] at hx
  rcases hx with hx | ⟨l, hl, hxl⟩
  · exact h.stem_pos x hx
  · rw [eq_of_mem_replicate hl] at hxl
    exact h.cycle_pos x hxl

theorem Positive.sumFirst_lt_succ (h : s.Positive) (k : ℕ) : s.sumFirst k < s.sumFirst (k + 1) := by
  obtain ⟨x, hx⟩ := first_succ h.cycle_ne k
  have hmem : x ∈ s.first (k + 1) := by
    rw [hx]
    exact mem_append_right _ (mem_singleton_self x)
  have hpos : 0 < x := h.unrolled_pos _ x (mem_of_mem_take hmem)
  rw [sumFirst, sumFirst, hx, sum_append, sum_singleton]
  omega

theorem Positive.sumFirst_strictMono (h : s.Positive) : StrictMono s.sumFirst :=
  strictMono_nat_of_lt_succ h.sumFirst_lt_succ

theorem Positive.sumFirst_add_le (h : s.Positive) (k j : ℕ) :
    s.sumFirst k + j ≤ s.sumFirst (k + j) := by
  induction j with
  | zero => exact Nat.le_refl _
  | succ j ih =>
    have hlt := h.sumFirst_lt_succ (k + j)
    rw [Nat.add_assoc] at hlt
    omega

theorem sumFirst_succ_lt {b : ℕ} (hs : s.cycle ≠ []) (hstem : ∀ x ∈ s.stem, x < b)
    (hcycle : ∀ x ∈ s.cycle, x < b) (k : ℕ) : s.sumFirst (k + 1) < s.sumFirst k + b := by
  obtain ⟨x, hx⟩ := first_succ hs k
  have hmem : x ∈ s.first (k + 1) := by
    rw [hx]
    exact mem_append_right _ (mem_singleton_self x)
  have hlt : x < b := (mem_of_mem_first hmem).elim (hstem x) (hcycle x)
  rw [sumFirst, sumFirst, hx, sum_append, sum_singleton]
  omega

theorem Positive.le_sum_unrolled (h : s.Positive) (k : ℕ) : k ≤ (s.unrolled k).sum := by
  calc
    k ≤ (s.unrolled k).length := le_length_unrolled h.cycle_ne k
    _ ≤ (s.unrolled k).sum := length_le_sum_of_one_le _ (h.unrolled_pos k)

theorem first_eq_of_sumFirst_eq (hs : s.cycle ≠ []) (ht : t.cycle ≠ []) {n : ℕ}
    (h : ∀ k ≤ n, s.sumFirst k = t.sumFirst k) : s.first n = t.first n := by
  induction n with
  | zero => rfl
  | succ n ih =>
    obtain ⟨x, hx⟩ := first_succ hs n
    obtain ⟨y, hy⟩ := first_succ ht n
    have hfirst : s.first n = t.first n := ih fun k hk => h k (Nat.le_succ_of_le hk)
    have hsum := h (n + 1) (Nat.le_refl _)
    rw [sumFirst, sumFirst, hx, hy, hfirst, sum_append, sum_append,
      sum_singleton, sum_singleton] at hsum
    rw [hx, hy, hfirst, Nat.add_left_cancel hsum]

theorem first_mono_eq {n k : ℕ} (hs : s.cycle ≠ []) (ht : t.cycle ≠ []) (h : s.first n = t.first n)
    (hk : k ≤ n) : s.first k = t.first k := by
  have hcut : ∀ u : Lasso ℕ, u.cycle ≠ [] → (u.first n).take k = u.first k := by
    intro u hu
    have hn : k ≤ (u.unrolled n).length := Nat.le_trans hk (le_length_unrolled hu n)
    rw [first, take_take, Nat.min_eq_left hk, take_unrolled hu hn]
  rw [← hcut s hs, h, hcut t ht]

end Sums

end Lasso

end Ulfm
