import Mathlib.Data.List.Sort
import Ulfm.Foundation.MixedRadix

/-!
# Digits at selected places

A mask splits the places of a mixed radix number into those that are kept and those that are
dropped. The digits of both are digits of their radices, and any digits of both are those of
one number. Numbers in increasing order that take every value below a bound once are these
values in order.
-/

namespace Ulfm

open List Nat

section Selection

variable {α : Type} {b : Bool} {bs : List Bool} {xs ys : List α}

/-- The entries where the mask has the given value. -/
def chosen (b : Bool) : List Bool → List α → List α
  | c :: bs, x :: xs => if c = b then x :: chosen b bs xs else chosen b bs xs
  | _, _ => []

/-- The list with given entries at the places that are kept and at those that are not. -/
def weave : List Bool → List α → List α → List α
  | true :: bs, x :: xs, ys => x :: weave bs xs ys
  | false :: bs, xs, y :: ys => y :: weave bs xs ys
  | _, _, _ => []

theorem chosen_eq_filter (b : Bool) (bs : List Bool) (xs : List α) :
    chosen b bs xs = ((xs.zip bs).filter (·.2 == b)).map (·.1) := by
  induction bs generalizing xs with
  | nil => rw [zip_nil_right]; rfl
  | cons c bs ih =>
    cases xs with
    | nil => rfl
    | cons x xs =>
      rw [chosen, zip_cons_cons, filter_cons, ih]
      by_cases hc : c = b
      · rw [if_pos hc, if_pos (beq_iff_eq.2 hc), map_cons]
      · rw [if_neg hc, if_neg (mt beq_iff_eq.1 hc)]

theorem length_chosen_congr {β : Type} {ys : List β} (h : xs.length = ys.length) :
    (chosen b bs xs).length = (chosen b bs ys).length := by
  induction bs generalizing xs ys with
  | nil => rfl
  | cons c bs ih =>
    cases xs with
    | nil =>
      obtain rfl := eq_nil_of_length_eq_zero h.symm
      rfl
    | cons x xs =>
      cases ys with
      | nil => exact nomatch h
      | cons y ys =>
        rw [chosen, chosen]
        split_ifs
        · exact congrArg succ (ih (succ.inj h))
        · exact ih (succ.inj h)

theorem eq_of_chosen_eq (hx : xs.length = bs.length) (hy : ys.length = bs.length)
    (h : ∀ b, chosen b bs xs = chosen b bs ys) : xs = ys := by
  induction bs generalizing xs ys with
  | nil => rw [eq_nil_of_length_eq_zero hx, eq_nil_of_length_eq_zero hy]
  | cons c bs ih =>
    cases xs with
    | nil => exact nomatch hx
    | cons x xs =>
      cases ys with
      | nil => exact nomatch hy
      | cons y ys =>
        have hhead := h c
        rw [chosen, chosen, if_pos rfl, if_pos rfl] at hhead
        obtain ⟨rfl, hsame⟩ := List.cons.inj hhead
        refine congrArg (x :: ·) (ih (succ.inj hx) (succ.inj hy) fun b => ?_)
        by_cases hb : c = b
        · rw [← hb]
          exact hsame
        · have hother := h b
          rwa [chosen, chosen, if_neg hb, if_neg hb] at hother

theorem Digits.chosen {dims cs : List ℕ} (h : Digits dims cs) (b : Bool) (bs : List Bool) :
    Digits (chosen b bs dims) (chosen b bs cs) := by
  induction h generalizing bs with
  | nil => cases bs <;> exact .nil
  | cons hlt _ ih =>
    cases bs with
    | nil => exact .nil
    | cons c bs =>
      rw [Ulfm.chosen, Ulfm.chosen]
      split_ifs
      · exact .cons hlt (ih bs)
      · exact ih bs

theorem pos_of_mem_chosen {dims : List ℕ} (hdims : ∀ d ∈ dims, 0 < d) :
    ∀ d ∈ chosen b bs dims, 0 < d := by
  intro d hd
  rw [chosen_eq_filter, mem_map] at hd
  obtain ⟨⟨d, c⟩, hmem, rfl⟩ := hd
  exact hdims d (of_mem_zip (mem_filter.1 hmem).1).1

theorem Digits.weave {dims ks ds : List ℕ} (hlength : bs.length = dims.length)
    (hk : Digits (Ulfm.chosen true bs dims) ks) (hd : Digits (Ulfm.chosen false bs dims) ds) :
    Digits dims (weave bs ks ds) ∧ Ulfm.chosen true bs (weave bs ks ds) = ks ∧
      Ulfm.chosen false bs (weave bs ks ds) = ds := by
  induction bs generalizing dims ks ds with
  | nil =>
    obtain rfl := eq_nil_of_length_eq_zero hlength.symm
    cases hk
    cases hd
    exact ⟨.nil, rfl, rfl⟩
  | cons c bs ih =>
    cases dims with
    | nil => exact nomatch hlength
    | cons d dims =>
      cases c with
      | true =>
        cases hk with
        | cons hlt hk =>
          obtain ⟨hdigits, hkept, hdropped⟩ := ih (succ.inj hlength) hk hd
          exact ⟨.cons hlt hdigits, congrArg (_ :: ·) hkept, hdropped⟩
      | false =>
        cases hd with
        | cons hlt hd =>
          obtain ⟨hdigits, hkept, hdropped⟩ := ih (succ.inj hlength) hk hd
          exact ⟨.cons hlt hdigits, hkept, congrArg (_ :: ·) hdropped⟩

theorem map_eq_range {l : List α} {value : α → ℕ} {n : ℕ}
    (hlt : l.Pairwise fun x y => value x < value y) (hmem : ∀ v, v < n ↔ ∃ x ∈ l, value x = v) :
    l.map value = range n := by
  apply List.Pairwise.eq_of_mem_iff (pairwise_map.2 hlt) pairwise_lt_range
  intro v
  rw [mem_map, mem_range]
  exact (hmem v).symm

end Selection

end Ulfm
