import Mathlib.Algebra.Order.Ring.Int
import Mathlib.Data.List.Basic
import Mathlib.Tactic.Ring

/-!
# Loops that count and collect

A function counts the entries of a result in a first loop, allocates an array for them and writes
them in a second loop. It is `none` if an `int` overflows or if it writes behind the array.
-/

namespace Ulfm

open List Option Nat

variable {α β σ : Type}

/-- The number is an `int`. -/
def IsInt (x : ℤ) : Prop := -2 ^ 31 ≤ x ∧ x < 2 ^ 31

instance (x : ℤ) : Decidable (IsInt x) := inferInstanceAs (Decidable (_ ∧ _))

/-- `count++`, for an `int` that is not negative. -/
def intSucc (count : ℕ) : Option ℕ := if count + 1 < 2 ^ 31 then some (count + 1) else none

/-- A write behind the last entry of an array. -/
def push (capacity : ℕ) (l : List α) (a : α) : Option (List α) :=
  if l.length < capacity then some (l ++ [a]) else none

theorem foldlM_count {l : List α} {body : ℕ → α → Option ℕ} (c : α → Bool)
    (hbody : ∀ n, ∀ x ∈ l, body n x = if c x then intSucc n else some n) {n : ℕ}
    (h : n + l.countP c < 2 ^ 31) : l.foldlM body n = some (n + l.countP c) := by
  induction l generalizing n with
  | nil => rfl
  | cons x l ih =>
    have hrest := fun n => ih (fun n y hy => hbody n y (mem_cons_of_mem x hy)) (n := n)
    rw [foldlM_cons, hbody n x mem_cons_self]
    rw [countP_cons] at h ⊢
    cases hx : c x with
    | false =>
      rw [hx] at h
      exact hrest n h
    | true =>
      rw [hx, if_pos rfl] at h
      rw [if_pos rfl, if_pos rfl, intSucc, if_pos (by omega)]
      change l.foldlM body (n + 1) = _
      rw [hrest (n + 1) (by omega)]
      congr 1
      omega

theorem foldlM_collect {l : List α} {capacity : ℕ} {body : List β → α → Option (List β)}
    (f : α → Option β)
    (hbody : ∀ acc, ∀ x ∈ l, body acc x = (f x).elim (some acc) (push capacity acc))
    {acc : List β} (h : acc.length + (l.filterMap f).length ≤ capacity) :
    l.foldlM body acc = some (acc ++ l.filterMap f) := by
  induction l generalizing acc with
  | nil =>
    rw [filterMap_nil, append_nil]
    rfl
  | cons x l ih =>
    have hrest := fun acc => @ih (fun acc y hy => hbody acc y (mem_cons_of_mem x hy)) acc
    rw [foldlM_cons, hbody acc x mem_cons_self]
    cases hx : f x with
    | none =>
      rw [filterMap_cons_none hx] at h ⊢
      exact hrest acc h
    | some y =>
      rw [filterMap_cons_some hx, length_cons] at h
      rw [filterMap_cons_some hx, elim_some, push, if_pos (by omega)]
      change l.foldlM body (acc ++ [y]) = _
      rw [hrest (acc ++ [y]) (by rw [length_append, length_singleton]; omega),
        append_assoc, singleton_append]

theorem foldlM_congr {l : List α} {body body' : σ → α → Option σ}
    (h : ∀ st, ∀ x ∈ l, body st x = body' st x) (st : σ) :
    l.foldlM body st = l.foldlM body' st := by
  induction l generalizing st with
  | nil => rfl
  | cons x l ih =>
    rw [foldlM_cons, foldlM_cons, h st x mem_cons_self]
    exact congrArg _ (funext fun st => ih (fun st y hy => h st y (mem_cons_of_mem x hy)) st)

theorem foldlM_getElem? (l : List α) (body : σ → α → Option σ) (st : σ) :
    (range l.length).foldlM (fun st (k : ℕ) => l[k]?.bind (body st)) st = l.foldlM body st := by
  induction l generalizing st with
  | nil => rfl
  | cons x l ih =>
    rw [length_cons, range_succ_eq_map, foldlM_cons, foldlM_cons]
    change body st x >>= _ = body st x >>= _
    apply congrArg
    funext st
    rw [foldlM_map]
    exact ih st

/-- `while (goesOn(index)) { body; index += stride; }`. -/
def strideLoop (body : σ → ℤ → Option σ) (goesOn : ℤ → Bool) (stride : ℤ) : ℕ → ℤ → σ → Option σ
  | 0, _, _ => none
  | fuel + 1, index, st =>
    if goesOn index then do
      let st ← body st index
      if IsInt (index + stride) then strideLoop body goesOn stride fuel (index + stride) st
      else none
    else some st

section

variable {body : σ → ℤ → Option σ} {goesOn : ℤ → Bool} {first stride : ℤ}

end

end Ulfm
