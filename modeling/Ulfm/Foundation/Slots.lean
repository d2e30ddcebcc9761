import Mathlib.Data.List.ReduceOption
import Mathlib.Data.List.Induction

/-!
# Tables with empty slots

A table keeps its entries in slots, some of which are empty. The entries in the order of the slots
are the compacted table, and an entry has the same place in both exactly if no slot before it is
empty. `Block` is an array of a fixed length into which a program stores by index.
-/

namespace Ulfm

open List Nat

section Slots

variable {α β : Type} {l : List (Option α)} {a : α} {i : ℕ}

def LeftJustified (l : List (Option α)) : Prop :=
  ∀ (i j : ℕ) (a : α), i < j → l[j]? = some (some a) → l[i]? ≠ some none

theorem reduceOption_concat_some (l : List (Option α)) (a : α) :
    (l ++ [some a]).reduceOption = l.reduceOption ++ [a] := by
  rw [reduceOption_append, reduceOption_singleton]
  rfl

theorem reduceOption_concat_none (l : List (Option α)) :
    (l ++ [none]).reduceOption = l.reduceOption := by
  rw [reduceOption_append, reduceOption_singleton]
  exact List.append_nil _

theorem LeftJustified.tail {x : Option α} (h : LeftJustified (x :: l)) : LeftJustified l := by
  intro i j a hij ha
  exact h (i + 1) (j + 1) a (succ_lt_succ hij) ha

theorem LeftJustified.no_entry (h : LeftJustified (none :: l)) : l[i]? ≠ some (some a) := by
  intro ha
  exact h 0 (i + 1) a (succ_pos i) ha rfl

theorem LeftJustified.getElem?_eq (h : LeftJustified l) (i : ℕ) :
    l.reduceOption[i]? = l[i]?.join := by
  induction l generalizing i with
  | nil => rfl
  | cons x l ih =>
    cases x with
    | none =>
      have hnone : ∀ k : ℕ, l[k]?.join = none := by
        intro k
        cases hk : l[k]?.join with
        | none => rfl
        | some a => exact absurd (Option.join_eq_some_iff.1 hk) h.no_entry
      rw [reduceOption_cons_of_none, ih h.tail, hnone]
      cases i with
      | zero => rfl
      | succ i => exact (hnone i).symm
    | some a =>
      rw [reduceOption_cons_of_some]
      cases i with
      | zero => rfl
      | succ i => exact ih h.tail i

theorem leftJustified_iff :
    LeftJustified l ↔ ∀ (i : ℕ) (a : α), l[i]? = some (some a) → i < l.reduceOption.length := by
  constructor
  · intro h i a ha
    have hget : l.reduceOption[i]? = some a := by rw [h.getElem?_eq, ha]; rfl
    exact (List.getElem?_eq_some_iff.1 hget).1
  · intro h
    induction l using List.reverseRecOn with
    | nil => intro i j a _ ha; exact nomatch ha
    | append_singleton l x ih =>
      cases x with
      | none =>
        have hlast : ∀ {j : ℕ} {a : α}, (l ++ [none])[j]? = some (some a) →
            l[j]? = some (some a) ∧ j < l.length := by
          intro j a ha
          by_cases hj : j < l.length
          · rw [getElem?_append_left hj] at ha
            exact ⟨ha, hj⟩
          · rw [getElem?_append_right (Nat.le_of_not_lt hj)] at ha
            exact absurd (mem_of_getElem? ha) (by simp)
        have hl : LeftJustified l := by
          apply ih
          intro i a ha
          have hlt : i < l.length := (List.getElem?_eq_some_iff.1 ha).1
          have := h i a (by rw [getElem?_append_left hlt]; exact ha)
          rwa [reduceOption_concat_none] at this
        intro i j a hij ha hi
        obtain ⟨ha, hj⟩ := hlast ha
        rw [getElem?_append_left (Nat.lt_trans hij hj)] at hi
        exact hl i j a hij ha hi
      | some b =>
        -- the last entry is counted last, so all slots before it are used
        have hcount : l.length < l.reduceOption.length + 1 := by
          have := h l.length b getElem?_concat_length
          rwa [reduceOption_concat_some, length_append] at this
        have hfull : l.reduceOption.length = l.length :=
          Nat.le_antisymm (reduceOption_length_le l) (Nat.lt_succ_iff.1 hcount)
        have hsome : ∀ x ∈ l, x.isSome := reduceOption_length_eq_iff.1 hfull
        intro i j a hij ha hi
        have hj : j < (l ++ [some b]).length := (List.getElem?_eq_some_iff.1 ha).1
        have hlt : i < l.length := by
          rw [length_append, length_singleton] at hj
          omega
        rw [getElem?_append_left hlt] at hi
        exact nomatch hsome none (mem_of_getElem? hi)

end Slots

/-- An array from `malloc`, and whether a store went outside of it. -/
structure Block (α : Type) where
  cells : List α
  overrun : Bool
deriving DecidableEq

namespace Block

variable {α β : Type} {b : Block α} {i k : ℕ} {a : α}

/-- `malloc(n * sizeof(α))`, where `before` is what the memory has in it. -/
def malloc (before : ℕ → α) (n : ℕ) : Block α := ⟨(range n).map before, false⟩

/-- `b[i] = a`. -/
def put (b : Block α) (i : ℕ) (a : α) : Block α :=
  if i < b.cells.length then { b with cells := b.cells.set i a } else { b with overrun := true }

@[simp] theorem length_malloc (before : ℕ → α) (n : ℕ) : (malloc before n).cells.length = n := by
  simp [malloc]

@[simp] theorem overrun_malloc (before : ℕ → α) (n : ℕ) : (malloc before n).overrun = false := rfl

theorem getElem?_malloc {before : ℕ → α} {n : ℕ} (hi : i < n) :
    (malloc before n).cells[i]? = some (before i) := by
  simp [malloc, hi]

@[simp] theorem length_put : (b.put i a).cells.length = b.cells.length := by
  unfold put
  split_ifs
  · exact length_set
  · rfl

theorem overrun_put : (b.put i a).overrun = true ↔ b.overrun = true ∨ b.cells.length ≤ i := by
  unfold put
  split_ifs with h
  · exact (or_iff_left (Nat.not_le_of_lt h)).symm
  · exact iff_of_true rfl (.inr (Nat.le_of_not_lt h))

theorem getElem?_put_self (hi : i < b.cells.length) : (b.put i a).cells[i]? = some a := by
  rw [put, if_pos hi]
  exact getElem?_set_self hi

theorem getElem?_put_of_ne (h : i ≠ k) : (b.put i a).cells[k]? = b.cells[k]? := by
  unfold put
  split_ifs
  · exact getElem?_set_ne h
  · rfl

/-- Stores what the entries of a table give under the indices of their slots, from `i` on. -/
def scatter (f : α → Option β) : List (Option α) → ℕ → Block β → Block β
  | [], _, b => b
  | x :: l, i, b =>
    scatter f l (i + 1) (match x.bind f with
      | none => b
      | some v => b.put i v)

/-- Stores what the entries of a table give one after the other from `k` on, at most up to `n`. -/
def gather (f : α → β) (n : ℕ) : List (Option α) → ℕ → Block β → Block β
  | [], _, b => b
  | none :: l, k, b => gather f n l k b
  | some a :: l, k, b => if n ≤ k then b else gather f n l (k + 1) (b.put k (f a))

section Loops

variable {f : α → Option β} {g : α → β} {l : List (Option α)} {b : Block β} {n : ℕ}

@[simp] theorem length_scatter : (scatter f l i b).cells.length = b.cells.length := by
  induction l generalizing i b with
  | nil => rfl
  | cons x l ih =>
    rw [scatter, ih]
    cases x.bind f with
    | none => rfl
    | some v => exact length_put

theorem getElem?_scatter (hk : k < b.cells.length) : (scatter f l i b).cells[k]? =
      if i ≤ k then (l[k - i]?.join.bind f).or b.cells[k]? else b.cells[k]? := by
  induction l generalizing i b with
  | nil => exact (ite_self _).symm
  | cons x l ih =>
    rw [scatter]
    cases hx : x.bind f with
    | none =>
      rw [ih hk]
      rcases Nat.lt_trichotomy i k with h | rfl | h
      · have hsub : k - i = k - (i + 1) + 1 := by omega
        rw [if_pos (succ_le_of_lt h), if_pos (Nat.le_of_lt h), hsub, getElem?_cons_succ]
      · have hjoin : (x :: l)[i - i]?.join.bind f = none := by
          rw [Nat.sub_self]
          exact hx
        rw [if_neg (not_succ_le_self i), if_pos (Nat.le_refl i), hjoin]
        rfl
      · rw [if_neg (Nat.not_le_of_lt (lt_succ_of_lt h)), if_neg (Nat.not_le_of_lt h)]
    | some v =>
      change (scatter f l (i + 1) (b.put i v)).cells[k]? = _
      rw [ih (by rwa [length_put])]
      rcases Nat.lt_trichotomy i k with h | rfl | h
      · have hsub : k - i = k - (i + 1) + 1 := by omega
        rw [if_pos (succ_le_of_lt h), if_pos (Nat.le_of_lt h), hsub, getElem?_cons_succ,
          getElem?_put_of_ne (Nat.ne_of_lt h)]
      · have hjoin : (x :: l)[i - i]?.join.bind f = some v := by
          rw [Nat.sub_self]
          exact hx
        rw [if_neg (not_succ_le_self i), if_pos (Nat.le_refl i), hjoin, getElem?_put_self hk]
        rfl
      · rw [if_neg (Nat.not_le_of_lt (lt_succ_of_lt h)), if_neg (Nat.not_le_of_lt h),
          getElem?_put_of_ne (Nat.ne_of_gt h)]

theorem overrun_scatter : (scatter f l i b).overrun = true ↔ b.overrun = true ∨
      ∃ (j : ℕ) (a : α), l[j]? = some (some a) ∧ (f a).isSome ∧ b.cells.length ≤ i + j := by
  induction l generalizing i b with
  | nil =>
    constructor
    · exact fun h => .inl h
    · rintro (h | ⟨j, a, ha, -⟩)
      · exact h
      · exact nomatch ha
  | cons x l ih =>
    have hcons : (∃ (j : ℕ) (a : α), (x :: l)[j]? = some (some a) ∧ (f a).isSome ∧
          b.cells.length ≤ i + j) ↔
        ((x.bind f).isSome ∧ b.cells.length ≤ i) ∨
          ∃ (j : ℕ) (a : α), l[j]? = some (some a) ∧ (f a).isSome ∧ b.cells.length ≤ i + 1 + j := by
      constructor
      · rintro ⟨j, a, ha, hf, hle⟩
        cases j with
        | zero =>
          obtain rfl : x = some a := Option.some.inj ha
          exact .inl ⟨hf, hle⟩
        | succ j => exact .inr ⟨j, a, ha, hf, by omega⟩
      · rintro (⟨hx, hle⟩ | ⟨j, a, ha, hf, hle⟩)
        · cases x with
          | none => exact nomatch hx
          | some a => exact ⟨0, a, rfl, hx, hle⟩
        · exact ⟨j + 1, a, ha, hf, by omega⟩
    rw [scatter, ih, hcons]
    cases hx : x.bind f with
    | none => simp
    | some v =>
      change (b.put i v).overrun = true ∨ _ ↔ _
      rw [overrun_put, length_put, or_assoc]
      simp

@[simp] theorem length_gather : (gather g n l k b).cells.length = b.cells.length := by
  induction l generalizing k b with
  | nil => rfl
  | cons x l ih =>
    cases x with
    | none => exact ih
    | some a =>
      rw [gather]
      split_ifs
      · rfl
      · rw [ih, length_put]

theorem overrun_gather (hlen : b.cells.length = n) : (gather g n l k b).overrun = b.overrun := by
  induction l generalizing k b with
  | nil => rfl
  | cons x l ih =>
    cases x with
    | none => exact ih hlen
    | some a =>
      rw [gather]
      split_ifs with h
      · rfl
      · have hk : k < b.cells.length := by omega
        rw [ih (length_put.trans hlen), put, if_pos hk]

theorem getElem?_gather (hlen : b.cells.length = n) {j : ℕ} (hj : j < n) :
    (gather g n l k b).cells[j]? =
      if k ≤ j then (l.reduceOption[j - k]?.map g).or b.cells[j]? else b.cells[j]? := by
  induction l generalizing k b with
  | nil => exact (ite_self _).symm
  | cons x l ih =>
    cases x with
    | none =>
      rw [gather, reduceOption_cons_of_none]
      exact ih hlen
    | some a =>
      rw [gather, reduceOption_cons_of_some]
      by_cases hn : n ≤ k
      · rw [if_pos hn, if_neg (by omega)]
      · rw [if_neg hn, ih (length_put.trans hlen)]
        rcases Nat.lt_trichotomy k j with h | rfl | h
        · have hsub : j - k = j - (k + 1) + 1 := by omega
          rw [if_pos (succ_le_of_lt h), if_pos (Nat.le_of_lt h), hsub, getElem?_cons_succ,
            getElem?_put_of_ne (Nat.ne_of_lt h)]
        · rw [if_neg (not_succ_le_self k), if_pos (Nat.le_refl k), Nat.sub_self,
            getElem?_put_self (by omega)]
          rfl
        · rw [if_neg (Nat.not_le_of_lt (lt_succ_of_lt h)), if_neg (Nat.not_le_of_lt h),
            getElem?_put_of_ne (Nat.ne_of_gt h)]

end Loops

end Block

end Ulfm
