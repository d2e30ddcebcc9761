import Mathlib.Data.List.Basic

/-!
# Lists seen from one of their elements

A zipper is a nonempty list with a position in it: the elements before the position, the
nearest first, the element there, and the elements after it.
-/

namespace Ulfm

open List

variable {α : Type}

/-- A nonempty list seen from one of its elements. -/
structure Zipper (α : Type) where
  before : List α
  focus : α
  after : List α
deriving DecidableEq

namespace Zipper

def toList (z : Zipper α) : List α := z.before.reverse ++ z.focus :: z.after

def next : Zipper α → Option (Zipper α)
  | ⟨_, _, []⟩ => none
  | ⟨before, a, b :: after⟩ => some ⟨a :: before, b, after⟩

def prev : Zipper α → Option (Zipper α)
  | ⟨[], _, _⟩ => none
  | ⟨b :: before, a, after⟩ => some ⟨before, b, a :: after⟩

@[simp] theorem mem_toList {z : Zipper α} {a : α} :
    a ∈ z.toList ↔ a ∈ z.before ∨ a = z.focus ∨ a ∈ z.after := by
  simp [toList]

theorem next_eq_none {z : Zipper α} : z.next = none ↔ z.after = [] := by
  obtain ⟨before, a, _ | ⟨b, after⟩⟩ := z <;> simp [next]

theorem prev_eq_none {z : Zipper α} : z.prev = none ↔ z.before = [] := by
  obtain ⟨_ | ⟨b, before⟩, a, after⟩ := z <;> simp [prev]

section

variable {z y : Zipper α}

theorem next_eq_some :
    z.next = some y ↔ y.before = z.focus :: z.before ∧ z.after = y.focus :: y.after := by
  obtain ⟨before, a, _ | ⟨b, after⟩⟩ := z
  · simp [next]
  · obtain ⟨before', a', after'⟩ := y
    simp [next, eq_comm]

theorem prev_eq_some :
    z.prev = some y ↔ y.after = z.focus :: z.after ∧ z.before = y.focus :: y.before := by
  obtain ⟨_ | ⟨b, before⟩, a, after⟩ := z
  · simp [prev]
  · obtain ⟨before', a', after'⟩ := y
    simp only [prev, Option.some.injEq, mk.injEq, cons.injEq]
    constructor
    · intro ⟨hbefore, hfocus, hafter⟩
      exact ⟨hafter.symm, hfocus, hbefore⟩
    · intro ⟨hafter, hfocus, hbefore⟩
      exact ⟨hbefore, hfocus, hafter.symm⟩

theorem toList_of_next (h : z.next = some y) : y.toList = z.toList := by
  obtain ⟨hbefore, hafter⟩ := next_eq_some.1 h
  simp [toList, hbefore, hafter]

theorem toList_of_prev (h : z.prev = some y) : y.toList = z.toList := by
  obtain ⟨hafter, hbefore⟩ := prev_eq_some.1 h
  simp [toList, hbefore, hafter]

theorem length_after_of_next (h : z.next = some y) : y.after.length < z.after.length := by
  simp [(next_eq_some.1 h).2]

theorem length_before_of_prev (h : z.prev = some y) : y.before.length < z.before.length := by
  simp [(prev_eq_some.1 h).2]

end

theorem pairwise_toList {R : α → α → Prop} {z : Zipper α} : z.toList.Pairwise R ↔
      z.before.Pairwise (fun a b => R b a) ∧ z.after.Pairwise R ∧
        (∀ a ∈ z.before, R a z.focus) ∧ (∀ b ∈ z.after, R z.focus b) ∧
          ∀ a ∈ z.before, ∀ b ∈ z.after, R a b := by
  simp only [toList, pairwise_append, pairwise_reverse, pairwise_cons,
    mem_reverse, mem_cons, forall_eq_or_imp, forall_and]
  constructor
  · intro ⟨hbefore, ⟨hfocus, hafter⟩, hleft, hacross⟩
    exact ⟨hbefore, hafter, hleft, hfocus, hacross⟩
  · intro ⟨hbefore, hafter, hleft, hfocus, hacross⟩
    exact ⟨hbefore, ⟨hfocus, hafter⟩, hleft, hacross⟩

end Zipper

end Ulfm
