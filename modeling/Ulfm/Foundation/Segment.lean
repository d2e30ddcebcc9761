import Mathlib.Data.List.Basic

/-!
# Linked segments

`Segment nxt a l b` says that following `nxt` from `a` visits the cells of `l`
in order and then stands at `b`. The pointer updates of a splice are one cell at
a time, so two facts carry all of them: a segment does not notice an update
outside its cells (`Segment.update_of_notMem`), and redirecting its last cell
moves its end (`Segment.redirect`).
-/

namespace Ulfm

open List Function

/-- Following `nxt` from the first cell runs through the list and ends at the
last argument. -/
def Segment (nxt : ℕ → ℕ) : ℕ → List ℕ → ℕ → Prop
  | a, [], b => a = b
  | a, c :: l, b => a = c ∧ Segment nxt (nxt c) l b

namespace Segment

variable {nxt nxt' : ℕ → ℕ} {a b c x : ℕ} {l l₁ l₂ : List ℕ}

@[simp] theorem nil_iff : Segment nxt a [] b ↔ a = b := Iff.rfl

@[simp] theorem cons_iff : Segment nxt a (c :: l) b ↔ a = c ∧ Segment nxt (nxt c) l b := Iff.rfl

theorem congr (h : ∀ y ∈ l, nxt' y = nxt y) : Segment nxt' a l b ↔ Segment nxt a l b := by
  induction l generalizing a with
  | nil => rfl
  | cons c l ih =>
    have hc : nxt' c = nxt c := h c mem_cons_self
    rw [cons_iff, cons_iff, hc, ih fun y hy => h y (mem_cons_of_mem _ hy)]

theorem update_of_notMem (h : c ∉ l) : Segment (update nxt c x) a l b ↔ Segment nxt a l b :=
  congr fun y hy => Function.update_of_ne (fun e : y = c => h (e ▸ hy)) x nxt

theorem append_iff : Segment nxt a (l₁ ++ l₂) b ↔ ∃ m, Segment nxt a l₁ m ∧ Segment nxt m l₂ b := by
  induction l₁ generalizing a with
  | nil => simp
  | cons c l ih => simp [ih, and_assoc]

theorem concat_iff : Segment nxt a (l ++ [c]) b ↔ Segment nxt a l c ∧ nxt c = b := by
  rw [append_iff]
  constructor
  · rintro ⟨m, hl, rfl, hb⟩
    exact ⟨hl, hb⟩
  · rintro ⟨hl, hb⟩
    exact ⟨c, hl, rfl, hb⟩

theorem map {φ : ℕ → ℕ} (h : Segment nxt a l b) (hφ : ∀ y ∈ l, nxt' (φ y) = φ (nxt y)) :
    Segment nxt' (φ a) (l.map φ) (φ b) := by
  induction l generalizing a with
  | nil => exact congrArg φ h
  | cons c l ih =>
    obtain ⟨rfl, h⟩ := h
    refine ⟨rfl, ?_⟩
    rw [hφ a mem_cons_self]
    exact ih h fun y hy => hφ y (mem_cons_of_mem _ hy)

theorem start_mem_or (h : Segment nxt a l b) : a = b ∨ a ∈ l := by
  cases l with
  | nil => exact Or.inl h
  | cons c l => exact Or.inr (h.1 ▸ mem_cons_self)

theorem next_mem_or (h : Segment nxt a l b) (hc : c ∈ l) : nxt c = b ∨ nxt c ∈ l := by
  induction l generalizing a with
  | nil => exact absurd hc not_mem_nil
  | cons d l ih =>
    rcases mem_cons.1 hc with rfl | hc
    · exact h.2.start_mem_or.imp_right (mem_cons_of_mem _)
    · exact (ih h.2 hc).imp_right (mem_cons_of_mem _)

theorem redirect (h : Segment nxt a (l ++ [c]) b) (hc : c ∉ l) :
    Segment (update nxt c x) a (l ++ [c]) x := by
  rw [concat_iff] at h ⊢
  exact ⟨(update_of_notMem hc).2 h.1, update_self _ _ _⟩

theorem head_eq (h : Segment nxt a (c :: l) b) : a = c := h.1

theorem eq_nil (h : Segment nxt b l b) (hb : b ∉ l) : l = [] := by
  cases l with
  | nil => rfl
  | cons c l => exact absurd (h.head_eq ▸ mem_cons_self) hb

end Segment

end Ulfm
