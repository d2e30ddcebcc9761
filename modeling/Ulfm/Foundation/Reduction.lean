import Mathlib.Data.List.Basic

/-!
# Reductions that do not depend on order and repetition

A commutative, associative and idempotent operation reduces a nonempty list to a
value that depends only on the set of its elements. The laws are asked for on a
set `P` of values that the operation does not leave, since an operation on
buffers has them for the buffers of one length only.
-/

namespace Ulfm

open List

variable {α : Type*}

/-- The operation `op` is commutative, associative and idempotent on `P`. -/
structure SemilatticeOn (P : α → Prop) (op : α → α → α) : Prop where
  closed : ∀ a b, P a → P b → P (op a b)
  comm : ∀ a b, P a → P b → op a b = op b a
  assoc : ∀ a b c, P a → P b → P c → op (op a b) c = op a (op b c)
  idem : ∀ a, P a → op a a = a

/-- The reduction of a list, none of the empty one. -/
def reduceList (op : α → α → α) : List α → Option α
  | [] => none
  | a :: l => some (l.foldl op a)

namespace SemilatticeOn

variable {P : α → Prop} {op : α → α → α} {a b c : α} {l l₁ l₂ : List α}

section

variable (h : SemilatticeOn P op)
include h

theorem foldl_mem (ha : P a) (hl : ∀ c ∈ l, P c) : P (l.foldl op a) := by
  induction l generalizing a with
  | nil => exact ha
  | cons b l ih =>
    exact ih (h.closed a b ha (hl b mem_cons_self))
      fun c hc => hl c (mem_cons_of_mem _ hc)

theorem reduceList_mem (hl : ∀ c ∈ l, P c) (ha : reduceList op l = some a) : P a := by
  cases l with
  | nil => simp [reduceList] at ha
  | cons b l =>
    obtain rfl := Option.some.inj ha
    exact h.foldl_mem (hl b mem_cons_self) fun c hc => hl c (mem_cons_of_mem _ hc)

theorem foldl_op (ha : P a) (hb : P b) (hl : ∀ c ∈ l, P c) :
    l.foldl op (op a b) = op a (l.foldl op b) := by
  induction l generalizing b with
  | nil => rfl
  | cons c l ih =>
    have hc := hl c mem_cons_self
    rw [foldl_cons, foldl_cons, h.assoc a b c ha hb hc]
    exact ih (h.closed b c hb hc) fun d hd => hl d (mem_cons_of_mem _ hd)

theorem reduceList_append (hl₁ : ∀ c ∈ l₁, P c) (hl₂ : ∀ c ∈ l₂, P c)
    (ha : reduceList op l₁ = some a) (hb : reduceList op l₂ = some b) :
    reduceList op (l₁ ++ l₂) = some (op a b) := by
  have hPa := h.reduceList_mem hl₁ ha
  cases l₁ with
  | nil => simp [reduceList] at ha
  | cons x l₁ =>
    cases l₂ with
    | nil => simp [reduceList] at hb
    | cons y l₂ =>
      obtain rfl := Option.some.inj ha
      obtain rfl := Option.some.inj hb
      rw [cons_append, reduceList, foldl_append, foldl_cons]
      rw [h.foldl_op hPa (hl₂ y mem_cons_self)
        fun c hc => hl₂ c (mem_cons_of_mem _ hc)]

theorem reduceList_absorb (hl : ∀ c ∈ l, P c) (hc : c ∈ l)
    (ha : reduceList op l = some a) : op a c = a := by
  induction l generalizing a with
  | nil => exact absurd hc not_mem_nil
  | cons x l ih =>
    have hx := hl x mem_cons_self
    have hl' : ∀ d ∈ l, P d := fun d hd => hl d (mem_cons_of_mem _ hd)
    cases hred : reduceList op l with
    | none =>
      cases l with
      | nil =>
        obtain rfl := Option.some.inj ha
        obtain rfl := mem_singleton.1 hc
        exact h.idem c hx
      | cons y l => simp [reduceList] at hred
    | some b =>
      have hb := h.reduceList_mem hl' hred
      have hxa : reduceList op [x] = some x := rfl
      have hsplit := h.reduceList_append (by simpa using hx) hl' hxa hred
      rw [singleton_append, ha] at hsplit
      obtain rfl := Option.some.inj hsplit
      rcases mem_cons.1 hc with rfl | hc
      · calc op (op c b) c = op c (op c b) := h.comm _ _ (h.closed c b hx hb) hx
          _ = op (op c c) b := (h.assoc c c b hx hx hb).symm
          _ = op c b := by rw [h.idem c hx]
      · rw [h.assoc x b c hx hb (hl' c hc), ih hl' hc hred]

theorem reduceList_absorb_subset (hl₁ : ∀ c ∈ l₁, P c)
    (hsub : l₂ ⊆ l₁) (ha : reduceList op l₁ = some a) (hb : reduceList op l₂ = some b) :
    op a b = a := by
  have hPa := h.reduceList_mem hl₁ ha
  have hl₂ : ∀ c ∈ l₂, P c := fun c hc => hl₁ c (hsub hc)
  cases l₂ with
  | nil => simp [reduceList] at hb
  | cons x l₂ =>
    obtain rfl := Option.some.inj hb
    have hx : x ∈ l₁ := hsub mem_cons_self
    have hrest : ∀ c ∈ l₂, c ∈ l₁ := fun c hc => hsub (mem_cons_of_mem _ hc)
    rw [← h.foldl_op hPa (hl₁ x hx) fun c hc => hl₁ c (hrest c hc), h.reduceList_absorb hl₁ hx ha]
    clear hb hsub hl₂ hx
    induction l₂ with
    | nil => rfl
    | cons y l₂ ih =>
      rw [foldl_cons, h.reduceList_absorb hl₁ (hrest y mem_cons_self) ha]
      exact ih fun c hc => hrest c (mem_cons_of_mem _ hc)

theorem reduceList_congr (hl₁ : ∀ c ∈ l₁, P c)
    (heq : ∀ c, c ∈ l₁ ↔ c ∈ l₂) : reduceList op l₁ = reduceList op l₂ := by
  have hl₂ : ∀ c ∈ l₂, P c := fun c hc => hl₁ c ((heq c).2 hc)
  cases l₁ with
  | nil =>
    cases l₂ with
    | nil => rfl
    | cons y l₂ => exact absurd ((heq y).2 mem_cons_self) not_mem_nil
  | cons x l₁ =>
    cases l₂ with
    | nil => exact absurd ((heq x).1 mem_cons_self) not_mem_nil
    | cons y l₂ =>
      have ha : reduceList op (x :: l₁) = some (l₁.foldl op x) := rfl
      have hb : reduceList op (y :: l₂) = some (l₂.foldl op y) := rfl
      have h1 := h.reduceList_absorb_subset hl₁ (fun c hc => (heq c).2 hc) ha hb
      have h2 := h.reduceList_absorb_subset hl₂ (fun c hc => (heq c).1 hc) hb ha
      rw [ha, hb, ← h1, h.comm _ _ (h.reduceList_mem hl₁ ha) (h.reduceList_mem hl₂ hb), h2]

end

end SemilatticeOn

end Ulfm
