import Ulfm.Foundation.LocalTree

/-!
# Routing along a tree

Some of the numbers are live nodes, and these form a tree with the root `0` and with parents below
their children (`LiveTree`). A message goes down to the child above its target, and up to the parent
when the target is not below (`LiveTree.reaches`).
-/

namespace Ulfm

open Relation

/-- `b` is a strict descendant of `a`. -/
def Below (children : ℕ → List ℕ) : ℕ → ℕ → Prop := TransGen fun a b => b ∈ children a

theorem below_iff {children : ℕ → List ℕ} {a b : ℕ} :
    Below children a b ↔ ∃ c ∈ children a, b = c ∨ Below children c b := by
  rw [Below, TransGen.head'_iff]
  refine exists_congr fun c => and_congr_right fun _ => ?_
  rw [reflTransGen_iff_eq_or_transGen]

/-- The live nodes are a tree with the root `0`, and parents come before their children. -/
structure LiveTree (live : ℕ → Prop) (parent : ℕ → ℕ) (children : ℕ → List ℕ) : Prop where
  live_zero : live 0
  parent_lt : ∀ {c : ℕ}, live c → c ≠ 0 → parent c < c
  parent_live : ∀ {c : ℕ}, live c → c ≠ 0 → live (parent c)
  mem : ∀ {p c : ℕ}, live p → (c ∈ children p ↔ c ≠ 0 ∧ live c ∧ parent c = p)

theorem VirtualTree.liveTree {n : ℕ} {parent : ℕ → ℕ} {children : ℕ → List ℕ}
    (h : VirtualTree n parent children) (hn : 0 < n) : LiveTree (· < n) parent children where
  live_zero := hn
  parent_lt hc hne := h.parent_lt (Nat.pos_of_ne_zero hne) hc
  parent_live hc hne := (h.parent_lt (Nat.pos_of_ne_zero hne) hc).trans hc
  mem hp := by rw [h.mem hp, Nat.pos_iff_ne_zero]

namespace LiveTree

variable {live : ℕ → Prop} {parent : ℕ → ℕ} {children : ℕ → List ℕ} {a b v t : ℕ}

section

variable (h : LiveTree live parent children)
include h

theorem child_live (ha : live a) (hb : b ∈ children a) : live b := ((h.mem ha).1 hb).2.1

theorem lt_child (ha : live a) (hb : b ∈ children a) : a < b := by
  obtain ⟨hne, hlive, rfl⟩ := (h.mem ha).1 hb
  exact h.parent_lt hlive hne

theorem live_of_below (ha : live a) (hab : Below children a b) : live b ∧ a < b := by
  induction hab with
  | single hb => exact ⟨h.child_live ha hb, h.lt_child ha hb⟩
  | tail _ hb ih => exact ⟨h.child_live ih.1 hb, ih.2.trans (h.lt_child ih.1 hb)⟩

theorem child_of_parent (hv : live v) (hne : v ≠ 0) :
    v ∈ children (parent v) := (h.mem (h.parent_live hv hne)).2 ⟨hne, hv, rfl⟩

theorem below_zero (hv : live v) (hne : v ≠ 0) : Below children 0 v := by
  induction v using Nat.strong_induction_on with
  | _ v ih =>
    have hchild := h.child_of_parent hv hne
    by_cases hzero : parent v = 0
    · rw [hzero] at hchild
      exact .single hchild
    · exact .tail (ih _ (h.parent_lt hv hne) (h.parent_live hv hne) hzero) hchild

end

/-- The routes for `t`: a node sends a message to the child that is the target or above it, and when
the target is not below, to its parent or directly to the target. At some nodes the message can
leave these routes. -/
def Routes (live : ℕ → Prop) (parent : ℕ → ℕ) (children : ℕ → List ℕ) (t : ℕ)
    (hop : ℕ → ℕ → Prop) (leaves : ℕ → Prop) : Prop :=
  ∀ v, live v → v ≠ t → (∃ c ∈ children v, (c = t ∨ Below children c t) ∧ hop v c) ∨
    (¬Below children v t ∧ (hop v (parent v) ∨ hop v t)) ∨ leaves v

variable {hop : ℕ → ℕ → Prop} {leaves : ℕ → Prop}

section

variable (h : LiveTree live parent children) (hroutes : Routes live parent children t hop leaves)
include h hroutes

theorem reaches_down (hv : live v) (hbelow : Below children v t) :
    ∃ w, ReflTransGen hop v w ∧ (w = t ∨ live w ∧ leaves w) := by
  -- the nodes come closer to the target
  induction hk : t - v using Nat.strong_induction_on generalizing v with
  | _ k ih =>
    have hvt := (h.live_of_below hv hbelow).2
    rcases hroutes v hv hvt.ne with ⟨c, hc, hct, hhop⟩ | ⟨hnot, -⟩ | hleaves
    · have hlt := h.lt_child hv hc
      rcases hct with rfl | hct
      · exact ⟨c, .single hhop, .inl rfl⟩
      · obtain ⟨w, hcw, hw⟩ := ih (t - c) (by omega) (h.child_live hv hc) hct rfl
        exact ⟨w, .head hhop hcw, hw⟩
    · exact absurd hbelow hnot
    · exact ⟨v, .refl, .inr ⟨hv, hleaves⟩⟩

theorem reaches (ht : live t) (hv : live v) :
    ∃ w, ReflTransGen hop v w ∧ (w = t ∨ live w ∧ leaves w) := by
  induction v using Nat.strong_induction_on with
  | _ v ih =>
    by_cases hvt : v = t
    · exact ⟨v, .refl, .inl hvt⟩
    · by_cases hbelow : Below children v t
      · exact h.reaches_down hroutes hv hbelow
      · have hne : v ≠ 0 := by
          rintro rfl
          exact hbelow (h.below_zero ht (Ne.symm hvt))
        rcases hroutes v hv hvt with ⟨c, hc, hct, -⟩ | ⟨-, hhop | hhop⟩ | hleaves
        · exact absurd (below_iff.2 ⟨c, hc, hct.imp_left Eq.symm⟩) hbelow
        · obtain ⟨w, hvw, hw⟩ := ih _ (h.parent_lt hv hne) (h.parent_live hv hne)
          exact ⟨w, .head hhop hvw, hw⟩
        · exact ⟨t, .single hhop, .inl rfl⟩
        · exact ⟨v, .refl, .inr ⟨hv, hleaves⟩⟩

end

end LiveTree

/-- The views of the live nodes are those of one tree with the root `0`. -/
structure SpanningLive (live : ℕ → Prop) (view : ℕ → NodeView) : Prop where
  next_live : ∀ {p c : ℕ}, live p → c ∈ (view p).next → live c
  nodup : ∀ {p : ℕ}, live p → (view p).next.Nodup
  root_not_mem : ∀ {p : ℕ}, live p → 0 ∉ (view p).next
  agree : ∀ {p c : ℕ}, live p → live c → c ≠ 0 → (c ∈ (view p).next ↔ (view c).prev = p)
  reaches : ∀ {c : ℕ}, live c → ReflTransGen (fun a b : ℕ => a ≠ 0 ∧ live b ∧ (view a).prev = b) c 0

theorem LiveTree.spanningLive {live : ℕ → Prop} {parent : ℕ → ℕ} {children : ℕ → List ℕ}
    (h : LiveTree live parent children) {view : ℕ → NodeView}
    (hnext : ∀ v, live v → (view v).next = children v)
    (hprev : ∀ v, live v → v ≠ 0 → (view v).prev = parent v)
    (hnodup : ∀ v, live v → (children v).Nodup) : SpanningLive live view where
  next_live hp hc := h.child_live hp (hnext _ hp ▸ hc)
  nodup hp := by rw [hnext _ hp]; exact hnodup _ hp
  root_not_mem hp hzero := by
    rw [hnext _ hp, h.mem hp] at hzero
    exact hzero.1 rfl
  agree hp hc hne := by
    rw [hnext _ hp, h.mem hp, hprev _ hc hne, Nat.cast_inj]
    exact ⟨fun hc' => hc'.2.2, fun heq => ⟨hne, hc, heq⟩⟩
  reaches {c} hc := by
    induction c using Nat.strong_induction_on with
    | _ c ih =>
      by_cases hzero : c = 0
      · rw [hzero]
      · have hlive := h.parent_live hc hzero
        exact .head ⟨hzero, hlive, hprev c hc hzero⟩ (ih _ (h.parent_lt hc hzero) hlive)

end Ulfm
