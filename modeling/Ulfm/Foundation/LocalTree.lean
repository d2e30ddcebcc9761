import Mathlib.Data.List.Nodup
import Mathlib.Algebra.Order.Ring.Int

/-!
# Trees that each node knows a part of

The nodes `0, ..., n - 1` each know their parent and their children in a tree. The views
fit together (`SpanningViews`) when a node has a child exactly when the child has it as
its parent, and following the parents leads from every node to the root.

Many trees are laid out for the root `0` and with parents below their children
(`VirtualTree`), and then turned around to another root.
-/

namespace Ulfm

open Relation

/-- What a node knows of a tree. The parent of the root can be anything. -/
structure NodeView where
  prev : ℤ
  next : List ℕ
deriving DecidableEq

/-- The views of all the nodes are those of one tree. -/
structure SpanningViews (n root : ℕ) (view : ℕ → NodeView) : Prop where
  root_lt : root < n
  next_lt : ∀ {p c : ℕ}, p < n → c ∈ (view p).next → c < n
  nodup : ∀ {p : ℕ}, p < n → (view p).next.Nodup
  root_not_mem : ∀ {p : ℕ}, p < n → root ∉ (view p).next
  agree : ∀ {p c : ℕ}, p < n → c < n → c ≠ root → (c ∈ (view p).next ↔ (view c).prev = p)
  reaches : ∀ {c : ℕ}, c < n →
    ReflTransGen (fun a b : ℕ => a ≠ root ∧ b < n ∧ (view a).prev = b) c root

/-- A tree with the root `0` whose parents come before their children. -/
structure VirtualTree (n : ℕ) (parent : ℕ → ℕ) (children : ℕ → List ℕ) : Prop where
  parent_lt : ∀ {c : ℕ}, 0 < c → c < n → parent c < c
  mem : ∀ {p c : ℕ}, p < n → (c ∈ children p ↔ 0 < c ∧ c < n ∧ parent c = p)
  nodup : ∀ {p : ℕ}, p < n → (children p).Nodup

section Rotate

variable {n root : ℕ}

/-- The node at the place `v` of a tree that is turned around to `root`. -/
def rotate (n root v : ℕ) : ℕ := (v + root) % n

/-- The place of a node, computed as in many programs. -/
def shiftedRank (n root rank : ℕ) : ℕ := if rank < root then rank + n - root else rank - root

theorem rotate_lt (hn : 0 < n) (v : ℕ) : rotate n root v < n := Nat.mod_lt _ hn

theorem shiftedRank_lt (hroot : root < n) {r : ℕ} (hr : r < n) : shiftedRank n root r < n := by
  rw [shiftedRank]
  split_ifs
  · omega
  · omega

theorem rotate_of_lt {v : ℕ} (h : v + root < n) : rotate n root v = v + root := Nat.mod_eq_of_lt h

theorem rotate_of_ge {v : ℕ} (hroot : root < n) (hv : v < n) (h : n ≤ v + root) :
    rotate n root v = v + root - n := by
  rw [rotate, Nat.mod_eq_sub_mod h, Nat.mod_eq_of_lt (by omega)]

section

variable (hroot : root < n)
include hroot

theorem shiftedRank_rotate {v : ℕ} (hv : v < n) : shiftedRank n root (rotate n root v) = v := by
  rcases lt_or_ge (v + root) n with h | h
  · rw [rotate_of_lt h, shiftedRank, if_neg (by omega)]
    omega
  · rw [rotate_of_ge hroot hv h, shiftedRank, if_pos (by omega)]
    omega

theorem rotate_shiftedRank {r : ℕ} (hr : r < n) : rotate n root (shiftedRank n root r) = r := by
  rw [shiftedRank]
  split_ifs with h
  · rw [rotate_of_ge hroot (by omega) (by omega)]
    omega
  · rw [rotate_of_lt (by omega)]
    omega

theorem rotate_inj {v v' : ℕ} (hv : v < n) (hv' : v' < n)
    (h : rotate n root v = rotate n root v') : v = v' := by
  rw [← shiftedRank_rotate hroot hv, ← shiftedRank_rotate hroot hv', h]

theorem rotate_zero : rotate n root 0 = root := by
  rw [rotate_of_lt (by omega), Nat.zero_add]

theorem shiftedRank_pos {r : ℕ} (hr : r < n) (hne : r ≠ root) : 0 < shiftedRank n root r := by
  rw [Nat.pos_iff_ne_zero]
  intro h
  refine hne ?_
  rw [← rotate_shiftedRank hroot hr, h, rotate_zero hroot]

theorem rotate_eq_root_iff {v : ℕ} (hv : v < n) : rotate n root v = root ↔ v = 0 := by
  constructor
  · intro h
    exact rotate_inj hroot hv (by omega) (h.trans (rotate_zero hroot).symm)
  · rintro rfl
    exact rotate_zero hroot

end

end Rotate

theorem VirtualTree.spanningViews {n root : ℕ} {parent : ℕ → ℕ} {children : ℕ → List ℕ}
    (h : VirtualTree n parent children) (hroot : root < n) {view : ℕ → NodeView}
    (hnext : ∀ v < n, (view (rotate n root v)).next = (children v).map (rotate n root))
    (hprev : ∀ v < n, v ≠ 0 → (view (rotate n root v)).prev = rotate n root (parent v)) :
    SpanningViews n root view := by
  have hplace : ∀ {r : ℕ}, r < n → ∃ v < n, rotate n root v = r := fun hr =>
    ⟨_, shiftedRank_lt hroot hr, rotate_shiftedRank hroot hr⟩
  have hchild : ∀ {v c : ℕ}, v < n → c < n →
      (rotate n root c ∈ (view (rotate n root v)).next ↔ c ∈ children v) := by
    intro v c hv hc
    rw [hnext v hv, List.mem_map]
    constructor
    · rintro ⟨c', hc', heq⟩
      rwa [← rotate_inj hroot ((h.mem hv).1 hc').2.1 hc heq]
    · exact fun hc' => ⟨c, hc', rfl⟩
  refine ⟨hroot, fun {p c} hp hc => ?_, fun {p} hp => ?_, fun {p} hp hc => ?_,
    fun {p c} hp hc hne => ?_, fun {c} hc => ?_⟩
  · obtain ⟨v, hv, rfl⟩ := hplace hp
    rw [hnext v hv] at hc
    obtain ⟨c', -, rfl⟩ := List.mem_map.1 hc
    exact rotate_lt (by omega) c'
  · obtain ⟨v, hv, rfl⟩ := hplace hp
    rw [hnext v hv]
    refine List.Nodup.map_on (fun a ha b hb hab => ?_) (h.nodup hv)
    exact rotate_inj hroot ((h.mem hv).1 ha).2.1 ((h.mem hv).1 hb).2.1 hab
  · obtain ⟨v, hv, rfl⟩ := hplace hp
    have hzero : 0 ∈ children v := by
      rw [← hchild hv (by omega), rotate_zero hroot]
      exact hc
    exact absurd ((h.mem hv).1 hzero).1 (lt_irrefl 0)
  · obtain ⟨v, hv, rfl⟩ := hplace hp
    obtain ⟨c, hc', rfl⟩ := hplace hc
    have hpos : c ≠ 0 := fun h0 => hne ((rotate_eq_root_iff hroot hc').2 h0)
    have hlt := h.parent_lt (Nat.pos_of_ne_zero hpos) hc'
    rw [hchild hv hc', h.mem hv, hprev c hc' hpos, Nat.cast_inj]
    constructor
    · rintro ⟨-, -, rfl⟩
      rfl
    · exact fun heq => ⟨Nat.pos_of_ne_zero hpos, hc', rotate_inj hroot (by omega) hv heq⟩
  · obtain ⟨v, hv, rfl⟩ := hplace hc
    -- the places go down along the parents
    clear hc
    induction v using Nat.strong_induction_on with
    | _ v ih =>
      rcases Nat.eq_zero_or_pos v with rfl | hpos
      · rw [rotate_zero hroot]
      · have hlt := h.parent_lt hpos hv
        refine ReflTransGen.head ⟨?_, rotate_lt (by omega) _, hprev v hv hpos.ne'⟩
          (ih (parent v) hlt (by omega))
        rw [ne_eq, rotate_eq_root_iff hroot hv]
        exact hpos.ne'

theorem VirtualTree.spanningViews_zero {n : ℕ} {parent : ℕ → ℕ} {children : ℕ → List ℕ}
    (h : VirtualTree n parent children) (hn : 0 < n) {view : ℕ → NodeView}
    (hnext : ∀ v < n, (view v).next = children v)
    (hprev : ∀ v < n, v ≠ 0 → (view v).prev = parent v) : SpanningViews n 0 view := by
  have hself : ∀ v < n, rotate n 0 v = v := fun v hv => rotate_of_lt hv
  refine h.spanningViews hn (fun v hv => ?_) fun v hv hne => ?_
  · have hmap : (children v).map (rotate n 0) = (children v).map id :=
      List.map_congr_left fun c hc => hself c ((h.mem hv).1 hc).2.1
    rw [hself v hv, hnext v hv, hmap, List.map_id]
  · have hlt := h.parent_lt (Nat.pos_of_ne_zero hne) hv
    rw [hself v hv, hself _ (by omega), hprev v hv hne]

end Ulfm
