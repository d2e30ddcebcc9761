import Mathlib.Data.Multiset.AddSub
import Mathlib.Algebra.Order.BigOperators.Group.List
import Mathlib.Algebra.Order.Group.Nat
import Mathlib.Algebra.Order.Ring.Int

/-!
# Flooding a graph

A vertex that takes the token for the first time sends a copy to each of its
peers; a copy that comes to a vertex with the token has no effect. Vertices may
die at any time, and copies from or to dead vertices may get lost; a dying vertex
that has sent only some of its copies is one whose other copies are lost.

The invariant says where the token still has to go: from a live vertex with the
token, each peer is dead, or has the token, or has a copy on its way. Once no copy
is on its way, the live vertices with the token are closed under live peers. Every
vertex takes the token at most once, which bounds the copies that are ever sent.
-/

namespace Ulfm

open List

variable {V : Type*}

/-- The vertices that have taken the token, the last one first, the dead vertices,
the copies on their way and the number of copies that have arrived. -/
structure Flood (V : Type*) where
  marks : List V
  dead : Set V
  wire : Multiset (V × V)
  taken : ℕ

namespace Flood

variable {peers : V → List V} {f g : Flood V}

/-- The copies that the vertices with the token have sent at most. -/
def budget (peers : V → List V) (f : Flood V) : ℕ := (f.marks.map fun v => (peers v).length).sum

structure Spreading (peers : V → List V) (f : Flood V) : Prop where
  nodup : f.marks.Nodup
  covered : ∀ v ∈ f.marks, v ∉ f.dead → ∀ u ∈ peers v, u ∈ f.dead ∨ u ∈ f.marks ∨ (v, u) ∈ f.wire
  counted : f.wire.card + f.taken ≤ f.budget peers

theorem Spreading.mark (h : Spreading peers f) {v : V} {sent : List V} (hv : v ∉ f.marks)
    (hsent : sent.Sublist (peers v)) (hlive : ∀ u ∈ peers v, u ∉ f.dead → u ∈ sent) :
    Spreading peers { f with
      marks := v :: f.marks
      wire := f.wire + Multiset.ofList (sent.map fun u => (v, u)) } where
  nodup := nodup_cons.mpr ⟨hv, h.nodup⟩
  covered x hx hxd u hu := by
    by_cases hdead : u ∈ f.dead
    · exact .inl hdead
    rcases mem_cons.mp hx with rfl | hx
    · refine .inr (.inr (Multiset.mem_add.mpr (.inr (Multiset.mem_coe.mpr ?_))))
      exact mem_map.mpr ⟨u, hlive u hu hdead, rfl⟩
    · rcases h.covered x hx hxd u hu with hu | hu | hu
      · exact .inl hu
      · exact .inr (.inl (mem_cons_of_mem v hu))
      · exact .inr (.inr (Multiset.mem_add.mpr (.inl hu)))
  counted := by
    have hle := hsent.length_le
    have hcount := h.counted
    simp only [budget, Multiset.card_add, Multiset.coe_card, length_map, map_cons,
      sum_cons] at hcount ⊢
    omega

theorem Spreading.crash (h : Spreading peers f) (v : V) :
    Spreading peers { f with dead := insert v f.dead } where
  nodup := h.nodup
  covered x hx hxd u hu := by
    rcases h.covered x hx (fun hd => hxd (Set.mem_insert_of_mem v hd)) u hu with hu | hu
    · exact .inl (Set.mem_insert_of_mem v hu)
    · exact .inr hu
  counted := h.counted

/-- Nothing is on its way between live vertices. -/
def Quiet (f : Flood V) : Prop := ∀ c ∈ f.wire, c.1 ∈ f.dead ∨ c.2 ∈ f.dead

theorem Spreading.closed (h : Spreading peers f) (hquiet : f.Quiet) {v u : V}
    (hv : v ∈ f.marks) (hvd : v ∉ f.dead) (hu : u ∈ peers v) : u ∈ f.dead ∨ u ∈ f.marks := by
  rcases h.covered v hv hvd u hu with hu | hu | hu
  · exact .inl hu
  · exact .inr hu
  · exact .inl ((hquiet _ hu).resolve_left hvd)

theorem Spreading.taken_le (h : Spreading peers f) {s : List V} {m : ℕ}
    (hs : f.marks ⊆ s) (hm : ∀ v ∈ f.marks, (peers v).length ≤ m) :
    f.taken ≤ s.length * m := by
  have hlen : f.marks.length ≤ s.length := (subperm_of_subset h.nodup hs).length_le
  have hsum : f.budget peers ≤ f.marks.length * m := by
    have := sum_le_card_nsmul (f.marks.map fun v => (peers v).length) m (by simpa using hm)
    simpa [budget] using this
  have hcount := h.counted
  have hmul := Nat.mul_le_mul_right m hlen
  omega

variable [DecidableEq V]

/-- The steps of the flood along `peers`. -/
inductive Step (peers : V → List V) : Flood V → Flood V → Prop where
  | mark (f : Flood V) (v : V) (sent : List V) (hv : v ∉ f.marks)
      (hsent : sent.Sublist (peers v)) (hlive : ∀ u ∈ peers v, u ∉ f.dead → u ∈ sent) :
      Step peers f { f with
        marks := v :: f.marks
        wire := f.wire + Multiset.ofList (sent.map fun u => (v, u)) }
  | take (f : Flood V) (c : V × V) (hc : c ∈ f.wire) (hmark : c.2 ∈ f.marks) :
      Step peers f { f with wire := f.wire.erase c, taken := f.taken + 1 }
  | drop (f : Flood V) (c : V × V) (hdead : c.1 ∈ f.dead ∨ c.2 ∈ f.dead) :
      Step peers f { f with wire := f.wire.erase c }
  | crash (f : Flood V) (v : V) : Step peers f { f with dead := insert v f.dead }

theorem Spreading.erase (h : Spreading peers f) {c : V × V} {n : ℕ}
    (hc : c.1 ∈ f.dead ∨ c.2 ∈ f.dead ∨ c.2 ∈ f.marks)
    (hcount : (f.wire.erase c).card + n ≤ f.budget peers) :
    Spreading peers { f with wire := f.wire.erase c, taken := n } where
  nodup := h.nodup
  covered v hv hvd u hu := by
    rcases h.covered v hv hvd u hu with hu | hu | hu
    · exact .inl hu
    · exact .inr (.inl hu)
    · by_cases heq : (v, u) = c
      · subst heq
        rcases hc with hc | hc | hc
        · exact absurd hc hvd
        · exact .inl hc
        · exact .inr (.inl hc)
      · exact .inr (.inr ((Multiset.mem_erase_of_ne heq).mpr hu))
  counted := hcount

theorem Spreading.step (h : Spreading peers f) (hstep : Step peers f g) : Spreading peers g := by
  cases hstep with
  | mark v sent hv hsent hlive => exact h.mark hv hsent hlive
  | take c hc hmark =>
    refine h.erase (.inr (.inr hmark)) ?_
    have hcount := h.counted
    have hcard := Multiset.card_erase_add_one hc
    omega
  | drop c hdead =>
    refine h.erase (n := f.taken) (hdead.imp_right .inl) ?_
    have hcount := h.counted
    have hcard := Multiset.card_erase_le (a := c) (s := f.wire)
    omega
  | crash v => exact h.crash v

theorem Spreading.run (h : Spreading peers f) (hrun : Relation.ReflTransGen (Step peers) f g) :
    Spreading peers g := by
  induction hrun with
  | refl => exact h
  | tail _ hstep ih => exact ih.step hstep

end Flood

end Ulfm
