import Mathlib.Data.Nat.Bitwise
import Mathlib.Data.Nat.Size
import Ulfm.Foundation.TreeRouting

/-!
# The binomial tree of the highest bits

The parent of a number is the number without its highest bit. The numbers below `a` are those that
end with the bits of `a`.

When only some of the numbers are live, each of them has a nearest live number above it
(`liveParent`), and these form a tree again (`liveTree_of_next`).
-/

namespace Ulfm

open Nat

variable {a b c m i : ℕ}

def binParent (c : ℕ) : ℕ := c % 2 ^ (c.size - 1)

/-- `m` is `a` or below `a`. -/
def InSubtree (a m : ℕ) : Prop := m % 2 ^ a.size = a

instance (a m : ℕ) : Decidable (InSubtree a m) := inferInstanceAs (Decidable (_ = _))

theorem size_pos (hc : c ≠ 0) : 0 < c.size := Nat.size_pos.2 (Nat.pos_of_ne_zero hc)

theorem size_binParent_lt (hc : c ≠ 0) : (binParent c).size < c.size := by
  have hpos := size_pos hc
  have hle : (binParent c).size ≤ c.size - 1 := size_le.2 (mod_lt _ (Nat.two_pow_pos _))
  omega

theorem binParent_lt (hc : c ≠ 0) : binParent c < c := by
  have hle : 2 ^ (c.size - 1) ≤ c := lt_size.1 (sub_lt (size_pos hc) Nat.one_pos)
  exact (mod_lt _ (Nat.two_pow_pos _)).trans_le hle

namespace InSubtree

theorem refl (a : ℕ) : InSubtree a a := mod_eq_of_lt (lt_size_self a)

theorem zero (m : ℕ) : InSubtree 0 m := by
  rw [InSubtree, size_zero, pow_zero, mod_one]

theorem le (h : InSubtree a m) : a ≤ m := by
  rw [← h]
  exact mod_le _ _

theorem size_le (h : InSubtree a m) : a.size ≤ m.size := size_le_size h.le

theorem trans (h : InSubtree a b) (h' : InSubtree b m) : InSubtree a m := by
  rw [InSubtree, ← mod_mod_of_dvd m (pow_dvd_pow 2 h.size_le), h']
  exact h

theorem size_lt (h : InSubtree a m) (hne : a ≠ m) : a.size < m.size := by
  by_contra hge
  have hlt : m < 2 ^ a.size :=
    (lt_size_self m).trans_le (Nat.pow_le_pow_right Nat.two_pos (not_lt.1 hge))
  rw [InSubtree, mod_eq_of_lt hlt] at h
  exact hne h.symm

theorem antisymm (h : InSubtree a m) (h' : InSubtree m a) : a = m := le_antisymm h.le h'.le

theorem total (h : InSubtree a m) (h' : InSubtree b m) (hle : a.size ≤ b.size) : InSubtree a b := by
  rw [InSubtree, ← h', mod_mod_of_dvd m (pow_dvd_pow 2 hle)]
  exact h

theorem parent_self (c : ℕ) : InSubtree (binParent c) c := by
  by_cases hc : c = 0
  · subst hc
    exact refl 0
  · have hle : (binParent c).size ≤ c.size - 1 := by
      have := size_binParent_lt hc
      omega
    rw [InSubtree, ← mod_mod_of_dvd c (pow_dvd_pow 2 hle)]
    exact mod_eq_of_lt (lt_size_self _)

theorem parent (h : InSubtree a m) (hne : a ≠ m) : InSubtree a (binParent m) := by
  have hlt := h.size_lt hne
  rw [InSubtree, binParent, mod_mod_of_dvd m (pow_dvd_pow 2 (by omega))]
  exact h

theorem exists_child (h : InSubtree a m) (hne : a ≠ m) :
    ∃ c, c ≠ 0 ∧ binParent c = a ∧ InSubtree c m := by
  induction m using Nat.strong_induction_on with
  | _ m ih =>
    have hm : m ≠ 0 := by
      rintro rfl
      exact hne (le_zero.1 h.le)
    have hparent := h.parent hne
    by_cases heq : a = binParent m
    · exact ⟨m, hm, heq.symm, refl m⟩
    · obtain ⟨c, hc, hca, hcm⟩ := ih _ (binParent_lt hm) hparent heq
      exact ⟨c, hc, hca, hcm.trans (parent_self m)⟩

theorem child_unique {c' : ℕ} (hc : c ≠ 0) (hc' : c' ≠ 0) (hparent : binParent c = binParent c')
    (h : InSubtree c m) (h' : InSubtree c' m) : c = c' := by
  wlog hle : c.size ≤ c'.size
  · exact (this hc' hc hparent.symm h' h (by omega)).symm
  by_contra hne
  have hsub : InSubtree c (binParent c') := (total h h' hle).parent hne
  rw [← hparent] at hsub
  exact absurd hsub.le (not_le.2 (binParent_lt hc))

end InSubtree

theorem exists_bit (hc : c ≠ 0) :
    ∃ i, (binParent c).size ≤ i ∧ c.size = i + 1 ∧ c = binParent c + 2 ^ i := by
  have hpos := size_pos hc
  have hlt : c < 2 ^ (c.size - 1 + 1) := by
    rw [Nat.sub_add_cancel hpos]
    exact lt_size_self c
  have hle : 2 ^ (c.size - 1) ≤ c := lt_size.1 (sub_lt hpos Nat.one_pos)
  refine ⟨c.size - 1, le_sub_one_of_lt (size_binParent_lt hc), by omega, ?_⟩
  rw [pow_succ] at hlt
  rw [binParent, mod_eq_sub_mod hle, mod_eq_of_lt (by omega), Nat.sub_add_cancel hle]

theorem size_add_two_pow (h : a.size ≤ i) : (a + 2 ^ i).size = i + 1 := by
  have hlt : a < 2 ^ i := (lt_size_self a).trans_le (Nat.pow_le_pow_right Nat.two_pos h)
  refine le_antisymm (size_le.2 ?_) (lt_size.2 (Nat.le_add_left _ _))
  rw [pow_succ]
  omega

theorem binParent_add_two_pow (h : a.size ≤ i) : binParent (a + 2 ^ i) = a := by
  have hlt : a < 2 ^ i := (lt_size_self a).trans_le (Nat.pow_le_pow_right Nat.two_pos h)
  rw [binParent, size_add_two_pow h, Nat.add_sub_cancel, add_mod_right, mod_eq_of_lt hlt]

section Live

variable {live : ℕ → Prop} [DecidablePred live]

/-- The nearest live number above `c`. -/
def liveParent (live : ℕ → Prop) [DecidablePred live] (c : ℕ) : ℕ :=
  if h : c = 0 then 0
  else if live (binParent c) then binParent c
  else
    have := binParent_lt h
    liveParent live (binParent c)
termination_by c

theorem liveParent_of_live (hc : c ≠ 0) (h : live (binParent c)) :
    liveParent live c = binParent c := by
  rw [liveParent, dif_neg hc, if_pos h]

theorem liveParent_of_dead (hc : c ≠ 0) (h : ¬live (binParent c)) :
    liveParent live c = liveParent live (binParent c) := by
  rw [liveParent, dif_neg hc, if_neg h]

theorem liveParent_spec (hzero : live 0) (hc : c ≠ 0) :
    live (liveParent live c) ∧ InSubtree (liveParent live c) (binParent c) ∧
      ∀ a, live a → InSubtree a c → a ≠ c → InSubtree a (liveParent live c) := by
  induction c using Nat.strong_induction_on with
  | _ c ih =>
    by_cases hlive : live (binParent c)
    · rw [liveParent_of_live hc hlive]
      exact ⟨hlive, .refl _, fun a _ hac hne => hac.parent hne⟩
    · have hparent : binParent c ≠ 0 := fun h => hlive (h ▸ hzero)
      obtain ⟨hlive', hsub, hnear⟩ := ih _ (binParent_lt hc) hparent
      rw [liveParent_of_dead hc hlive]
      refine ⟨hlive', hsub.trans (.parent_self _), fun a ha hac hne => ?_⟩
      refine hnear a ha (hac.parent hne) ?_
      rintro rfl
      exact hlive ha

theorem liveParent_inSubtree (hzero : live 0) (hc : c ≠ 0) : InSubtree (liveParent live c) c :=
  (liveParent_spec hzero hc).2.1.trans (.parent_self c)

theorem liveParent_lt (hzero : live 0) (hc : c ≠ 0) : liveParent live c < c :=
  (liveParent_spec hzero hc).2.1.le.trans_lt (binParent_lt hc)

/-- The live number `c` is below `a`, and there is no other live number in between. -/
def Next (live : ℕ → Prop) (a c : ℕ) : Prop :=
  live c ∧ c ≠ a ∧ InSubtree a c ∧ ∀ b, live b → InSubtree a b → b ≠ a → InSubtree b c → b = c

theorem next_iff (hzero : live 0) (ha : live a) :
    Next live a c ↔ c ≠ 0 ∧ live c ∧ liveParent live c = a := by
  constructor
  · rintro ⟨hc, hne, hac, hnone⟩
    have hc0 : c ≠ 0 := by
      rintro rfl
      exact hne (le_zero.1 hac.le).symm
    obtain ⟨hlive, -, hnear⟩ := liveParent_spec hzero hc0
    refine ⟨hc0, hc, ?_⟩
    by_contra hpa
    have heq := hnone _ hlive (hnear a ha hac hne.symm) hpa (liveParent_inSubtree hzero hc0)
    exact (liveParent_lt hzero hc0).ne heq
  · rintro ⟨hc0, hc, rfl⟩
    refine ⟨hc, (liveParent_lt hzero hc0).ne', liveParent_inSubtree hzero hc0,
      fun b hb hab hne hbc => ?_⟩
    by_contra hbc'
    exact hne (((liveParent_spec hzero hc0).2.2 b hb hbc hbc').antisymm hab)

theorem liveParent_anti {live' : ℕ → Prop} [DecidablePred live'] (hsub : ∀ v, live v → live' v)
    (hzero : live 0) (hc : c ≠ 0) (h : live (liveParent live' c)) :
    liveParent live' c = liveParent live c := by
  obtain ⟨hlive, -, hnear⟩ := liveParent_spec hzero hc
  obtain ⟨-, -, hnear'⟩ := liveParent_spec (hsub 0 hzero) hc
  refine InSubtree.antisymm (hnear _ h (liveParent_inSubtree (hsub 0 hzero) hc)
    (liveParent_lt (hsub 0 hzero) hc).ne) ?_
  exact hnear' _ (hsub _ hlive) (liveParent_inSubtree hzero hc) (liveParent_lt hzero hc).ne

theorem exists_next (hzero : live 0) (ha : live a) (hb : live b) (hne : b ≠ a)
    (hab : InSubtree a b) : ∃ c, Next live a c ∧ InSubtree c b := by
  induction b using Nat.strong_induction_on with
  | _ b ih =>
    have hb0 : b ≠ 0 := by
      rintro rfl
      exact hne (le_zero.1 hab.le).symm
    obtain ⟨hlive, -, hnear⟩ := liveParent_spec hzero hb0
    by_cases heq : liveParent live b = a
    · exact ⟨b, (next_iff hzero ha).2 ⟨hb0, hb, heq⟩, .refl b⟩
    · obtain ⟨c, hc, hcb⟩ := ih _ (liveParent_lt hzero hb0) hlive heq (hnear a ha hab hne.symm)
      exact ⟨c, hc, hcb.trans (liveParent_inSubtree hzero hb0)⟩

theorem Next.anti {live live' : ℕ → Prop} (h : Next live' a c) (hlive : ∀ v, live v → live' v)
    (hc : live c) : Next live a c :=
  ⟨hc, h.2.1, h.2.2.1, fun b hb => h.2.2.2 b (hlive b hb)⟩

variable {children : ℕ → List ℕ}

theorem liveTree_of_next (hzero : live 0)
    (hmem : ∀ a, live a → ∀ c, c ∈ children a ↔ Next live a c) :
    LiveTree live (liveParent live) children where
  live_zero := hzero
  parent_lt _ hne := liveParent_lt hzero hne
  parent_live _ hne := (liveParent_spec hzero hne).1
  mem hp := by rw [hmem _ hp, next_iff hzero hp]

theorem below_iff_inSubtree (hzero : live 0)
    (hmem : ∀ a, live a → ∀ c, c ∈ children a ↔ Next live a c) (ha : live a) :
    Below children a b ↔ live b ∧ b ≠ a ∧ InSubtree a b := by
  have htree := liveTree_of_next hzero hmem
  constructor
  · intro h
    obtain ⟨hb, hlt⟩ := htree.live_of_below ha h
    refine ⟨hb, hlt.ne', ?_⟩
    clear hb hlt
    induction h with
    | single hc => exact ((hmem a ha _).1 hc).2.2.1
    | @tail b c hab hc ih =>
      have hb := (htree.live_of_below ha hab).1
      exact ih.trans ((hmem b hb _).1 hc).2.2.1
  · rintro ⟨hb, hne, hab⟩
    induction b using Nat.strong_induction_on with
    | _ b ih =>
      have hb0 : b ≠ 0 := by
        rintro rfl
        exact hne (le_zero.1 hab.le).symm
      obtain ⟨hlive, -, hnear⟩ := liveParent_spec hzero hb0
      have hchild := htree.child_of_parent hb hb0
      have hap := hnear a ha hab hne.symm
      by_cases heq : liveParent live b = a
      · rw [heq] at hchild
        exact .single hchild
      · exact .tail (ih _ (liveParent_lt hzero hb0) hlive heq hap) hchild

end Live

end Ulfm
