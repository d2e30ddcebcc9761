import Mathlib.Algebra.Group.Action.Pointwise.Finset
import Mathlib.Algebra.Group.Subgroup.Defs
import Mathlib.Data.Fintype.Powerset
import Mathlib.Data.Prod.Lex

/-!
# Separating sets of symmetric translation graphs

In a finite commutative group `G` with a symmetric set `K` that contains `0`, an
element and its translates by `K` are adjacent. The set `A + K` is `A` with its
neighbours, and `excess K A` counts the neighbours outside of `A`. A *fragment* is
a nonempty set whose neighbourhood is not the whole group: the neighbours of a
fragment separate it from the rest.

An *atom* is a fragment that is smallest among the fragments with the fewest
neighbours. Two translates of an atom are equal or disjoint, so that an atom
around `0` is a subgroup. Therefore a bound on the excess of the subgroups is a
bound on every separating set.
-/

open scoped Pointwise

namespace Ulfm

open Finset

variable {G : Type*} [AddCommGroup G] [DecidableEq G] {K A B : Finset G}

/-- The number of elements next to `A` and not in `A`. -/
def excess (K A : Finset G) : ℕ := (A + K).card - A.card

theorem subset_add_of_zero_mem (hK : 0 ∈ K) (A : Finset G) : A ⊆ A + K := subset_add_left A hK

theorem card_add_eq (hK : 0 ∈ K) (A : Finset G) : (A + K).card = A.card + excess K A := by
  have hle := card_le_card (subset_add_of_zero_mem hK A)
  rw [excess]
  omega

theorem excess_inter_add_excess_union (hK : 0 ∈ K) (A B : Finset G) :
    excess K (A ∩ B) + excess K (A ∪ B) ≤ excess K A + excess K B := by
  have hinter : (A ∩ B + K).card ≤ ((A + K) ∩ (B + K)).card := card_le_card inter_add_subset
  have hunion : A ∪ B + K = (A + K) ∪ (B + K) := union_add
  have hsum := card_union_add_card_inter (A + K) (B + K)
  have hsum' := card_union_add_card_inter A B
  rw [← hunion] at hsum
  rw [card_add_eq hK] at hinter hsum
  rw [card_add_eq hK A, card_add_eq hK B] at hsum
  omega

theorem excess_vadd (g : G) (K A : Finset G) : excess K (g +ᵥ A) = excess K A := by
  rw [excess, excess, vadd_add_assoc, card_vadd_finset, card_vadd_finset]

variable [Fintype G]

/-- A nonempty set with something outside of its neighbourhood. -/
def IsFragment (K A : Finset G) : Prop := A.Nonempty ∧ A + K ≠ Finset.univ

/-- A smallest fragment among those of the least excess. -/
structure IsSeparatingAtom (K A : Finset G) : Prop where
  isFragment : IsFragment K A
  excess_le : ∀ B, IsFragment K B → excess K A ≤ excess K B
  card_le : ∀ B, IsFragment K B → excess K B = excess K A → A.card ≤ B.card

theorem exists_isSeparatingAtom (h : IsFragment K A) : ∃ B, IsSeparatingAtom K B := by
  classical
  -- least in the lexicographic order of excess and size
  let rate : Finset G → ℕ ×ₗ ℕ := fun B => toLex (excess K B, B.card)
  have hne : (Finset.univ.filter (IsFragment K)).Nonempty := ⟨A, mem_filter.mpr ⟨mem_univ A, h⟩⟩
  obtain ⟨B, hB, hmin⟩ := exists_min_image _ rate hne
  have hle : ∀ C, IsFragment K C → rate B ≤ rate C :=
    fun C hC => hmin C (mem_filter.mpr ⟨mem_univ C, hC⟩)
  refine ⟨B, (mem_filter.mp hB).2, fun C hC => ?_, fun C hC heq => ?_⟩
  · rcases Prod.Lex.toLex_le_toLex.mp (hle C hC) with hlt | ⟨heq, -⟩
    · exact hlt.le
    · exact heq.le
  · rcases Prod.Lex.toLex_le_toLex.mp (hle C hC) with hlt | ⟨-, hcard⟩
    · exact absurd heq hlt.ne'
    · exact hcard

theorem isFragment_compl (hneg : ∀ k ∈ K, -k ∈ K) (hK : 0 ∈ K) (h : IsFragment K A) :
    IsFragment K (A + K)ᶜ ∧ excess K (A + K)ᶜ ≤ excess K A := by
  -- nothing beyond the neighbourhood is next to the fragment
  have hsub : (A + K)ᶜ + K ⊆ Aᶜ := by
    intro x hx
    obtain ⟨b, hb, k, hk, rfl⟩ := mem_add.mp hx
    refine mem_compl.mpr fun hA => mem_compl.mp hb ?_
    exact mem_add.mpr ⟨b + k, hA, -k, hneg k hk, by simp⟩
  have hcard := card_le_card hsub
  rw [card_add_eq hK, card_compl, card_compl] at hcard
  have hle := card_le_univ (A + K)
  rw [card_add_eq hK] at hcard hle
  refine ⟨⟨?_, fun huniv => ?_⟩, by omega⟩
  · rw [nonempty_iff_ne_empty]
    exact fun hempty => h.2 (compl_eq_empty_iff _ |>.mp hempty)
  · obtain ⟨a, ha⟩ := h.1
    exact mem_compl.mp (hsub (huniv ▸ mem_univ a)) ha

theorem IsSeparatingAtom.eq_of_inter_nonempty (hneg : ∀ k ∈ K, -k ∈ K) (hK : 0 ∈ K)
    (hA : IsSeparatingAtom K A) (hB : IsSeparatingAtom K B) (h : (A ∩ B).Nonempty) : A = B := by
  have hexc : excess K A = excess K B :=
    le_antisymm (hA.excess_le B hB.isFragment) (hB.excess_le A hA.isFragment)
  have hcard : A.card = B.card :=
    le_antisymm (hA.card_le B hB.isFragment hexc.symm) (hB.card_le A hA.isFragment hexc)
  by_contra hne
  have hlt : (A ∩ B).card < A.card := by
    refine card_lt_card (Finset.ssubset_iff_subset_ne.mpr ⟨inter_subset_left, ?_⟩)
    intro heq
    exact hne (eq_of_subset_of_card_le (inter_eq_left.mp heq) hcard.ge)
  have hfrag : IsFragment K (A ∩ B) := by
    refine ⟨h, fun huniv => hA.isFragment.2 (univ_subset_iff.mp ?_)⟩
    exact huniv ▸ add_subset_add_right inter_subset_left
  -- the intersection is smaller than an atom, so that it has more neighbours
  have hinter : excess K A < excess K (A ∩ B) := by
    refine lt_of_le_of_ne (hA.excess_le _ hfrag) fun heq => ?_
    exact absurd (hA.card_le _ hfrag heq.symm) (Nat.not_le.mpr hlt)
  have hsub := excess_inter_add_excess_union hK A B
  have hunion : A ∪ B + K = Finset.univ := by
    by_contra hnot
    have := hA.excess_le (A ∪ B) ⟨hA.isFragment.1.mono subset_union_left, hnot⟩
    omega
  -- the union leaves no room for the part beyond `A`, which is as large as `A`
  obtain ⟨hcompl, hle⟩ := isFragment_compl hneg hK hA.isFragment
  have heq := le_antisymm hle (hA.excess_le _ hcompl)
  have hbig := hA.card_le _ hcompl heq
  have huniv := card_add_eq hK (A ∪ B)
  rw [hunion, card_univ] at huniv
  have hsum := card_union_add_card_inter A B
  rw [card_compl, card_add_eq hK] at hbig
  have hpos := h.card_pos
  omega

theorem IsFragment.vadd (g : G) (h : IsFragment K A) : IsFragment K (g +ᵥ A) := by
  refine ⟨h.1.vadd_finset, fun huniv => h.2 ?_⟩
  rw [vadd_add_assoc] at huniv
  refine eq_univ_of_card _ ?_
  rw [← card_vadd_finset g, huniv, card_univ]

theorem IsSeparatingAtom.vadd (g : G) (h : IsSeparatingAtom K A) : IsSeparatingAtom K (g +ᵥ A) where
  isFragment := h.isFragment.vadd g
  excess_le B hB := by rw [excess_vadd]; exact h.excess_le B hB
  card_le B hB heq := by
    rw [excess_vadd] at heq
    rw [card_vadd_finset]
    exact h.card_le B hB heq

theorem IsSeparatingAtom.exists_addSubgroup (hneg : ∀ k ∈ K, -k ∈ K) (hK : 0 ∈ K)
    (hA : IsSeparatingAtom K A) (hzero : 0 ∈ A) :
    ∃ H : AddSubgroup G, ∀ x, x ∈ H ↔ x ∈ A := by
  -- the translates by an element of `A`, and back, meet `A`
  have hshift : ∀ a ∈ A, a +ᵥ A = A := by
    intro a ha
    refine IsSeparatingAtom.eq_of_inter_nonempty hneg hK (hA.vadd a) hA ⟨a, ?_⟩
    refine mem_inter.mpr ⟨?_, ha⟩
    exact mem_vadd_finset.mpr ⟨0, hzero, by simp⟩
  have hadd : ∀ a ∈ A, ∀ b ∈ A, a + b ∈ A := by
    intro a ha b hb
    rw [← hshift a ha]
    exact mem_vadd_finset.mpr ⟨b, hb, rfl⟩
  have hnegA : ∀ a ∈ A, -a ∈ A := by
    intro a ha
    rw [← hshift a ha] at hzero
    obtain ⟨b, hb, hab⟩ := mem_vadd_finset.mp hzero
    rwa [neg_eq_of_add_eq_zero_right hab]
  exact ⟨⟨⟨⟨(A : Set G), fun {a b} ha hb => hadd a ha b hb⟩, hzero⟩, fun {a} ha => hnegA a ha⟩,
    fun x => Iff.rfl⟩

theorem le_excess_of_addSubgroup (hneg : ∀ k ∈ K, -k ∈ K) (hK : 0 ∈ K) {m : ℕ}
    (hsub : ∀ (H : AddSubgroup G) (B : Finset G), (∀ x, x ∈ H ↔ x ∈ B) → IsFragment K B →
      m ≤ excess K B) (h : IsFragment K A) : m ≤ excess K A := by
  obtain ⟨B, hB⟩ := exists_isSeparatingAtom h
  obtain ⟨b, hb⟩ := hB.isFragment.1
  have hB' := hB.vadd (-b)
  have hzero : 0 ∈ -b +ᵥ B := mem_vadd_finset.mpr ⟨b, hb, by simp⟩
  obtain ⟨H, hH⟩ := hB'.exists_addSubgroup hneg hK hzero
  exact (hsub H _ hH hB'.isFragment).trans (hB'.excess_le A h)

theorem union_eq_univ_of_card_lt (hK : 0 ∈ K) {m : ℕ}
    (hfrag : ∀ B, IsFragment K B → m ≤ excess K B) {D : Finset G} (hA : A.Nonempty)
    (hclosed : A + K ⊆ A ∪ D) (hD : D.card < m) : A ∪ D = Finset.univ := by
  by_contra hne
  have hA' : IsFragment K A := ⟨hA, fun huniv => hne (univ_subset_iff.mp (huniv ▸ hclosed))⟩
  have hcard := card_le_card hclosed
  have hunion := card_union_le A D
  rw [card_add_eq hK] at hcard
  have := hfrag A hA'
  omega

end Ulfm
