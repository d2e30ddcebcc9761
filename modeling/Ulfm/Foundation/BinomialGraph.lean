import Ulfm.Foundation.Connectivity
import Mathlib.Data.ZMod.Basic
import Mathlib.GroupTheory.Archimedean
import Mathlib.Algebra.Group.Subgroup.ZPowers.Lemmas

/-!
# Binomial graphs

The binomial graph on `n` vertices joins `x` to `x + 2 ^ i` and to `x - 2 ^ i`
modulo `n`, for the powers `2 ^ i ≤ n / 2`. Its vertices all have
`(binomialOffsets n).card` neighbours, and no fewer vertices than that separate it:
by the results on atoms only subgroups of `ZMod n` have to be considered, and in
the subgroup of the multiples of a divisor `d` the offsets are those of the
binomial graph on `d` vertices, each taken `n / d` times.
-/

open scoped Pointwise

namespace Ulfm

open Finset

/-- The distances `2 ^ i` and `-2 ^ i` modulo `n`, for `2 ^ i ≤ n / 2`. -/
def binomialOffsets (n : ℕ) : Finset ℕ :=
  (Finset.range (Nat.log 2 n)).image (2 ^ ·) ∪
    (Finset.range (Nat.log 2 n)).image (n - 2 ^ ·)

section Offsets

variable {n i o : ℕ}

theorem two_mul_pow_le (h : i < Nat.log 2 n) : 2 * 2 ^ i ≤ n := by
  have hn : n ≠ 0 := by
    rintro rfl
    simp at h
  rw [← Nat.pow_succ']
  exact (Nat.pow_le_pow_right (by decide) h).trans (Nat.pow_log_le_self 2 hn)

theorem mem_binomialOffsets :
    o ∈ binomialOffsets n ↔ ∃ i < Nat.log 2 n, o = 2 ^ i ∨ o = n - 2 ^ i := by
  simp only [binomialOffsets, mem_union, mem_image, mem_range]
  constructor
  · rintro (⟨i, hi, rfl⟩ | ⟨i, hi, rfl⟩)
    · exact ⟨i, hi, .inl rfl⟩
    · exact ⟨i, hi, .inr rfl⟩
  · rintro ⟨i, hi, rfl | rfl⟩
    · exact .inl ⟨i, hi, rfl⟩
    · exact .inr ⟨i, hi, rfl⟩

theorem binomialOffsets_pos (h : o ∈ binomialOffsets n) : 0 < o := by
  obtain ⟨i, hi, rfl | rfl⟩ := mem_binomialOffsets.mp h
  · exact Nat.two_pow_pos i
  · have := two_mul_pow_le hi
    have := Nat.two_pow_pos i
    omega

theorem binomialOffsets_lt (h : o ∈ binomialOffsets n) : o < n := by
  obtain ⟨i, hi, rfl | rfl⟩ := mem_binomialOffsets.mp h
  all_goals
    have := two_mul_pow_le hi
    have := Nat.two_pow_pos i
    omega

theorem sub_mem_binomialOffsets (h : o ∈ binomialOffsets n) : n - o ∈ binomialOffsets n := by
  obtain ⟨i, hi, rfl | rfl⟩ := mem_binomialOffsets.mp h
  · exact mem_binomialOffsets.mpr ⟨i, hi, .inr rfl⟩
  · refine mem_binomialOffsets.mpr ⟨i, hi, .inl ?_⟩
    have := two_mul_pow_le hi
    omega

theorem card_binomialOffsets_le (n : ℕ) : (binomialOffsets n).card ≤ 2 * Nat.log 2 n := by
  refine (card_union_le _ _).trans ?_
  have h₁ := card_image_le (s := range (Nat.log 2 n)) (f := (2 ^ ·))
  have h₂ := card_image_le (s := range (Nat.log 2 n)) (f := (n - 2 ^ ·))
  rw [card_range] at h₁ h₂
  omega

theorem le_card_binomialOffsets (n : ℕ) :
    2 * Nat.log 2 n ≤ (binomialOffsets n).card + if n = 2 ^ Nat.log 2 n then 1 else 0 := by
  obtain ⟨k, hk⟩ : ∃ k, k = Nat.log 2 n := ⟨_, rfl⟩
  rw [binomialOffsets, ← hk]
  have hup : ((range k).image (2 ^ ·)).card = k := by
    rw [card_image_of_injective _ (Nat.pow_right_injective le_rfl), card_range]
  have hdown : ((range k).image (n - 2 ^ ·)).card = k := by
    rw [card_image_of_injOn, card_range]
    intro i hi j hj hij
    have := two_mul_pow_le (hk ▸ mem_range.mp hi)
    have := two_mul_pow_le (hk ▸ mem_range.mp hj)
    have : n - 2 ^ i = n - 2 ^ j := hij
    exact Nat.pow_right_injective le_rfl (show 2 ^ i = 2 ^ j by omega)
  have hmiddle : ∀ x ∈ (range k).image (2 ^ ·) ∩ (range k).image (n - 2 ^ ·),
      n = 2 ^ k ∧ 2 * x = n := by
    intro x hx
    simp only [mem_inter, mem_image, mem_range] at hx
    obtain ⟨⟨i, hi, rfl⟩, j, hj, hij⟩ := hx
    have := two_mul_pow_le (hk ▸ hi)
    have := two_mul_pow_le (hk ▸ hj)
    have heq : 2 * 2 ^ i = n := by omega
    refine ⟨?_, heq⟩
    rw [← Nat.pow_succ'] at heq
    rw [hk, ← heq, Nat.log_pow (by decide)]
  have hinter : ((range k).image (2 ^ ·) ∩ (range k).image (n - 2 ^ ·)).card ≤
      if n = 2 ^ k then 1 else 0 := by
    split_ifs with h
    · refine card_le_one.mpr fun x hx y hy => ?_
      have := (hmiddle x hx).2
      have := (hmiddle y hy).2
      omega
    · rw [Nat.le_zero, card_eq_zero, eq_empty_iff_forall_notMem]
      exact fun x hx => h (hmiddle x hx).1
  have hsum := card_union_add_card_inter ((range k).image (2 ^ ·))
    ((range k).image (n - 2 ^ ·))
  omega

theorem card_binomialOffsets_le_mul {q d : ℕ} (hq : 2 ≤ q) (hd : (binomialOffsets d).card + 1 < d) :
    (binomialOffsets (q * d)).card ≤ q * (binomialOffsets d).card := by
  have hlow := le_card_binomialOffsets d
  have hdj := Nat.lt_pow_succ_log_self (show 1 < 2 by decide) d
  have hql := Nat.lt_pow_succ_log_self (show 1 < 2 by decide) q
  have hlq : Nat.log 2 q + 1 ≤ q := Nat.lt_two_pow_self.trans_le (Nat.pow_log_le_self 2 (by omega))
  have hne : q * d ≠ 0 := Nat.mul_ne_zero (by omega) (by omega)
  refine (card_binomialOffsets_le _).trans ?_
  generalize Nat.log 2 q = l at *
  generalize Nat.log 2 d = j at *
  -- below three powers every residue is an offset
  have hj2 : 2 ≤ j := by
    by_contra hlt
    have hj01 : j = 0 ∨ j = 1 := by omega
    rcases hj01 with h0 | h1
    · rw [h0] at hdj
      omega
    · rw [h1] at hlow hdj
      split_ifs at hlow <;> omega
  split_ifs at hlow with hpow
  · have hlog : Nat.log 2 (q * d) < j + l + 1 := by
      refine Nat.log_lt_of_lt_pow hne ?_
      rw [hpow]
      calc q * 2 ^ j < 2 ^ (l + 1) * 2 ^ j := Nat.mul_lt_mul_of_pos_right hql (Nat.two_pow_pos j)
        _ = 2 ^ (j + l + 1) := by rw [← Nat.pow_add]; congr 1; omega
    have hmul : q * (2 * j - 1) ≤ q * (binomialOffsets d).card := Nat.mul_le_mul_left q (by omega)
    have : 2 * j - 1 + (q - 1) * 3 ≤ q * (2 * j - 1) := by
      obtain ⟨r, rfl⟩ : ∃ r, q = r + 1 := ⟨q - 1, by omega⟩
      have := Nat.mul_le_mul_left r (show 3 ≤ 2 * j - 1 by omega)
      rw [Nat.add_mul]
      omega
    omega
  · have hlog : Nat.log 2 (q * d) < j + l + 2 := by
      refine Nat.log_lt_of_lt_pow hne ?_
      calc q * d < 2 ^ (l + 1) * 2 ^ (j + 1) := Nat.mul_lt_mul'' hql hdj
        _ = 2 ^ (j + l + 2) := by rw [← Nat.pow_add]; congr 1; omega
    have hmul : q * (2 * j) ≤ q * (binomialOffsets d).card := Nat.mul_le_mul_left q (by omega)
    have : 2 * j + (q - 1) * 4 ≤ q * (2 * j) := by
      obtain ⟨r, rfl⟩ : ∃ r, q = r + 1 := ⟨q - 1, by omega⟩
      have := Nat.mul_le_mul_left r (show 4 ≤ 2 * j by omega)
      rw [Nat.add_mul]
      omega
    omega

end Offsets

section Separation

variable {n : ℕ}

/-- The distances of the binomial graph, and `0`. -/
def binomialSteps (n : ℕ) : Finset (ZMod n) :=
  insert 0 ((binomialOffsets n).image fun o : ℕ => (o : ZMod n))

theorem neg_mem_binomialSteps (k : ZMod n) (h : k ∈ binomialSteps n) : -k ∈ binomialSteps n := by
  rcases mem_insert.mp h with rfl | h
  · rw [neg_zero]
    exact h
  · obtain ⟨o, ho, rfl⟩ := mem_image.mp h
    refine mem_insert_of_mem (mem_image.mpr ⟨n - o, sub_mem_binomialOffsets ho, ?_⟩)
    rw [Nat.cast_sub (binomialOffsets_lt ho).le, ZMod.natCast_self, zero_sub]

theorem zero_mem_binomialSteps : (0 : ZMod n) ∈ binomialSteps n := mem_insert_self _ _

theorem exists_forall_mem_iff_dvd [NeZero n] (H : AddSubgroup (ZMod n)) :
    ∃ d, 0 < d ∧ ∀ m : ℕ, (m : ZMod n) ∈ H ↔ d ∣ m := by
  obtain ⟨a, ha⟩ := Int.subgroup_cyclic (H.comap (Int.castAddHom (ZMod n)))
  have hmem : ∀ m : ℕ, (m : ZMod n) ∈ H ↔ a.natAbs ∣ m := by
    intro m
    rw [← Int.natCast_dvd_natCast, Int.natAbs_dvd, ← Int.mem_zmultiples_iff,
      AddSubgroup.zmultiples_eq_closure, ← ha]
    simp
  refine ⟨a.natAbs, Nat.pos_of_ne_zero fun hzero => ?_, hmem⟩
  have hn := (hmem n).mp (by simp [H.zero_mem])
  rw [hzero] at hn
  exact NeZero.ne n (Nat.eq_zero_of_zero_dvd hn)

variable {H : AddSubgroup (ZMod n)} {B : Finset (ZMod n)} {d : ℕ}

theorem injOn_add_residue (hB : ∀ x, x ∈ H ↔ x ∈ B) (hd : ∀ m : ℕ, (m : ZMod n) ∈ H ↔ d ∣ m) :
    Set.InjOn (fun p : ZMod n × ℕ => p.1 + p.2) (B ×ˢ Finset.range d : Finset (ZMod n × ℕ)) := by
  have hres : ∀ h ∈ B, ∀ h' ∈ B, ∀ t t' : ℕ, t' ≤ t → t < d → h + (t : ZMod n) = h' + t' →
      t = t' := by
    intro h hh h' hh' t t' hle hlt heq
    have hmem : ((t - t' : ℕ) : ZMod n) ∈ H := by
      rw [Nat.cast_sub hle, show (t : ZMod n) - t' = h' - h by
        rw [sub_eq_sub_iff_add_eq_add, add_comm, heq, add_comm]]
      exact H.sub_mem ((hB h').mpr hh') ((hB h).mpr hh)
    have := Nat.eq_zero_of_dvd_of_lt ((hd _).mp hmem) (by omega)
    omega
  rintro ⟨h, t⟩ hp ⟨h', t'⟩ hp' heq
  simp only [coe_product, Set.mem_prod, mem_coe, mem_range] at hp hp'
  have ht : t = t' := by
    rcases Nat.le_total t' t with hle | hle
    · exact hres h hp.1 h' hp'.1 t t' hle hp.2 heq
    · exact (hres h' hp'.1 h hp.1 t' t hle hp'.2 heq.symm).symm
  subst ht
  exact Prod.ext (add_right_cancel heq) rfl

variable [NeZero n]

section

variable (hB : ∀ x, x ∈ H ↔ x ∈ B) (hpos : 0 < d) (hd : ∀ m : ℕ, (m : ZMod n) ∈ H ↔ d ∣ m)
include hB hpos hd

theorem card_mul_eq : B.card * d = n := by
  have huniv : (B ×ˢ range d).image (fun p : ZMod n × ℕ => p.1 + p.2) = univ := by
    refine eq_univ_of_forall fun x => mem_image.mpr ⟨(x - (x.val % d : ℕ), x.val % d),
      mem_product.mpr ⟨?_, mem_range.mpr (Nat.mod_lt _ hpos)⟩, by simp⟩
    rw [← hB]
    have hx : x - (x.val % d : ℕ) = ((d * (x.val / d) : ℕ) : ZMod n) := by
      rw [sub_eq_iff_eq_add, ← Nat.cast_add, Nat.div_add_mod, ZMod.natCast_zmod_val]
    rw [hx]
    exact (hd _).mpr (Nat.dvd_mul_right d _)
  have hcard := congrArg card huniv
  rwa [card_image_of_injOn (injOn_add_residue hB hd), card_product,
    card_range, card_univ, ZMod.card] at hcard

theorem card_mul_le : B.card * ((binomialOffsets d).card + 1) ≤ (B + binomialSteps n).card := by
  have hlog : Nat.log 2 d ≤ Nat.log 2 n := by
    refine Nat.log_mono_right (Nat.le_of_dvd (NeZero.pos n) ((hd n).mp ?_))
    simp [H.zero_mem]
  have hsub : insert 0 (binomialOffsets d) ⊆ range d := by
    intro t ht
    rw [mem_range]
    rcases mem_insert.mp ht with rfl | ht
    · exact hpos
    · exact binomialOffsets_lt ht
  have hzero : 0 ∉ binomialOffsets d := fun h => (binomialOffsets_pos h).ne rfl
  have himage : (B ×ˢ insert 0 (binomialOffsets d)).image (fun p : ZMod n × ℕ => p.1 + p.2) ⊆
      B + binomialSteps n := by
    intro x hx
    obtain ⟨⟨h, t⟩, hp, rfl⟩ := mem_image.mp hx
    obtain ⟨hh, ht⟩ := mem_product.mp hp
    rcases mem_insert.mp ht with rfl | ht
    · exact add_mem_add hh (by simp [binomialSteps])
    · obtain ⟨i, hi, rfl | rfl⟩ := mem_binomialOffsets.mp ht
      · refine add_mem_add hh (mem_insert_of_mem (mem_image_of_mem _ ?_))
        exact mem_binomialOffsets.mpr ⟨i, hi.trans_le hlog, .inl rfl⟩
      · -- `h + (d - 2 ^ i)` is `h + d` less the step `2 ^ i`
        have hle : 2 ^ i ≤ d := by
          have := two_mul_pow_le hi
          omega
        have hmem : h + d ∈ B := by
          rw [← hB] at hh ⊢
          exact H.add_mem hh ((hd d).mpr dvd_rfl)
        have hstep : -((2 ^ i : ℕ) : ZMod n) ∈ binomialSteps n := by
          refine neg_mem_binomialSteps _ (mem_insert_of_mem (mem_image_of_mem _ ?_))
          exact mem_binomialOffsets.mpr ⟨i, hi.trans_le hlog, .inl rfl⟩
        refine mem_add.mpr ⟨h + d, hmem, _, hstep, ?_⟩
        simp only [Nat.cast_sub hle]
        ring
  calc B.card * ((binomialOffsets d).card + 1)
      = ((B ×ˢ insert 0 (binomialOffsets d)).image (fun p : ZMod n × ℕ => p.1 + p.2)).card := by
        rw [card_image_of_injOn, card_product, card_insert_of_notMem hzero]
        refine (injOn_add_residue hB hd).mono ?_
        rw [coe_subset]
        exact product_subset_product_right hsub
    _ ≤ (B + binomialSteps n).card := card_le_card himage

end

theorem card_binomialOffsets_le_excess {A : Finset (ZMod n)} (h : IsFragment (binomialSteps n) A) :
    (binomialOffsets n).card ≤ excess (binomialSteps n) A := by
  refine le_excess_of_addSubgroup neg_mem_binomialSteps zero_mem_binomialSteps ?_ h
  intro H B hB hfrag
  obtain ⟨d, hpos, hd⟩ := exists_forall_mem_iff_dvd H
  have hle := card_mul_le hB hpos hd
  have hn := card_mul_eq hB hpos hd
  have hlt : (B + binomialSteps n).card < B.card * d := by
    have hcard := card_lt_card (ssubset_univ_iff.mpr hfrag.2)
    rw [card_univ, ZMod.card] at hcard
    exact hcard.trans_eq hn.symm
  have hoff : (binomialOffsets d).card + 1 < d := Nat.lt_of_mul_lt_mul_left (hle.trans_lt hlt)
  rw [card_add_eq zero_mem_binomialSteps, Nat.mul_succ] at hle
  suffices hmul : (binomialOffsets n).card ≤ B.card * (binomialOffsets d).card by omega
  rcases Nat.lt_or_ge 1 B.card with hbig | hsmall
  · have hmul := card_binomialOffsets_le_mul hbig hoff
    rwa [hn] at hmul
  · have hone : B.card = 1 := le_antisymm hsmall hfrag.1.card_pos
    rw [hone, one_mul] at hn
    rw [hone, one_mul, hn]

theorem binomialGraph_connected {A D : Finset (ZMod n)} (hA : A.Nonempty)
    (hclosed : A + binomialSteps n ⊆ A ∪ D) (hD : D.card < (binomialOffsets n).card) :
    A ∪ D = Finset.univ :=
  union_eq_univ_of_card_lt zero_mem_binomialSteps
    (fun _ h => card_binomialOffsets_le_excess h) hA hclosed hD

end Separation

end Ulfm
