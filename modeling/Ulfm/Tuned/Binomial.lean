import Mathlib.Data.Nat.Factorization.Basic
import Ulfm.Foundation.HighBit
import Ulfm.Foundation.Hypercube
import Ulfm.Tuned.Topology

/-!
# The binomial trees

A child of `v` is `v + 2 ^ j`. In the first tree `2 ^ j` is the highest bit of the child
and in the second one, which is in order, its lowest bit.
-/

namespace Ulfm

open List Nat

variable {n v p c j k g : ℕ}

section Hops

variable {ok : ℕ → Bool}

/-- The nodes `v + 2 ^ j` with `j` out of the given bits. -/
def hops (ok : ℕ → Bool) (n v k g : ℕ) : List ℕ :=
  ((range' k g).filter fun j => ok j && decide (v + 2 ^ j < n)).map fun j => v + 2 ^ j

theorem hops_succ_of_lt (hok : ok k = true) (h : v + 2 ^ k < n) :
    hops ok n v k (g + 1) = (v + 2 ^ k) :: hops ok n v (k + 1) g := by
  have hfilter : (ok k && decide (v + 2 ^ k < n)) = true := by
    rw [hok, decide_eq_true h, Bool.and_self]
  rw [hops, range'_succ, filter_cons, if_pos hfilter, map_cons]
  rfl

theorem hops_succ_of_not_lt (h : ¬v + 2 ^ k < n) :
    hops ok n v k (g + 1) = hops ok n v (k + 1) g := by
  have hfilter : ¬(ok k && decide (v + 2 ^ k < n)) = true := by
    rw [decide_eq_false h, Bool.and_false]
    exact Bool.false_ne_true
  rw [hops, range'_succ, filter_cons, if_neg hfilter]
  rfl

theorem hops_eq_nil (h : ∀ j ≥ k, ok j = true → n ≤ v + 2 ^ j) : hops ok n v k g = [] := by
  rw [hops, map_eq_nil_iff, filter_eq_nil_iff]
  intro j hj hmem
  rw [Bool.and_eq_true, decide_eq_true_iff] at hmem
  exact absurd (h j (mem_range'_1.1 hj).1 hmem.1) hmem.2.not_ge

theorem mem_hops_iff : c ∈ hops ok n v k n ↔ ∃ j ≥ k, ok j = true ∧ c < n ∧ v + 2 ^ j = c := by
  rw [hops, mem_map]
  constructor
  · rintro ⟨j, hj, rfl⟩
    rw [mem_filter, mem_range'_1, Bool.and_eq_true, decide_eq_true_iff] at hj
    exact ⟨j, hj.1.1, hj.2.1, hj.2.2, rfl⟩
  · rintro ⟨j, hk, hok, hlt, rfl⟩
    have hj : j < 2 ^ j := Nat.lt_two_pow_self
    refine ⟨j, ?_, rfl⟩
    rw [mem_filter, mem_range'_1, Bool.and_eq_true, decide_eq_true_iff]
    exact ⟨⟨hk, by omega⟩, hok, hlt⟩

theorem nodup_hops : (hops ok n v k g).Nodup := by
  have hrange : (range' k g).Nodup := nodup_range'
  refine List.Nodup.map (fun i j hij => ?_) (hrange.filter _)
  exact Nat.pow_right_injective (le_refl 2) (Nat.add_left_cancel hij)

end Hops

theorem unshift_eq {size root : ℕ} (hsize : size ≤ 2 ^ 30) (hroot : root < size) (hv : v < size) :
    unshift size root v = some (rotate size root v) := by
  rw [unshift, asInt_of_lt (by omega), Option.map_some]
  split_ifs with h
  · rw [rotate_of_ge hroot hv h]
  · rw [rotate_of_lt (not_le.1 h)]

theorem asInt_two_pow_succ (hj : 2 ^ j < 2 ^ 30) : asInt (2 ^ j <<< 1) = some (2 ^ (j + 1)) := by
  rw [shiftLeft_eq, pow_one, ← pow_succ]
  apply asInt_of_lt
  rw [pow_succ]
  omega

theorem lt_of_two_pow_lt {m : ℕ} (h : 2 ^ j < n) (hn : n ≤ 2 ^ m) : j < m :=
  (Nat.pow_lt_pow_iff_right Nat.one_lt_two).1 (h.trans_le hn)

section Bmtree

theorem nextPowerOfTwo_loop_eq {fuel value power2 : ℕ} (hfuel : value ≤ fuel) :
    nextPowerOfTwo.loop fuel value power2 = power2 * 2 ^ value.size := by
  induction fuel generalizing value power2 with
  | zero =>
    obtain rfl : value = 0 := le_zero.1 hfuel
    rw [nextPowerOfTwo.loop, size_zero, pow_zero, mul_one]
  | succ fuel ih =>
    rw [nextPowerOfTwo.loop]
    split_ifs with h
    · have hhalf : value >>> 1 = value / 2 := shiftRight_one value
      have hsize : value.size = (value / 2).size + 1 := by
        apply eq_of_forall_lt_iff
        intro i
        cases i with
        | zero => simp [Nat.size_pos, h]
        | succ i =>
          rw [lt_size, succ_lt_succ_iff, lt_size, pow_succ, Nat.le_div_iff_mul_le Nat.two_pos]
      rw [ih (by omega), hhalf, hsize, shiftLeft_eq, pow_one, pow_succ']
      exact Nat.mul_assoc _ _ _
    · obtain rfl : value = 0 := Nat.eq_zero_of_not_pos h
      rw [size_zero, pow_zero, mul_one]

theorem nextPowerOfTwo_eq (value : ℕ) : nextPowerOfTwo value = 2 ^ value.size := by
  rw [nextPowerOfTwo, nextPowerOfTwo_loop_eq (le_refl value), one_mul]

/-- The parent in the binomial tree: without the highest bit. -/
def bmParent (v : ℕ) : ℕ := v - 2 ^ (v.size - 1)

def bmChildren (n v : ℕ) : List ℕ := hops (fun _ => true) n v v.size n

theorem bmParent_add_two_pow (h : v.size ≤ j) : bmParent (v + 2 ^ j) = v := by
  rw [bmParent, size_add_two_pow h, Nat.add_sub_cancel, Nat.add_sub_cancel]

theorem exists_eq_add_two_pow (hc : 0 < c) : ∃ j ≥ (bmParent c).size, bmParent c + 2 ^ j = c := by
  obtain ⟨j, hj⟩ : ∃ j, c.size = j + 1 := exists_eq_succ_of_ne_zero (Nat.size_pos.2 hc).ne'
  have hle : 2 ^ j ≤ c := lt_size.1 (by omega)
  have hlt : c < 2 ^ (j + 1) := size_le.1 hj.le
  rw [bmParent, hj, Nat.add_sub_cancel]
  rw [pow_succ] at hlt
  exact ⟨j, size_le.2 (by omega), Nat.sub_add_cancel hle⟩

theorem virtualTree_bm (n : ℕ) : VirtualTree n bmParent (bmChildren n) where
  parent_lt {c} hc _ := sub_lt hc (Nat.two_pow_pos _)
  mem {p c} _ := by
    rw [bmChildren, mem_hops_iff]
    constructor
    · rintro ⟨j, hj, -, hlt, rfl⟩
      have hpos := Nat.two_pow_pos j
      exact ⟨by omega, hlt, bmParent_add_two_pow hj⟩
    · rintro ⟨hc, hlt, rfl⟩
      obtain ⟨j, hj, heq⟩ := exists_eq_add_two_pow hc
      exact ⟨j, hj, rfl, hlt, heq⟩
  nodup _ := nodup_hops

theorem bmtreeChilds_eq {size root : ℕ} (hroot : root < size) (hsize : size ≤ 2 ^ 30)
    {childs : List ℕ} (hj : v.size ≤ j) (hg : size ≤ 2 ^ (j + g)) (hlen : childs.length ≤ j) :
    bmtreeChilds size root v (g + 1) (2 ^ j) childs =
      some (childs ++ (hops (fun _ => true) size v j g).map (rotate size root)) := by
  induction g generalizing j childs with
  | zero =>
    rw [bmtreeChilds, if_neg (by simpa using hg)]
    simp [hops]
  | succ g ih =>
    have hxor : v ^^^ 2 ^ j = v + 2 ^ j := xor_two_pow_of_lt (size_le.1 hj)
    have hnil (h : size ≤ v + 2 ^ j) : hops (fun _ => true) size v j (g + 1) = [] := by
      refine hops_eq_nil fun i hi _ => h.trans (Nat.add_le_add_left ?_ v)
      exact Nat.pow_le_pow_right Nat.two_pos hi
    rw [bmtreeChilds, hxor]
    by_cases hmask : 2 ^ j < size
    · rw [if_pos hmask]
      by_cases hremote : v + 2 ^ j ≥ size
      · rw [if_pos hremote, hnil hremote, map_nil, append_nil]
      · have hlt := lt_of_two_pow_lt hmask hsize
        rw [if_neg hremote, unshift_eq hsize hroot (not_le.1 hremote), Option.bind_eq_bind,
          Option.bind_some,
          if_neg (by rw [maxTreeFanout]; omega), asInt_two_pow_succ (hmask.trans_le hsize),
          Option.bind_some, ih (by omega) (by rwa [Nat.add_right_comm]) (by simpa using hlen),
          hops_succ_of_lt rfl (not_le.1 hremote), append_assoc]
        rfl
    · rw [if_neg hmask, hnil (by omega), map_nil, append_nil]

theorem buildBmtree_eq {size root rank : ℕ} (hroot : root < size) (hrank : rank < size)
    (hsize : size ≤ 2 ^ 30) : ∃ prev : ℤ, buildBmtree size root rank = some
      ⟨prev, (bmChildren size (shiftedRank size root rank)).map (rotate size root)⟩ ∧
      (rank ≠ root → prev = rotate size root (bmParent (shiftedRank size root rank))) := by
  have hv := shiftedRank_lt hroot hrank
  set v := shiftedRank size root rank with hvdef
  have hg : size ≤ 2 ^ (v.size + size) :=
    Nat.lt_two_pow_self.le.trans (Nat.pow_le_pow_right Nat.two_pos (Nat.le_add_left _ _))
  have hnil : ([] : List ℕ).length ≤ v.size := Nat.zero_le _
  have hchilds := bmtreeChilds_eq hroot hsize (le_refl v.size) hg hnil
  have hmask : asInt (2 ^ v.size) = some (2 ^ v.size) := by
    apply asInt_of_lt
    exact Nat.pow_lt_pow_right Nat.one_lt_two (Nat.lt_succ_of_le (size_le.2 (hv.trans_le hsize)))
  rw [nil_append] at hchilds
  rw [buildBmtree, ← hvdef]
  dsimp only
  rw [nextPowerOfTwo_eq, hmask, Option.bind_eq_bind, Option.bind_some, hchilds]
  by_cases hne : rank = root
  · rw [if_pos hne.symm]
    exact ⟨root, rfl, fun h => absurd hne h⟩
  · have hpos : 0 < v := shiftedRank_pos hroot hrank hne
    obtain ⟨j, hj, heq⟩ := exists_eq_add_two_pow hpos
    have hhalf : 2 ^ v.size >>> 1 = 2 ^ j := by
      rw [← heq, size_add_two_pow hj, shiftRight_one, pow_succ, Nat.mul_div_cancel _ Nat.two_pos]
    have hxor : v ^^^ 2 ^ j = bmParent v := by
      have h := xor_two_pow_of_lt (size_le.1 hj)
      rw [heq] at h
      calc
        v ^^^ 2 ^ j = bmParent v ^^^ 2 ^ j ^^^ 2 ^ j := by rw [h]
        _ = bmParent v := xor_xor_cancel_right _ _
    have hparent : bmParent v < size := (sub_le _ _).trans_lt hv
    rw [if_neg fun h => hne h.symm, hhalf, hxor, unshift_eq hsize hroot hparent]
    exact ⟨_, rfl, fun _ => rfl⟩

/-- The mask of a process at a distance of `2 ^ 30` is no `int`. -/
theorem exists_buildBmtree_eq_none {size root : ℕ} (hroot : root < size) (hsize : 2 ^ 30 < size) :
    ∃ rank < size, buildBmtree size root rank = none := by
  refine ⟨rotate size root (2 ^ 30), rotate_lt (by omega) _, ?_⟩
  rw [buildBmtree, shiftedRank_rotate hroot hsize]
  dsimp only
  rw [nextPowerOfTwo_eq, size_pow, asInt_of_ge (le_refl _)]
  rfl

end Bmtree

section InOrder

/-- The parent in the in-order binomial tree: without the lowest bit. -/
def inOrderParent (v : ℕ) : ℕ := v - 2 ^ v.factorization 2

/-- The bits below the lowest one of `v`. -/
def belowLowest (v j : ℕ) : Bool := decide (2 ^ (j + 1) ∣ v)

def inOrderChildren (n v : ℕ) : List ℕ := hops (belowLowest v) n v 0 n

theorem two_pow_dvd_iff (hv : 0 < v) : 2 ^ j ∣ v ↔ j ≤ v.factorization 2 :=
  prime_two.pow_dvd_iff_le_factorization hv.ne'

theorem factorization_add_two_pow (h : 2 ^ (j + 1) ∣ v) : (v + 2 ^ j).factorization 2 = j := by
  have hpos : 0 < v + 2 ^ j := Nat.add_pos_right _ (Nat.two_pow_pos j)
  have hdvd : 2 ^ j ∣ v + 2 ^ j := (Nat.dvd_add_self_right).2 ((pow_dvd_pow 2 (le_succ j)).trans h)
  have hnot : ¬2 ^ (j + 1) ∣ v + 2 ^ j := by
    rw [Nat.dvd_add_right h]
    exact not_dvd_of_pos_of_lt (Nat.two_pow_pos j) (Nat.pow_lt_pow_succ Nat.one_lt_two)
  rw [two_pow_dvd_iff hpos] at hdvd hnot
  omega

theorem two_pow_succ_dvd_inOrderParent (hc : 0 < c) :
    2 ^ (c.factorization 2 + 1) ∣ inOrderParent c ∧
      inOrderParent c + 2 ^ c.factorization 2 = c := by
  set t := c.factorization 2 with ht
  obtain ⟨q, hq⟩ : 2 ^ t ∣ c := (two_pow_dvd_iff hc).2 le_rfl
  have hodd : ¬2 ∣ q := by
    intro hdvd
    have h : 2 ^ (t + 1) ∣ c := by
      rw [hq, pow_succ]
      exact Nat.mul_dvd_mul_left _ hdvd
    rw [two_pow_dvd_iff hc] at h
    omega
  have hle : 2 ^ t ≤ c := le_of_dvd hc ⟨q, hq⟩
  refine ⟨?_, Nat.sub_add_cancel hle⟩
  have hparent : inOrderParent c = 2 ^ t * (q - 1) := by
    rw [inOrderParent, ← ht, Nat.mul_sub, mul_one, ← hq]
  rw [hparent, pow_succ]
  exact Nat.mul_dvd_mul_left _ (by omega)

theorem virtualTree_inOrder (n : ℕ) : VirtualTree n inOrderParent (inOrderChildren n) where
  parent_lt {c} hc _ := sub_lt hc (Nat.two_pow_pos _)
  mem {p c} _ := by
    rw [inOrderChildren, mem_hops_iff]
    constructor
    · rintro ⟨j, -, hj, hlt, rfl⟩
      have hdvd : 2 ^ (j + 1) ∣ p := of_decide_eq_true hj
      refine ⟨Nat.add_pos_right _ (Nat.two_pow_pos j), hlt, ?_⟩
      rw [inOrderParent, factorization_add_two_pow hdvd, Nat.add_sub_cancel]
    · rintro ⟨hc, hlt, rfl⟩
      obtain ⟨hdvd, heq⟩ := two_pow_succ_dvd_inOrderParent hc
      exact ⟨_, Nat.zero_le _, decide_eq_true hdvd, hlt, heq⟩
  nodup _ := nodup_hops

theorem inOrderBmtreeLoop_eq {size root : ℕ} (hsize : size ≤ 2 ^ 30) (hroot : root < size)
    (hv : v < size)
    {childs : List ℕ} {prev : ℤ} (hj : 2 ^ j ∣ v) (hg : size ≤ 2 ^ (j + g))
    (hlen : childs.length ≤ j) :
    inOrderBmtreeLoop size root v (g + 1) (2 ^ j) prev childs =
      some ⟨if v = 0 then prev else rotate size root (inOrderParent v),
        childs ++ (hops (belowLowest v) size v j g).map (rotate size root)⟩ := by
  have hzero (h : size ≤ 2 ^ j) : v = 0 := eq_zero_of_dvd_of_lt hj (hv.trans_le h)
  induction g generalizing j childs with
  | zero =>
    rw [inOrderBmtreeLoop, if_neg (by simpa using hg), if_pos (hzero (by simpa using hg))]
    simp [hops]
  | succ g ih =>
    have hg' : size ≤ 2 ^ (j + 1 + g) := by rwa [Nat.add_right_comm]
    rw [inOrderBmtreeLoop]
    by_cases hmask : 2 ^ j < size
    · rw [if_pos hmask]
      by_cases heven : 2 ^ (j + 1) ∣ v
      · have hxor : v ^^^ 2 ^ j = v + 2 ^ j :=
          xor_two_pow_of_even ((even_div_two_pow_iff hj).2 heven)
        have hzero' (h : size ≤ 2 ^ (j + 1)) : v = 0 := eq_zero_of_dvd_of_lt heven (hv.trans_le h)
        have hlt := lt_of_two_pow_lt hmask hsize
        have hshift := asInt_two_pow_succ (hmask.trans_le hsize)
        rw [hxor, if_neg (by omega)]
        by_cases hremote : v + 2 ^ j < size
        · have hlen' : (childs ++ [(v + 2 ^ j + root) % size]).length ≤ j + 1 := by
            simpa using hlen
          have hmax : ¬(childs ++ [(v + 2 ^ j + root) % size]).length = maxTreeFanout := by
            rw [maxTreeFanout]
            omega
          simp only [if_pos hremote, asInt_of_lt (show v + 2 ^ j + root < 2 ^ 31 by omega),
            Option.bind_eq_bind, Option.bind_some, if_neg hmax, hshift]
          rw [ih heven hg' hlen' hzero', hops_succ_of_lt (decide_eq_true heven) hremote,
            append_assoc]
          rfl
        · simp only [if_neg hremote, Option.bind_eq_bind, Option.bind_some, hshift]
          rw [ih heven hg' (by omega) hzero', hops_succ_of_not_lt hremote]
      · have hodd : Odd (v / 2 ^ j) := by
          rw [← not_even_iff_odd, even_div_two_pow_iff hj]
          exact heven
        have hxor := xor_two_pow_of_odd hodd
        have hpos : 0 < v := Nat.pos_of_ne_zero fun h => heven (h ▸ Nat.dvd_zero _)
        have hpow := Nat.two_pow_pos j
        have hfact : v.factorization 2 = j := by
          rw [two_pow_dvd_iff hpos] at hj heven
          omega
        have hnil : hops (belowLowest v) size v j (g + 1) = [] := by
          refine hops_eq_nil fun i hi hok => absurd ?_ heven
          exact (pow_dvd_pow 2 (succ_le_succ hi)).trans (of_decide_eq_true hok)
        rw [if_pos (by omega), asInt_of_lt (by omega), if_neg hpos.ne', hnil, inOrderParent,
          hfact, map_nil, append_nil, Nat.eq_sub_of_add_eq hxor]
        rfl
    · have hnil : hops (belowLowest v) size v j (g + 1) = [] := by
        refine hops_eq_nil fun i hi _ => ?_
        have hpow : 2 ^ j ≤ 2 ^ i := Nat.pow_le_pow_right Nat.two_pos hi
        omega
      rw [if_neg hmask, if_pos (hzero (not_lt.1 hmask)), hnil, map_nil, append_nil]

theorem vrank_eq {size root rank : ℕ} (hroot : root < size) (hrank : rank < size) :
    (rank + size - root) % size = shiftedRank size root rank := by
  rw [shiftedRank]
  split_ifs with h
  · rw [mod_eq_of_lt (by omega)]
  · rw [mod_eq_sub_mod (by omega), mod_eq_of_lt (by omega)]
    omega

/-- `ompi_coll_tuned_topo_build_in_order_bmtree` computes the parent and the children of a
process; `tree_prev` has been set where it is needed. -/
theorem buildInOrderBmtree_eq {uninitialized : ℤ} {size root rank : ℕ} (hroot : root < size)
    (hrank : rank < size) (hsize : size ≤ 2 ^ 30) :
    ∃ prev : ℤ, buildInOrderBmtree uninitialized size root rank = some
      ⟨prev, (inOrderChildren size (shiftedRank size root rank)).map (rotate size root)⟩ ∧
      (rank ≠ root → prev = rotate size root (inOrderParent (shiftedRank size root rank))) := by
  have hv := shiftedRank_lt hroot hrank
  have hnil : ([] : List ℕ).length ≤ 0 := le_refl 0
  have hg : size ≤ 2 ^ (0 + size) := by
    rw [Nat.zero_add]
    exact Nat.lt_two_pow_self.le
  rw [buildInOrderBmtree, asInt_of_lt (by omega), Option.bind_eq_bind, Option.bind_some,
    vrank_eq hroot hrank]
  refine ⟨_, inOrderBmtreeLoop_eq hsize hroot hv (one_dvd _) hg hnil, fun hne => ?_⟩
  rw [if_neg (shiftedRank_pos hroot hrank hne).ne']

/-- The mask of the root becomes `2 ^ 31` when there are more than `2 ^ 30` processes. -/
theorem inOrderBmtreeLoop_eq_none {size root fuel : ℕ} (hsize : 2 ^ 30 < size) (hj : j ≤ 30)
    {prev : ℤ} {childs : List ℕ} :
    inOrderBmtreeLoop size root 0 fuel (2 ^ j) prev childs = none := by
  induction fuel generalizing j childs with
  | zero => rfl
  | succ fuel ih =>
    have hmask : 2 ^ j < size := (Nat.pow_le_pow_right Nat.two_pos hj).trans_lt hsize
    have hnext : ∀ childs, ((asInt (2 ^ j <<< 1)).bind fun mask =>
        inOrderBmtreeLoop size root 0 fuel mask prev childs) = none := by
      intro childs
      rcases Nat.eq_or_lt_of_le hj with rfl | hlt
      · rfl
      · rw [asInt_two_pow_succ (Nat.pow_lt_pow_right Nat.one_lt_two hlt), Option.bind_some]
        exact ih hlt
    rw [inOrderBmtreeLoop, if_pos hmask, Nat.zero_xor, if_neg (Nat.not_lt_zero _), if_pos hmask]
    simp only [Option.bind_eq_bind, hnext]
    cases asInt (2 ^ j + root) with
    | none => rfl
    | some remote =>
      rw [Option.bind_some]
      split_ifs <;> rfl

theorem buildInOrderBmtree_eq_none {size root : ℕ} (uninitialized : ℤ) (hsize : 2 ^ 30 < size) :
    buildInOrderBmtree uninitialized size root root = none := by
  have hzero : (root + size - root) % size = 0 := by
    rw [Nat.add_sub_cancel_left, mod_self]
  rw [buildInOrderBmtree]
  cases hvrank : asInt (root + size - root) with
  | none => rfl
  | some vrank =>
    have hle : vrank = root + size - root := by
      rw [asInt] at hvrank
      split_ifs at hvrank
      exact (Option.some.inj hvrank).symm
    rw [Option.bind_eq_bind, Option.bind_some, hle, hzero]
    exact inOrderBmtreeLoop_eq_none hsize (Nat.zero_le 30)

end InOrder

end Ulfm
