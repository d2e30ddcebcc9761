import Mathlib.Algebra.Ring.GeomSum
import Mathlib.Data.List.TakeWhile
import Mathlib.Algebra.Order.BigOperators.Group.Finset
import Ulfm.Tuned.Topology

/-!
# The tree with a fixed fanout

A level of the tree holds `fanout` times as many nodes as the one before. The children of
a node are those of the next level that are a multiple of the width of its own level away.
-/

namespace Ulfm

open List Option Nat

variable {fanout n L M v p c : ℕ}

def levelStart (fanout L : ℕ) : ℕ := ∑ i ∈ Finset.range L, fanout ^ i

@[simp]
theorem levelStart_zero : levelStart fanout 0 = 0 := Finset.sum_range_zero _

theorem levelStart_succ : levelStart fanout (L + 1) = levelStart fanout L + fanout ^ L :=
  Finset.sum_range_succ _ _

theorem levelStart_mono : Monotone (levelStart fanout) :=
  monotone_nat_of_le_succ fun L => by
    rw [levelStart_succ]
    exact Nat.le_add_right _ _

theorem le_levelStart (hf : 1 ≤ fanout) (L : ℕ) : L ≤ levelStart fanout L := by
  induction L with
  | zero => exact Nat.zero_le _
  | succ L ih =>
    have hpow : 1 ≤ fanout ^ L := one_le_pow _ _ hf
    rw [levelStart_succ]
    exact Nat.add_le_add ih hpow

def OnLevel (fanout L v : ℕ) : Prop := levelStart fanout L ≤ v ∧ v < levelStart fanout (L + 1)

theorem OnLevel.unique (h : OnLevel fanout L v) (h' : OnLevel fanout M v) : L = M := by
  by_contra hne
  rcases lt_or_gt_of_ne hne with hlt | hlt
  · exact absurd (h.2.trans_le (levelStart_mono hlt)) h'.1.not_gt
  · exact absurd (h'.2.trans_le (levelStart_mono hlt)) h.1.not_gt

def karyLevel (fanout v : ℕ) : ℕ := findGreatest (levelStart fanout · ≤ v) v

theorem onLevel_karyLevel (hf : 1 ≤ fanout) (v : ℕ) : OnLevel fanout (karyLevel fanout v) v := by
  refine ⟨findGreatest_spec (P := (levelStart fanout · ≤ v)) (Nat.zero_le v) ?_, ?_⟩
  · rw [levelStart_zero]
    exact Nat.zero_le v
  · by_contra hle
    have hlevel : karyLevel fanout v + 1 ≤ v := (le_levelStart hf _).trans (not_lt.1 hle)
    exact findGreatest_is_greatest (P := (levelStart fanout · ≤ v)) (lt_succ_self _) hlevel
      (not_lt.1 hle)

theorem karyLevel_eq (hf : 1 ≤ fanout) (h : OnLevel fanout L v) : karyLevel fanout v = L :=
  (onLevel_karyLevel hf v).unique h

section Ints

variable (hf : 1 ≤ fanout) (hmax : fanout ≤ maxTreeFanout)
include hf

theorem foldlM_asInt (num : ℕ) :
    (List.range num).foldlM (fun p _ => asInt (p * fanout)) 1 = asInt (fanout ^ num) := by
  induction num with
  | zero => rfl
  | succ num ih =>
    rw [range_succ, foldlM_append, ih]
    by_cases hint : fanout ^ num < 2 ^ 31
    · rw [asInt_of_lt hint, pow_succ, bind_eq_bind, bind_some, foldlM_cons]
      exact bind_pure _
    · have hle : fanout ^ num ≤ fanout ^ (num + 1) := Nat.pow_le_pow_right hf (le_succ num)
      rw [asInt_of_ge (not_lt.1 hint), asInt_of_ge ((not_lt.1 hint).trans hle)]
      rfl

include hmax

theorem pown_eq (num : ℕ) : pown fanout num = asInt (fanout ^ num) := by
  rw [maxTreeFanout] at hmax
  rw [pown]
  split_ifs with h₁ h₂
  · rw [h₁, pow_one, asInt_of_lt (by omega)]
  · rw [h₂, one_shiftLeft]
  · exact foldlM_asInt hf num

theorem calculateLevelLoop_eq (h : OnLevel fanout L v) {fuel level : ℕ}
    (hfuel : v + 2 ≤ fuel + level) (hlevel : level ≤ L + 1)
    (hint : levelStart fanout level < 2 ^ 31) :
    calculateLevelLoop fanout v fuel level (levelStart fanout level) =
      if levelStart fanout (L + 1) < 2 ^ 31 then some (L + 1) else none := by
  have hL := (le_levelStart hf L).trans h.1
  induction fuel generalizing level with
  | zero => omega
  | succ fuel ih =>
    rw [calculateLevelLoop]
    rcases Nat.lt_or_ge L level with hgt | hle
    · obtain rfl : level = L + 1 := by omega
      rw [if_neg h.2.not_ge, if_pos hint]
    · have hnext : levelStart fanout (level + 1) ≤ levelStart fanout (L + 1) :=
        levelStart_mono (succ_le_succ hle)
      rw [if_pos ((levelStart_mono hle).trans h.1), pown_eq hf hmax]
      by_cases hsum : levelStart fanout (level + 1) < 2 ^ 31
      · have hpow : fanout ^ level < 2 ^ 31 := by
          rw [levelStart_succ] at hsum
          omega
        rw [asInt_of_lt hpow, bind_eq_bind, bind_some, ← levelStart_succ, asInt_of_lt hsum,
          bind_some]
        exact ih (by omega) (by omega) hsum
      · rw [if_neg fun hlt => hsum (hnext.trans_lt hlt)]
        by_cases hpow : fanout ^ level < 2 ^ 31
        · rw [asInt_of_lt hpow, bind_eq_bind, bind_some, ← levelStart_succ,
            asInt_of_ge (not_lt.1 hsum)]
          rfl
        · rw [asInt_of_ge (not_lt.1 hpow)]
          rfl

theorem calculateLevel_eq (v : ℕ) : calculateLevel fanout v =
    if levelStart fanout (karyLevel fanout v + 1) < 2 ^ 31 then some (karyLevel fanout v)
    else none := by
  have hstart : levelStart fanout 0 < 2 ^ 31 := by
    rw [levelStart_zero]
    exact Nat.two_pow_pos 31
  have hloop := calculateLevelLoop_eq hf hmax (onLevel_karyLevel hf v) (le_refl (v + 2 + 0))
    (Nat.zero_le _) hstart
  rw [levelStart_zero] at hloop
  rw [calculateLevel, hloop]
  split_ifs <;> rfl

end Ints

theorem calculateNumNodesUpToLevel_eq (hf : 2 ≤ fanout) (hmax : fanout ≤ maxTreeFanout)
    (hint : fanout ^ L < 2 ^ 31) :
    calculateNumNodesUpToLevel fanout L = some (levelStart fanout L) := by
  rw [calculateNumNodesUpToLevel, if_neg (by omega), pown_eq (by omega) hmax, asInt_of_lt hint,
    map_some, levelStart, geomSum_eq hf]

theorem findParentLoop_eq {base step fuel s : ℕ} (hstep : 0 < step) (hs : base ≤ s)
    (hfuel : s < fuel) :
    findParentLoop (base + step) step fuel s = some (base + (s - base) % step) := by
  induction fuel generalizing s with
  | zero => exact absurd hfuel (Nat.not_lt_zero s)
  | succ fuel ih =>
    rw [findParentLoop]
    split_ifs with h
    · rw [ih (by omega) (by omega), Nat.sub_right_comm, ← mod_eq_sub_mod (by omega)]
    · rw [mod_eq_of_lt (by omega), Nat.add_sub_cancel' hs]

def karyParent (fanout v : ℕ) : ℕ :=
  let M := karyLevel fanout v - 1
  levelStart fanout M + (v - levelStart fanout M) % fanout ^ M

def karyChildren (fanout n v : ℕ) : List ℕ :=
  ((range fanout).map fun i =>
    v + fanout ^ karyLevel fanout v * (i + 1)).takeWhile (· < n)

theorem karyParent_eq (hf : 1 ≤ fanout) (h : OnLevel fanout (M + 1) c) :
    karyParent fanout c = levelStart fanout M + (c - levelStart fanout M) % fanout ^ M := by
  rw [karyParent, karyLevel_eq hf h, Nat.add_sub_cancel]

theorem onLevel_karyParent (hf : 1 ≤ fanout) (h : OnLevel fanout (M + 1) c) :
    OnLevel fanout M (karyParent fanout c) := by
  have hpow : 0 < fanout ^ M := Nat.pow_pos hf
  rw [karyParent_eq hf h, OnLevel, levelStart_succ]
  exact ⟨Nat.le_add_right _ _, Nat.add_lt_add_left (mod_lt _ hpow) _⟩

theorem exists_onLevel_succ (hf : 1 ≤ fanout) (hc : 0 < c) : ∃ M, OnLevel fanout (M + 1) c := by
  have hL := onLevel_karyLevel hf c
  cases hlevel : karyLevel fanout c with
  | zero =>
    have hlt := hL.2
    rw [hlevel, levelStart_succ, levelStart_zero, pow_zero] at hlt
    omega
  | succ M => exact ⟨M, hlevel ▸ hL⟩

theorem karyParent_eq_iff (hf : 1 ≤ fanout) (hp : OnLevel fanout M p) :
    (∃ i < fanout, p + fanout ^ M * (i + 1) = c) ↔ 0 < c ∧ karyParent fanout c = p := by
  have hpow : 0 < fanout ^ M := Nat.pow_pos hf
  constructor
  · rintro ⟨i, hi, rfl⟩
    have hstep : fanout ^ M * (i + 1) ≤ fanout ^ (M + 1) := by
      rw [pow_succ]
      exact Nat.mul_le_mul_left _ hi
    have hle : fanout ^ M ≤ fanout ^ M * (i + 1) := Nat.le_mul_of_pos_right _ (succ_pos i)
    have hlevel : OnLevel fanout (M + 1) (p + fanout ^ M * (i + 1)) := by
      obtain ⟨h₁, h₂⟩ := hp
      rw [OnLevel, levelStart_succ (L := M + 1)]
      exact ⟨levelStart_succ ▸ Nat.add_le_add h₁ hle, Nat.add_lt_add_of_lt_of_le h₂ hstep⟩
    refine ⟨by omega, ?_⟩
    have hlt : p - levelStart fanout M < fanout ^ M := by
      have h₂ := hp.2
      rw [levelStart_succ] at h₂
      omega
    rw [karyParent_eq hf hlevel, Nat.sub_add_comm hp.1, add_mul_mod_self_left,
      mod_eq_of_lt hlt, Nat.add_sub_cancel' hp.1]
  · rintro ⟨hc, rfl⟩
    obtain ⟨M', hM'⟩ := exists_onLevel_succ hf hc
    obtain rfl := (onLevel_karyParent hf hM').unique hp
    rw [karyParent_eq hf hM']
    set s := levelStart fanout M' with hs
    have hge : s + fanout ^ M' ≤ c := levelStart_succ ▸ hM'.1
    have hlt : c - s < fanout ^ M' * (fanout + 1) := by
      have h₂ := hM'.2
      rw [levelStart_succ, levelStart_succ, pow_succ, ← hs] at h₂
      rw [mul_add, mul_one]
      omega
    have hq : 1 ≤ (c - s) / fanout ^ M' := (Nat.one_le_div_iff hpow).2 (by omega)
    have hq' : (c - s) / fanout ^ M' < fanout + 1 := Nat.div_lt_of_lt_mul hlt
    refine ⟨(c - s) / fanout ^ M' - 1, by omega, ?_⟩
    rw [Nat.sub_add_cancel hq, add_assoc, mod_add_div]
    omega

theorem findParent_eq (hf : 1 ≤ fanout) (v : ℕ) :
    findParent fanout (levelStart fanout (karyLevel fanout v)) (fanout ^ karyLevel fanout v) v =
      some (karyParent fanout v) := by
  rw [findParent]
  split_ifs with hlt
  · rcases Nat.eq_zero_or_pos v with h0 | hpos
    · have h : OnLevel fanout 0 v := by
        rw [OnLevel, levelStart_succ, levelStart_zero, pow_zero]
        omega
      rw [karyParent, karyLevel_eq hf h, levelStart_zero, pow_zero, mod_one]
    · have h : OnLevel fanout (0 + 1) v := by
        rw [OnLevel, levelStart_succ, levelStart_succ, levelStart_zero, pow_zero, pow_one]
        omega
      rw [karyParent_eq hf h, levelStart_zero, pow_zero, mod_one]
  · obtain ⟨M, hM⟩ := exists_onLevel_succ hf (show 0 < v by omega)
    have hle : levelStart fanout M ≤ v := (levelStart_mono (le_succ M)).trans hM.1
    rw [karyLevel_eq hf hM, karyParent_eq hf hM, pow_succ, Nat.mul_div_cancel _ hf, levelStart_succ]
    exact findParentLoop_eq (Nat.pow_pos hf) hle (lt_succ_self v)

theorem mem_takeWhile_lt {l : List ℕ} (hl : l.Pairwise (· < ·)) :
    c ∈ l.takeWhile (· < n) ↔ c ∈ l ∧ c < n := by
  induction l with
  | nil => simp
  | cons a l ih =>
    rw [pairwise_cons] at hl
    rw [takeWhile_cons]
    split_ifs with h
    · rw [mem_cons, mem_cons, ih hl.2, or_and_right]
      have ha : c = a ↔ c = a ∧ c < n := by
        rw [iff_self_and]
        rintro rfl
        exact of_decide_eq_true h
      rw [← ha]
    · have hn : n ≤ a := not_lt.1 fun hlt => h (decide_eq_true hlt)
      simp only [not_mem_nil, mem_cons, false_iff, not_and, not_lt]
      rintro (rfl | hmem)
      · exact hn
      · exact hn.trans (hl.1 c hmem).le

theorem pairwise_childs {a d : ℕ} (hd : 0 < d) (k : ℕ) :
    ((range k).map fun i => a + d * (i + 1)).Pairwise (· < ·) := by
  rw [pairwise_map]
  refine pairwise_lt_range.imp fun {i j} hij => ?_
  exact Nat.add_lt_add_left (Nat.mul_lt_mul_of_pos_left (succ_lt_succ hij) hd) _

theorem virtualTree_kary (hf : 1 ≤ fanout) (n : ℕ) :
    VirtualTree n (karyParent fanout) (karyChildren fanout n) where
  parent_lt {c} hc _ := by
    obtain ⟨M, hM⟩ := exists_onLevel_succ hf hc
    exact (onLevel_karyParent hf hM).2.trans_le hM.1
  mem {p c} _ := by
    have hpow : 0 < fanout ^ karyLevel fanout p := Nat.pow_pos hf
    have hiff := karyParent_eq_iff (c := c) hf (onLevel_karyLevel hf p)
    rw [karyChildren, mem_takeWhile_lt (pairwise_childs hpow _), List.mem_map]
    simp only [mem_range]
    rw [hiff]
    tauto
  nodup {p} _ := by
    have hpow : 0 < fanout ^ karyLevel fanout p := Nat.pow_pos hf
    have hpair := (pairwise_childs (a := p) hpow fanout).sublist (takeWhile_sublist (· < n))
    exact hpair.imp fun h => h.ne

section Build

variable {size root delta k : ℕ}

theorem findChildren_eq (hroot : size - 1 + root < 2 ^ 31) (hdelta : size - 1 + delta < 2 ^ 31)
    (hprev : v + delta * c < size) : findChildren size root v delta k c =
      some ((((range' c k).map fun i => v + delta * (i + 1)).takeWhile (· < size)).map
        (rotate size root)) := by
  induction k generalizing c with
  | zero => rfl
  | succ k ih =>
    have hschild : v + delta * (c + 1) < 2 ^ 31 := by
      rw [mul_succ]
      omega
    rw [findChildren, asInt_of_lt hschild, bind_eq_bind, bind_some, range'_succ, map_cons,
      takeWhile_cons]
    by_cases hlt : v + delta * (c + 1) < size
    · rw [if_pos hlt, asInt_of_lt (by omega), if_pos (decide_eq_true hlt), bind_eq_bind,
        bind_some, ih hlt]
      rfl
    · rw [if_neg hlt, if_neg fun h => hlt (of_decide_eq_true h)]
      rfl

/-- The rank of a child is a sum that is no `int`. -/
theorem findChildren_eq_none {i : ℕ} (hi : c ≤ i) (hik : i < c + k)
    (hlt : v + delta * (i + 1) < size) (hge : 2 ^ 31 ≤ v + delta * (i + 1) + root) :
    findChildren size root v delta k c = none := by
  induction k generalizing c with
  | zero => omega
  | succ k ih =>
    rw [findChildren]
    by_cases hschild : v + delta * (c + 1) < 2 ^ 31
    · have hle : v + delta * (c + 1) ≤ v + delta * (i + 1) :=
        Nat.add_le_add_left (Nat.mul_le_mul_left _ (succ_le_succ hi)) v
      rw [asInt_of_lt hschild, bind_eq_bind, bind_some, if_pos (hle.trans_lt hlt)]
      rcases Nat.eq_or_lt_of_le hi with rfl | hlt'
      · rw [asInt_of_ge hge]
        rfl
      · rw [ih hlt' (by omega)]
        cases asInt (v + delta * (c + 1) + root) <;> rfl
    · rw [asInt_of_ge (not_lt.1 hschild)]
      rfl

variable {rank : ℕ}

theorem buildTree_eq (hf : 2 ≤ fanout) (hmax : fanout ≤ maxTreeFanout) (hsize : 2 ≤ size)
    (hroot : root < size) (hrank : rank < size) (hsum : size - 1 + root < 2 ^ 31)
    (hlevels : ∀ l, levelStart fanout l ≤ size - 1 → size - 1 + fanout ^ l < 2 ^ 31) :
    buildTree fanout size root rank = some
      ⟨rotate size root (karyParent fanout (shiftedRank size root rank)),
        (karyChildren fanout size (shiftedRank size root rank)).map (rotate size root)⟩ := by
  have hf' : 1 ≤ fanout := by omega
  have hv := shiftedRank_lt hroot hrank
  set v := shiftedRank size root rank with hvdef
  have honLevel := onLevel_karyLevel hf' v
  set L := karyLevel fanout v with hL
  have hwidth : size - 1 + fanout ^ L < 2 ^ 31 := hlevels L (honLevel.1.trans (by omega))
  have hint : levelStart fanout (L + 1) < 2 ^ 31 := by
    have hle := honLevel.1
    rw [levelStart_succ]
    omega
  have hparent : karyParent fanout v < size := by
    rcases Nat.eq_zero_or_pos v with h0 | hpos
    · have hzero : OnLevel fanout 0 0 := by
        rw [OnLevel, levelStart_succ, levelStart_zero, pow_zero]
        omega
      rw [h0, karyParent, karyLevel_eq hf' hzero, levelStart_zero, pow_zero, mod_one]
      omega
    · exact ((virtualTree_kary hf' size).parent_lt hpos hv).trans hv
  have hfind := findParent_eq hf' v
  rw [← hL] at hfind
  rw [buildTree, if_neg (by omega), if_neg (by omega), if_neg (by omega), ← hvdef]
  simp only [calculateLevel_eq hf' hmax, ← hL, if_pos hint, pown_eq hf' hmax,
    asInt_of_lt (show fanout ^ L < 2 ^ 31 by omega), bind_eq_bind, bind_some,
    findChildren_eq hsum hwidth (show v + fanout ^ L * 0 < size by omega),
    calculateNumNodesUpToLevel_eq hf hmax (show fanout ^ L < 2 ^ 31 by omega),
    hfind, asInt_of_lt (show karyParent fanout v + root < 2 ^ 31 by omega)]
  rw [← range_eq_range', karyChildren, ← hL]
  rfl

theorem buildTree_eq_none (hf : 2 ≤ fanout) (hmax : fanout ≤ maxTreeFanout) (hsize : 2 ≤ size)
    (hv : shiftedRank size root rank = v)
    (hnone : findChildren size root v (fanout ^ karyLevel fanout v) fanout 0 = none) :
    buildTree fanout size root rank = none := by
  rw [buildTree, if_neg (by omega), if_neg (by omega), if_neg (by omega), hv]
  dsimp only
  rw [calculateLevel_eq (by omega) hmax]
  split_ifs
  · rw [bind_eq_bind, bind_some, pown_eq (by omega) hmax]
    by_cases hpow : fanout ^ karyLevel fanout v < 2 ^ 31
    · rw [asInt_of_lt hpow, bind_eq_bind, bind_some, hnone]
      rfl
    · rw [asInt_of_ge (not_lt.1 hpow)]
      rfl
  · rfl

/-- The last process is the child of a process. -/
theorem exists_buildTree_eq_none_of_sum (hf : 2 ≤ fanout) (hmax : fanout ≤ maxTreeFanout)
    (hsize : 2 ≤ size) (hroot : root < size) (hsum : 2 ^ 31 ≤ size - 1 + root) :
    ∃ rank < size, buildTree fanout size root rank = none := by
  have hf' : 1 ≤ fanout := by omega
  have hlast : 0 < size - 1 := by omega
  have hlt : karyParent fanout (size - 1) < size :=
    ((virtualTree_kary hf' size).parent_lt hlast (by omega)).trans (by omega)
  have hchild := (karyParent_eq_iff hf' (onLevel_karyLevel hf' _)).2 ⟨hlast, rfl⟩
  obtain ⟨i, hi, heq⟩ := hchild
  refine ⟨_, rotate_lt (by omega) _, buildTree_eq_none hf hmax hsize
    (shiftedRank_rotate hroot hlt) (findChildren_eq_none (Nat.zero_le i) (by omega) ?_ ?_)⟩
  · rw [heq]
    omega
  · rwa [heq]

/-- The last process looks for a child one level further down. -/
theorem exists_buildTree_eq_none_of_level (hf : 2 ≤ fanout) (hmax : fanout ≤ maxTreeFanout)
    (hsize : 2 ≤ size) (hroot : root < size) {l : ℕ} (hl : levelStart fanout l ≤ size - 1)
    (hlevel : 2 ^ 31 ≤ size - 1 + fanout ^ l) :
    ∃ rank < size, buildTree fanout size root rank = none := by
  have honLevel := onLevel_karyLevel (by omega : 1 ≤ fanout) (size - 1)
  have hle : l ≤ karyLevel fanout (size - 1) := by
    by_contra hlt
    have hmono : levelStart fanout (karyLevel fanout (size - 1) + 1) ≤ levelStart fanout l :=
      levelStart_mono (by omega)
    exact absurd honLevel.2 (hmono.trans hl).not_gt
  have hpow : fanout ^ l ≤ fanout ^ karyLevel fanout (size - 1) :=
    Nat.pow_le_pow_right (by omega) hle
  refine ⟨_, rotate_lt (by omega) _, buildTree_eq_none hf hmax hsize
    (shiftedRank_rotate hroot (show size - 1 < size by omega)) ?_⟩
  obtain ⟨k, rfl⟩ : ∃ k, fanout = k + 1 := ⟨fanout - 1, by omega⟩
  rw [findChildren, asInt_of_ge (by omega)]
  rfl

end Build

end Ulfm
