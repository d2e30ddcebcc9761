import Ulfm.Tuned.Topology

/-!
# The chains

The nodes behind the root are cut into chains. The first chains are longer by one node
than the others unless all of them have the same length.
-/

namespace Ulfm

open List Nat

variable {n fanout m mark i v p c : ℕ}

/-- Chains of the length `m`, from the chain `mark` on of the length `m - 1`. -/
inductive ChainLayout (n fanout m mark : ℕ) : Prop where
  | uneven (hm : 2 ≤ m) (hmark : mark < fanout) (hn : n = 1 + mark * m + (fanout - mark) * (m - 1))
  | even (hm : 1 ≤ m) (hmark : fanout < mark) (hn : n = 1 + fanout * m)

def chainHead (m mark i : ℕ) : ℕ :=
  if i ≤ mark then 1 + i * m else 1 + mark * m + (i - mark) * (m - 1)

/-- The node is the first one of its chain. -/
def IsHead (m mark c : ℕ) : Prop := if c - 1 < mark * m then m ∣ c - 1 else m - 1 ∣ c - 1 - mark * m

instance : Decidable (IsHead m mark c) := inferInstanceAs (Decidable (ite _ _ _))

def chainParent (m mark c : ℕ) : ℕ := if IsHead m mark c then 0 else c - 1

def chainChildren (n fanout m mark v : ℕ) : List ℕ :=
  if v = 0 then (range fanout).map (chainHead m mark)
  else if v + 1 < n ∧ ¬IsHead m mark (v + 1) then [v + 1] else []

theorem isHead_one : IsHead m mark 1 := by
  rw [IsHead]
  split_ifs
  · exact Nat.dvd_zero _
  · rw [Nat.sub_self, Nat.zero_sub]
    exact Nat.dvd_zero _

theorem chainHead_of_le (h : i ≤ mark) : chainHead m mark i = 1 + i * m := if_pos h

theorem chainHead_of_gt (h : mark < i) :
    chainHead m mark i = 1 + mark * m + (i - mark) * (m - 1) := if_neg h.not_ge

theorem chainHead_pos : 0 < chainHead m mark i := by
  rw [chainHead]
  split_ifs <;> omega

theorem chainHead_succ (i : ℕ) :
    chainHead m mark (i + 1) = chainHead m mark i + if i + 1 > mark then m - 1 else m := by
  rcases lt_trichotomy i mark with h | rfl | h
  · rw [chainHead_of_le h, chainHead_of_le h.le, if_neg (by omega), succ_mul]
    omega
  · rw [chainHead_of_gt (lt_succ_self i), chainHead_of_le (le_refl i), if_pos (by omega),
      succ_eq_add_one, Nat.add_sub_cancel_left, one_mul]
  · rw [chainHead_of_gt (by omega), chainHead_of_gt h, if_pos (by omega), Nat.sub_add_comm h.le,
      succ_mul]
    omega

theorem isHead_chainHead (h : 1 ≤ m) : IsHead m mark (chainHead m mark i) := by
  rcases lt_or_ge i mark with hlt | hge
  · have hmul : i * m < mark * m := Nat.mul_lt_mul_of_pos_right hlt h
    rw [chainHead_of_le hlt.le, IsHead, Nat.add_sub_cancel_left, if_pos hmul]
    exact Nat.dvd_mul_left _ _
  · have heq : chainHead m mark i = 1 + mark * m + (i - mark) * (m - 1) := by
      rcases Nat.eq_or_lt_of_le hge with rfl | hgt
      · rw [chainHead_of_le (le_refl _), Nat.sub_self, Nat.zero_mul, Nat.add_zero]
      · exact chainHead_of_gt hgt
    rw [heq, IsHead, Nat.add_assoc, Nat.add_sub_cancel_left, if_neg (by omega),
      Nat.add_sub_cancel_left]
    exact Nat.dvd_mul_left _ _

namespace ChainLayout

section

variable (h : ChainLayout n fanout m mark)
include h

theorem one_le : 1 ≤ m := by
  cases h <;> omega

theorem chainHead_lt_succ (hi : i < fanout) : chainHead m mark i < chainHead m mark (i + 1) := by
  rw [chainHead_succ]
  cases h with
  | uneven hm => split_ifs <;> omega
  | even hm hmark =>
    rw [if_neg (by omega)]
    omega

theorem chainHead_fanout : chainHead m mark fanout = n := by
  cases h with
  | uneven hm hmark hn => rw [chainHead_of_gt hmark, hn]
  | even hm hmark hn => rw [chainHead_of_le hmark.le, hn]

theorem chainHead_lt_of_lt {j : ℕ} (hij : i < j)
    (hj : j ≤ fanout) : chainHead m mark i < chainHead m mark j := by
  induction j, hij using le_induction with
  | base => exact h.chainHead_lt_succ hj
  | succ j hij ih => exact (ih (by omega)).trans (h.chainHead_lt_succ hj)

theorem chainHead_lt (hi : i < fanout) :
    chainHead m mark i < n := h.chainHead_fanout ▸ h.chainHead_lt_of_lt hi (le_refl _)

theorem exists_chainHead (hc : 0 < c) (hlt : c < n)
    (hhead : IsHead m mark c) : ∃ i < fanout, chainHead m mark i = c := by
  have hm := h.one_le
  suffices hex : ∃ i, chainHead m mark i = c by
    obtain ⟨i, hi⟩ := hex
    refine ⟨i, not_le.1 fun hge => ?_, hi⟩
    have hle : chainHead m mark fanout ≤ chainHead m mark i := by
      refine le_induction (le_refl _) (fun j _ ih => ih.trans ?_) i hge
      rw [chainHead_succ]
      exact Nat.le_add_right _ _
    rw [h.chainHead_fanout, hi] at hle
    exact absurd hlt hle.not_gt
  rw [IsHead] at hhead
  split_ifs at hhead with hlong
  · obtain ⟨i, hi⟩ := hhead
    have hlt : i < mark := by
      refine Nat.lt_of_mul_lt_mul_left (a := m) ?_
      rw [← hi, Nat.mul_comm m]
      exact hlong
    refine ⟨i, ?_⟩
    rw [chainHead_of_le hlt.le, Nat.mul_comm, ← hi]
    omega
  · obtain ⟨i, hi⟩ := hhead
    refine ⟨mark + i, ?_⟩
    rcases Nat.eq_zero_or_pos i with rfl | hpos
    · rw [Nat.add_zero, chainHead_of_le (le_refl _)]
      omega
    · rw [chainHead_of_gt (by omega), Nat.add_sub_cancel_left, Nat.mul_comm i, ← hi]
      omega

theorem virtualTree : VirtualTree n (chainParent m mark) (chainChildren n fanout m mark) where
  parent_lt {c} hc _ := by
    rw [chainParent]
    split_ifs <;> omega
  mem {p c} _ := by
    rw [chainChildren]
    by_cases hp : p = 0
    · rw [if_pos hp, mem_map]
      simp only [mem_range]
      constructor
      · rintro ⟨i, hi, rfl⟩
        refine ⟨chainHead_pos, h.chainHead_lt hi, ?_⟩
        rw [chainParent, if_pos (isHead_chainHead h.one_le), hp]
      · rintro ⟨hc, hlt, hparent⟩
        refine h.exists_chainHead hc hlt (by_contra fun hnot => ?_)
        rw [chainParent, if_neg hnot, hp] at hparent
        obtain rfl : c = 1 := by omega
        exact hnot isHead_one
    · rw [if_neg hp, mem_ite_nil_right, mem_singleton, chainParent]
      constructor
      · rintro ⟨⟨hlt, hhead⟩, rfl⟩
        exact ⟨succ_pos p, hlt, if_neg hhead⟩
      · rintro ⟨hc, hlt, hparent⟩
        split_ifs at hparent with hhead
        · exact absurd hparent.symm hp
        · obtain rfl : c = p + 1 := by omega
          exact ⟨⟨hlt, hhead⟩, rfl⟩
  nodup {p} _ := by
    rw [chainChildren]
    split_ifs with hp hnext
    · rw [nodup_map_iff_inj_on nodup_range]
      intro i hi j hj heq
      rw [mem_range] at hi hj
      by_contra hne
      rcases lt_or_gt_of_ne hne with hlt | hlt
      · exact absurd heq (h.chainHead_lt_of_lt hlt hj.le).ne
      · exact absurd heq (h.chainHead_lt_of_lt hlt hi.le).ne'
    · exact nodup_singleton _
    · exact nodup_nil

end

end ChainLayout

theorem dvd_succ_iff {u : ℕ} : m ∣ u + 1 ↔ u + 1 = u / m * m + m := by
  constructor
  · intro hdvd
    rw [← succ_mul, succ_eq_add_one, ← succ_div_of_dvd hdvd, Nat.div_mul_cancel hdvd]
  · intro heq
    rw [heq, ← succ_mul]
    exact Nat.dvd_mul_left _ _

theorem ChainLayout.chainPlace_spec (h : ChainLayout n fanout m mark)
    (hint : mark * m < 2 ^ 31) (hv : 0 < v) (hlt : v < n) :
    ∃ head len, chainPlace m mark v = some (head, len) ∧ (v = head ↔ IsHead m mark v) ∧
      (v = head + len - 1 ↔ IsHead m mark (v + 1)) := by
  have hm := h.one_le
  obtain ⟨u, rfl⟩ : ∃ u, v = u + 1 := exists_eq_succ_of_ne_zero hv.ne'
  rw [chainPlace, asInt_of_lt hint, IsHead, IsHead, Option.bind_eq_bind, Option.bind_some]
  simp only [Nat.add_sub_cancel]
  by_cases hlong : u < mark * m
  · refine ⟨_, _, if_pos hlong, ?_, ?_⟩
    · rw [if_pos hlong, dvd_iff_div_mul_eq]
      omega
    · have hlast : u + 1 = 1 + u / m * m + m - 1 ↔ m ∣ u + 1 := by
        rw [dvd_succ_iff]
        omega
      rw [hlast]
      split_ifs with hnext
      · rfl
      · have heq : u + 1 = mark * m := by omega
        rw [heq, Nat.sub_self]
        exact iff_of_true (Nat.dvd_mul_left _ _) (Nat.dvd_zero _)
  · have hm' : 0 < m - 1 := by
      cases h with
      | uneven hm => omega
      | even _ hmark hn =>
        have hle : fanout * m ≤ mark * m := Nat.mul_le_mul_right m hmark.le
        omega
    rw [if_neg hlong, if_neg hlong, if_neg hm'.ne', if_neg (by omega)]
    refine ⟨_, _, rfl, ?_, ?_⟩
    · rw [Nat.add_sub_cancel_left, dvd_iff_div_mul_eq]
      omega
    · rw [Nat.sub_add_comm (not_lt.1 hlong), dvd_succ_iff, Nat.add_sub_cancel_left]
      omega

theorem ChainLayout.chainPlace_view (h : ChainLayout n fanout m mark) (hint : mark * m < 2 ^ 31)
    (hv : 0 < v) (hlt : v < n) :
    ∃ head len, chainPlace m mark v = some (head, len) ∧
      (if v = head then 0 else v - 1) = chainParent m mark v ∧
      (if v = head + len - 1 then [] else if v + 1 < n then [v + 1] else []) =
        chainChildren n fanout m mark v := by
  obtain ⟨head, len, hplace, hhead, hlast⟩ := h.chainPlace_spec hint hv hlt
  refine ⟨head, len, hplace, ?_, ?_⟩
  · simp only [chainParent, hhead]
  · simp only [chainChildren, hlast, if_neg hv.ne']
    by_cases hnext : IsHead m mark (v + 1)
    · rw [if_pos hnext, if_neg fun hand => hand.2 hnext]
    · simp only [hnext, if_false, not_false_eq_true, and_true]

theorem rotate_add {root a : ℕ} : (rotate n root v + a) % n = rotate n root (v + a) := by
  rw [rotate, rotate, mod_add_mod, Nat.add_right_comm]

section

variable {root k : ℕ} (h : ChainLayout n fanout m mark) (hmax : fanout ≤ maxTreeFanout)
  (hsum : n - 1 + root < 2 ^ 31)
include h hmax

/-- Chains of one or two nodes are those of few nodes. -/
theorem ChainLayout.le_of_short (hm : m ≤ 2) : n ≤ 65 := by
  rw [maxTreeFanout] at hmax
  cases h with
  | uneven h2 hmark hn =>
    obtain rfl : m = 2 := by omega
    omega
  | even h1 hmark hn =>
    have hle : fanout * m ≤ 32 * 2 := Nat.mul_le_mul hmax hm
    omega

theorem ChainLayout.not_isHead_last (hn : 65 < n) : ¬IsHead m mark (n - 1) := by
  have hm : 2 < m := not_le.1 fun hm => hn.not_ge (h.le_of_short hmax hm)
  intro hhead
  rw [IsHead] at hhead
  cases h with
  | uneven h2 hmark hsize =>
    obtain ⟨d, rfl⟩ : ∃ d, fanout = mark + d := ⟨fanout - mark, by omega⟩
    rw [Nat.add_sub_cancel_left] at hsize
    have hd : m - 1 ≤ d * (m - 1) := Nat.le_mul_of_pos_left _ (by omega)
    rw [if_neg (by omega)] at hhead
    have hone := Nat.dvd_sub (Nat.dvd_mul_left (m - 1) d) hhead
    rw [show d * (m - 1) - (n - 1 - 1 - mark * m) = 1 by omega, Nat.dvd_one] at hone
    omega
  | even h1 hmark hsize =>
    have hle : fanout * m ≤ mark * m := Nat.mul_le_mul_right m hmark.le
    rw [if_pos (by omega)] at hhead
    have hone := Nat.dvd_sub (Nat.dvd_mul_left m fanout) hhead
    rw [show fanout * m - (n - 1 - 1) = 1 by omega, Nat.dvd_one] at hone
    omega

include hsum

theorem ChainLayout.head_sum_lt (hroot : root < n) (hi : i + 1 < fanout) :
    rotate n root (chainHead m mark i) + m < 2 ^ 31 := by
  have hle : rotate n root (chainHead m mark i) ≤ chainHead m mark i + root := mod_le _ _
  have hnext := h.chainHead_lt hi
  rcases Nat.lt_or_ge 2 m with hlong | hshort
  · have hend : chainHead m mark (i + 1 + 1) ≤ n := by
      rw [← h.chainHead_fanout]
      rcases Nat.eq_or_lt_of_le hi with heq | hlt
      · exact (congrArg (chainHead m mark) heq).le
      · exact (h.chainHead_lt_of_lt hlt (le_refl _)).le
    rw [chainHead_succ] at hend
    have hstep : chainHead m mark (i + 1) = _ := chainHead_succ i
    split_ifs at hend hstep <;> omega
  · have hn := h.le_of_short hmax hshort
    have hlt : rotate n root (chainHead m mark i) < n := rotate_lt (by omega) _
    omega

theorem ChainLayout.chainRootNext_eq (hroot : root < n) (hk : i + 1 + k ≤ fanout) :
    chainRootNext n m mark k (i + 1) (rotate n root (chainHead m mark i)) =
      some (((range' (i + 1) k).map (chainHead m mark)).map (rotate n root)) := by
  have hm := h.one_le
  induction k generalizing i with
  | zero => rfl
  | succ k ih =>
    have hstep : (if i + 1 > mark then rotate n root (chainHead m mark i) + m - 1
        else rotate n root (chainHead m mark i) + m) % n =
          rotate n root (chainHead m mark (i + 1)) := by
      rw [chainHead_succ, ← rotate_add]
      split_ifs
      · rw [Nat.add_sub_assoc hm]
      · rfl
    rw [chainRootNext, asInt_of_lt (h.head_sum_lt hmax hsum hroot (by omega)),
      Option.bind_eq_bind, Option.bind_some]
    dsimp only
    rw [hstep, ih (by omega)]
    rfl

end

theorem chainLayout {size : ℕ} (hf : 2 ≤ fanout) (hle : fanout ≤ size - 1) : ChainLayout size fanout
      (if (size - 1) % fanout ≠ 0 then (size - 1) / fanout + 1 else (size - 1) / fanout)
      (if (size - 1) % fanout ≠ 0 then (size - 1) % fanout else fanout + 1) := by
  have hq : 1 ≤ (size - 1) / fanout := (Nat.one_le_div_iff (by omega)).2 hle
  have hdiv := div_add_mod (size - 1) fanout
  have hlt : (size - 1) % fanout < fanout := mod_lt _ (by omega)
  split_ifs with hr
  · refine .uneven (by omega) hlt ?_
    generalize (size - 1) / fanout = q at *
    generalize (size - 1) % fanout = r at *
    obtain ⟨d, rfl⟩ : ∃ d, fanout = r + d := ⟨fanout - r, by omega⟩
    rw [Nat.add_mul] at hdiv
    rw [Nat.add_sub_cancel, Nat.add_sub_cancel_left, mul_succ]
    omega
  · refine .even hq (lt_succ_self _) ?_
    omega

def pipelineChildren (n v : ℕ) : List ℕ := if v + 1 ≥ n then [] else [v + 1]

theorem virtualTree_pipeline (n : ℕ) : VirtualTree n (· - 1) (pipelineChildren n) where
  parent_lt hc _ := sub_lt hc Nat.one_pos
  mem {p c} _ := by
    rw [pipelineChildren]
    split_ifs with h
    · rw [iff_false_left not_mem_nil]
      omega
    · rw [mem_singleton]
      omega
  nodup {p} _ := by
    rw [pipelineChildren]
    split_ifs
    · exact nodup_nil
    · exact nodup_singleton _

/-- The numbers of the builder are `int`s. -/
structure ChainFits (fanout size root : ℕ) : Prop where
  sum : size - 1 + root < 2 ^ 31
  product : min fanout (size - 1) ≠ 1 → (size - 1) % min fanout (size - 1) = 0 →
    size - 1 + (size - 1) / min fanout (size - 1) < 2 ^ 31

section Build

variable {size root k : ℕ}

theorem chainFanout_eq (hf : 1 ≤ fanout) (hmax : fanout ≤ maxTreeFanout) :
    (if size - 1 < (if (if fanout < 1 then 1 else fanout) > maxTreeFanout then maxTreeFanout
        else if fanout < 1 then 1 else fanout) then size - 1
      else if (if fanout < 1 then 1 else fanout) > maxTreeFanout then maxTreeFanout
        else if fanout < 1 then 1 else fanout) = min fanout (size - 1) := by
  rw [if_neg (show ¬fanout < 1 by omega), if_neg (show ¬fanout > maxTreeFanout by omega)]
  split_ifs <;> omega

/-- The product of a process that looks for its chain. -/
theorem mark_mul_lt (hk : 2 ≤ k) (hkle : k ≤ size - 1) (hsize : size - 1 < 2 ^ 31)
    (hproduct : (size - 1) % k = 0 → size - 1 + (size - 1) / k < 2 ^ 31) :
    (if (size - 1) % k ≠ 0 then (size - 1) % k else k + 1) *
      (if (size - 1) % k ≠ 0 then (size - 1) / k + 1 else (size - 1) / k) < 2 ^ 31 := by
  have hlayout := chainLayout hk hkle
  generalize hmark : (if (size - 1) % k ≠ 0 then (size - 1) % k else k + 1) = mark at hlayout ⊢
  generalize hm : (if (size - 1) % k ≠ 0 then (size - 1) / k + 1 else (size - 1) / k) = m
    at hlayout ⊢
  cases hlayout with
  | uneven h2 hlt hn => omega
  | even h1 hlt hn =>
    have hzero : (size - 1) % k = 0 := by
      by_contra hne
      rw [if_pos hne] at hmark
      have hmod := mod_lt (size - 1) (show k > 0 by omega)
      omega
    rw [if_neg (not_not.2 hzero)] at hmark hm
    have hbound := hproduct hzero
    rw [hm] at hbound
    rw [← hmark, succ_mul]
    omega

/-- `ompi_coll_tuned_topo_build_chain` computes the parent and the children of a process, in a
pipeline or in several chains. -/
theorem exists_buildChain_eq {size root : ℕ} (hroot : root < size) (hf : 1 ≤ fanout)
    (hmax : fanout ≤ maxTreeFanout) (hfits : ChainFits fanout size root) :
    ∃ (parent : ℕ → ℕ) (children : ℕ → List ℕ), VirtualTree size parent children ∧
      ∀ rank < size, ∃ prev : ℤ, buildChain fanout size root rank = some
        ⟨prev, (children (shiftedRank size root rank)).map (rotate size root)⟩ ∧
        (rank ≠ root → prev = rotate size root (parent (shiftedRank size root rank))) := by
  obtain ⟨hsum, hproduct⟩ := hfits
  set k := min fanout (size - 1) with hk
  have hkle : k ≤ size - 1 := Nat.min_le_right _ _
  by_cases hpipe : k = 1 ∨ size = 1
  · refine ⟨_, _, virtualTree_pipeline size, fun rank hrank => ?_⟩
    have hv := shiftedRank_lt hroot hrank
    rw [buildChain]
    simp only [chainFanout_eq hf hmax, ← hk]
    by_cases hone : k = 1
    · refine ⟨if shiftedRank size root rank = 0 then -1
        else rotate size root (shiftedRank size root rank - 1), ?_, fun hne => ?_⟩
      · generalize shiftedRank size root rank = v at hv
        have hprev : asInt (v - 1 + root) = some (v - 1 + root) := asInt_of_lt (by omega)
        rw [if_pos hone, hprev, pipelineChildren]
        by_cases hlast : v + 1 ≥ size
        · simp only [if_pos hlast]
          split_ifs <;> rfl
        · have hnext : asInt (v + 1 + root) = some (v + 1 + root) := asInt_of_lt (by omega)
          simp only [if_neg hlast, hnext]
          split_ifs <;> rfl
      · exact if_neg (shiftedRank_pos hroot hrank hne).ne'
    · have hsize := hpipe.resolve_left hone
      refine ⟨-1, ?_, fun hne => absurd ?_ hne⟩
      · rw [if_neg hone, if_pos hsize, pipelineChildren, if_pos (by omega), map_nil]
      · omega
  · rw [not_or] at hpipe
    have hk2 : 2 ≤ k := by omega
    have hlayout := chainLayout hk2 hkle
    have hint := mark_mul_lt hk2 hkle (by omega) (hproduct hpipe.1)
    refine ⟨_, _, hlayout.virtualTree, fun rank hrank => ?_⟩
    rw [buildChain]
    simp only [chainFanout_eq hf hmax, ← hk, if_neg hpipe.1, if_neg hpipe.2]
    by_cases hr : rank = root
    · have hzero : shiftedRank size root rank = 0 := by
        rw [hr, shiftedRank, if_neg (lt_irrefl _), Nat.sub_self]
      have hfirst : ∀ m mark, (root + 1) % size = rotate size root (chainHead m mark 0) := by
        intro m mark
        rw [chainHead_of_le (Nat.zero_le _), Nat.zero_mul, rotate, Nat.add_comm, Nat.add_zero]
      have hkmax : k ≤ maxTreeFanout := (Nat.min_le_left _ _).trans hmax
      obtain ⟨j, hj⟩ : ∃ j, k = j + 1 := ⟨k - 1, by omega⟩
      refine ⟨-1, ?_, fun hne => absurd hr hne⟩
      rw [if_pos hr, hfirst _ _, hlayout.chainRootNext_eq hkmax hsum hroot (by omega), hzero,
        chainChildren, if_pos rfl, hj, range_eq_range', range'_succ, Nat.add_sub_cancel]
      rfl
    · have hpos := shiftedRank_pos hroot hrank hr
      have hv := shiftedRank_lt hroot hrank
      obtain ⟨head, len, hplace, hparent, hchildren⟩ := hlayout.chainPlace_view hint hpos hv
      have hprev : chainParent (if (size - 1) % k ≠ 0 then (size - 1) / k + 1 else (size - 1) / k)
          (if (size - 1) % k ≠ 0 then (size - 1) % k else k + 1) (shiftedRank size root rank) +
            root < 2 ^ 31 := by
        have hlt := hlayout.virtualTree.parent_lt hpos hv
        omega
      rw [if_neg hr, hplace, Option.bind_eq_bind, Option.bind_some, ← hchildren]
      dsimp only
      rw [hparent, asInt_of_lt hprev, Option.bind_eq_bind, Option.bind_some]
      refine ⟨_, ?_, fun _ => rfl⟩
      by_cases hlast : shiftedRank size root rank = head + len - 1
      · rw [if_pos hlast, if_pos hlast]
        rfl
      · rw [if_neg hlast, if_neg hlast]
        by_cases hnext : shiftedRank size root rank + 1 < size
        · rw [if_pos hnext, if_pos hnext, asInt_of_lt (by omega)]
          rfl
        · rw [if_neg hnext, if_neg hnext]
          rfl

/-- The last process is the next one of the process before it. -/
theorem exists_buildChain_eq_none_of_sum (hroot : root < size) (hf : 1 ≤ fanout)
    (hmax : fanout ≤ maxTreeFanout) (hsum : 2 ^ 31 ≤ size - 1 + root) :
    ∃ rank < size, buildChain fanout size root rank = none := by
  have hv : size - 2 < size := by omega
  have hne : rotate size root (size - 2) ≠ root := by
    rw [Ne, rotate_eq_root_iff hroot hv]
    omega
  refine ⟨rotate size root (size - 2), rotate_lt (by omega) _, ?_⟩
  have hk : min fanout (size - 1) = fanout := by
    rw [maxTreeFanout] at hmax
    omega
  have hnext : asInt (size - 2 + 1 + root) = none := asInt_of_ge (by omega)
  rw [buildChain]
  simp only [chainFanout_eq hf hmax, hk, shiftedRank_rotate hroot hv]
  by_cases hone : fanout = 1
  · rw [if_pos hone]
    simp only [if_neg (show ¬size - 2 + 1 ≥ size by omega), hnext,
      if_neg (show ¬size - 2 = 0 by omega)]
    cases asInt (size - 2 - 1 + root) <;> rfl
  · have hlayout := chainLayout (show 2 ≤ fanout by omega) (show fanout ≤ size - 1 by omega)
    rw [if_neg hone, if_neg (by omega), if_neg hne]
    generalize (if (size - 1) % fanout ≠ 0 then (size - 1) % fanout else fanout + 1) = mark
      at hlayout ⊢
    generalize (if (size - 1) % fanout ≠ 0 then (size - 1) / fanout + 1 else (size - 1) / fanout)
      = m at hlayout ⊢
    by_cases hint : mark * m < 2 ^ 31
    · obtain ⟨head, len, hplace, -, hlast⟩ :=
        hlayout.chainPlace_spec hint (show 0 < size - 2 by omega) hv
      have hnot : ¬size - 2 = head + len - 1 := by
        rw [hlast, show size - 2 + 1 = size - 1 by omega]
        exact hlayout.not_isHead_last hmax (by omega)
      rw [hplace, Option.bind_eq_bind, Option.bind_some]
      simp only [if_neg hnot, if_pos (show size - 2 + 1 < size by omega), hnext]
      cases asInt ((if size - 2 = head then 0 else size - 2 - 1) + root) <;> rfl
    · rw [chainPlace, asInt_of_ge (not_lt.1 hint)]
      rfl

/-- A process behind the root multiplies `mark` with the length of the chains. -/
theorem exists_buildChain_eq_none_of_product (hroot : root < size) (hf : 1 ≤ fanout)
    (hmax : fanout ≤ maxTreeFanout) (hne : min fanout (size - 1) ≠ 1)
    (hmod : (size - 1) % min fanout (size - 1) = 0)
    (hproduct : 2 ^ 31 ≤ size - 1 + (size - 1) / min fanout (size - 1)) :
    ∃ rank < size, buildChain fanout size root rank = none := by
  have hsize : 2 < size := by
    by_contra hle
    have hdiv := Nat.div_le_self (size - 1) (min fanout (size - 1))
    omega
  have hv : 1 < size := by omega
  have hnot : rotate size root 1 ≠ root := by
    rw [Ne, rotate_eq_root_iff hroot hv]
    omega
  refine ⟨rotate size root 1, rotate_lt (by omega) _, ?_⟩
  rw [buildChain]
  simp only [chainFanout_eq hf hmax, shiftedRank_rotate hroot hv, if_neg hne,
    if_neg (show ¬size = 1 by omega), if_neg hnot, hmod, ne_eq, not_true_eq_false, if_false]
  have hmul : (min fanout (size - 1) + 1) * ((size - 1) / min fanout (size - 1)) =
      size - 1 + (size - 1) / min fanout (size - 1) := by
    rw [succ_mul, Nat.mul_div_cancel' (Nat.dvd_of_mod_eq_zero hmod)]
  rw [chainPlace, hmul, asInt_of_ge hproduct]
  rfl

end Build

end Ulfm
