import Mathlib.Data.List.GetD
import Mathlib.Order.Interval.Finset.Nat
import Ulfm.Era.Tree.Repair

/-!
# The trees that are built

A builder is described by `Builds f n kids`: it links `n` nodes to a tree whose
sibling chains are the lists `kids`. The nodes of the array get the ranks that are
not agreed to have failed in increasing order (`treeRanks_spec`), and an array
that is linked to a tree with root `0` represents a tree on these ranks
(`Shape.treeInv`).
-/

namespace Ulfm

open List RankTree

/-! ### Builders -/

/-- The builder `f` makes a tree of `n` nodes with root `0` and chains `kids`. -/
structure Builds (f : TreeFn) (n : ℕ) (kids : ℕ → List ℕ) : Prop where
  par_zero : (f n 0).1 = 0
  par_lt : ∀ m, 0 < m → m < n → (f n m).1 < m
  chain : ∀ m < n, Segment (fun i => (f n i).2.2) (f n m).2.1 (kids m) n
  mem_kids : ∀ m < n, ∀ c, c ∈ kids m ↔ c < n ∧ (f n c).1 = m ∧ c ≠ m
  nodup : ∀ m < n, (kids m).Nodup
  root_next : 0 < n → (f n 0).2.2 = n

namespace Builds

variable {f : TreeFn} {n : ℕ} {kids : ℕ → List ℕ}

theorem par_le (h : Builds f n kids) {m : ℕ} (hm : m < n) : (f n m).1 ≤ m := by
  rcases Nat.eq_zero_or_pos m with rfl | h0
  · exact h.par_zero.le
  · exact (h.par_lt m h0 hm).le

end Builds

theorem segment_range' {nxt : ℕ → ℕ} {a k n : ℕ} (hn : a + k = n)
    (h : ∀ i, a ≤ i → i < n → nxt i = i + 1) : Segment nxt a (range' a k) n := by
  induction k generalizing a with
  | zero => simpa using hn
  | succ k ih =>
    rw [range'_succ]
    refine ⟨rfl, ?_⟩
    rw [h a le_rfl (by omega)]
    exact ih (by omega) fun i hi hin => h i (by omega) hin

theorem eraTreeFnStar_builds (n : ℕ) :
    Builds eraTreeFnStar n fun m => if m = 0 then range' 1 (n - 1) else [] where
  par_zero := rfl
  par_lt m h0 hm := h0
  chain m hm := by
    by_cases h0 : m = 0
    · subst h0
      simp only [eraTreeFnStar, if_true]
      refine segment_range' (by omega) fun i hi hin => ?_
      have : i ≠ 0 := by omega
      simp [this]
    · simp [eraTreeFnStar, h0]
  mem_kids m hm c := by
    by_cases h0 : m = 0
    · subst h0
      simp only [eraTreeFnStar, if_true, mem_range'_1, ne_eq, true_and]
      omega
    · simp only [h0, if_false, not_mem_nil, eraTreeFnStar, false_iff]
      omega
  nodup m hm := by
    split
    · exact nodup_range'
    · exact nodup_nil
  root_next h := by simp [eraTreeFnStar]

theorem eraTreeFnString_builds (n : ℕ) :
    Builds eraTreeFnString n fun m => if m + 1 < n then [m + 1] else [] where
  par_zero := rfl
  par_lt m h0 hm := by
    simp only [eraTreeFnString, h0, if_true]
    omega
  chain m hm := by
    dsimp only [eraTreeFnString]
    split
    · exact ⟨rfl, rfl⟩
    · exact Segment.nil_iff.2 (by omega)
  mem_kids m hm c := by
    simp only [eraTreeFnString]
    split <;> split <;> simp <;> omega
  nodup m hm := by
    split <;> simp
  root_next h := rfl

theorem eraTreeFnBinary_builds (n : ℕ) : Builds eraTreeFnBinary n fun m =>
      if 2 * m + 2 < n then [2 * m + 1, 2 * m + 2]
      else if 2 * m + 1 < n then [2 * m + 1] else [] where
  par_zero := rfl
  par_lt m h0 hm := by
    simp only [eraTreeFnBinary, h0, if_true]
    omega
  chain m hm := by
    have heven : (2 * m + 2) % 2 = 0 := by omega
    by_cases h2 : 2 * m + 2 < n
    · have h1 : 2 * m + 1 < n := by omega
      simp [eraTreeFnBinary, h1, heven, h2]
    · by_cases h1 : 2 * m + 1 < n
      · simp [eraTreeFnBinary, h1, h2]
      · simp [eraTreeFnBinary, h1, h2]
  mem_kids m hm c := by
    simp only [eraTreeFnBinary]
    split
    · simp only [mem_cons, not_mem_nil, or_false]
      split <;> omega
    · split
      · simp only [mem_singleton]
        split <;> omega
      · simp only [not_mem_nil, false_iff]
        split <;> omega
  nodup m hm := by
    split
    · simp
    · split <;> simp
  root_next h := by simp [eraTreeFnBinary]

theorem eraTreeFn_builds (topology : Int) (n : ℕ) : ∃ kids, Builds (eraTreeFn topology) n kids := by
  unfold eraTreeFn
  split
  · exact ⟨_, eraTreeFnBinary_builds n⟩
  · exact ⟨_, eraTreeFnString_builds n⟩
  · exact ⟨_, eraTreeFnStar_builds n⟩
  · exact ⟨_, eraTreeFnBinary_builds n⟩

/-! ### The ranks of the nodes -/

theorem skipFailed_spec (m : ℕ) (afr : List ℕ) (offset : ℕ) (hs : afr.Pairwise (· < ·))
    (hlow : ∀ d ∈ afr, m + offset ≤ d) :
    ∃ pre, afr = pre ++ (skipFailed m afr offset).1 ∧
      (skipFailed m afr offset).2 = offset + pre.length ∧
      (∀ d, d ∈ pre ↔ m + offset ≤ d ∧ d < m + offset + pre.length) ∧
      ∀ d ∈ (skipFailed m afr offset).1, m + offset + pre.length < d := by
  induction afr generalizing offset with
  | nil => exact ⟨[], rfl, rfl, fun d => by simp, by simp [skipFailed]⟩
  | cons a afr ih =>
    rw [pairwise_cons] at hs
    by_cases ha : m + offset = a
    · obtain ⟨pre, h1, h2, h3, h4⟩ := ih (offset + 1) hs.2 fun d hd => by
        have := hs.1 d hd
        omega
      have hstep : skipFailed m (a :: afr) offset = skipFailed m afr (offset + 1) := by
        rw [skipFailed, if_pos ha]
      rw [hstep]
      refine ⟨a :: pre, by rw [cons_append, ← h1], by simp [h2]; omega, fun d => ?_, fun d hd => ?_⟩
      · rw [mem_cons, h3, length_cons]
        omega
      · have := h4 d hd
        simp only [length_cons]
        omega
    · have hstep : skipFailed m (a :: afr) offset = (a :: afr, offset) := by
        rw [skipFailed, if_neg ha]
      rw [hstep]
      have hlt : m + offset < a := by
        have := hlow a (by simp)
        omega
      refine ⟨[], rfl, rfl, fun d => by simp, fun d hd => ?_⟩
      rcases mem_cons.1 hd with rfl | hd
      · simpa using hlt
      · have := hs.1 d hd
        simp only [length_nil]
        omega

theorem rankLoop_spec (k m : ℕ) (afr : List ℕ) (offset : ℕ) (hs : afr.Pairwise (· < ·))
    (hlow : ∀ d ∈ afr, m + offset ≤ d)
    (hup : ∀ d ∈ afr, d < m + offset + k + afr.length) :
    (rankLoop k m afr offset).length = k ∧ (rankLoop k m afr offset).Pairwise (· < ·) ∧
      ∀ r, r ∈ rankLoop k m afr offset ↔
        m + offset ≤ r ∧ r < m + offset + k + afr.length ∧ r ∉ afr := by
  induction k generalizing m afr offset with
  | zero =>
    refine ⟨rfl, List.Pairwise.nil, fun r => ?_⟩
    simp only [rankLoop, not_mem_nil, Nat.add_zero, false_iff, not_and, not_not]
    intro h1 h2
    -- `afr` has as many members as there is room
    have hsub : afr.toFinset ⊆ Finset.Ico (m + offset) (m + offset + afr.length) := by
      intro d hd
      rw [mem_toFinset] at hd
      exact Finset.mem_Ico.2 ⟨hlow d hd, by simpa using hup d hd⟩
    have hcard : afr.toFinset.card = afr.length := toFinset_card_of_nodup (hs.imp fun h => h.ne)
    have heq := Finset.eq_of_subset_of_card_le hsub (by simp [hcard])
    rw [← mem_toFinset, heq, Finset.mem_Ico]
    exact ⟨h1, h2⟩
  | succ k ih =>
    obtain ⟨pre, h1, h2, h3, h4⟩ := skipFailed_spec m afr offset hs hlow
    set rest := (skipFailed m afr offset).1 with hrest
    have hlen : afr.length = pre.length + rest.length := by
      rw [← length_append, ← h1]
    have hs' : rest.Pairwise (· < ·) := by
      rw [h1] at hs
      exact (pairwise_append.1 hs).2.1
    have hmem : ∀ d, d ∈ afr ↔ d ∈ pre ∨ d ∈ rest := by
      intro d
      conv_lhs => rw [h1]
      exact mem_append
    obtain ⟨i1, i2, i3⟩ := ih (m + 1) rest (offset + pre.length) hs'
      (fun d hd => by
        have := h4 d hd
        omega)
      (fun d hd => by
        have := hup d ((hmem d).2 (.inr hd))
        omega)
    have hloop : rankLoop (k + 1) m afr offset =
        (m + (offset + pre.length)) :: rankLoop k (m + 1) rest (offset + pre.length) := by
      rw [rankLoop, ← h2]
    rw [hloop]
    refine ⟨by simp [i1], pairwise_cons.2 ⟨fun r hr => ?_, i2⟩, fun r => ?_⟩
    · have := (i3 r).1 hr
      omega
    · rw [mem_cons, i3, hmem, h3]
      constructor
      · rintro (rfl | ⟨h5, h6, h7⟩)
        · refine ⟨by omega, by omega, ?_⟩
          rintro (⟨-, h⟩ | h)
          · omega
          · have := h4 _ h
            omega
        · refine ⟨by omega, by omega, ?_⟩
          rintro (⟨-, h⟩ | h)
          · omega
          · exact h7 h
      · rintro ⟨h5, h6, h7⟩
        by_cases hr : r = m + (offset + pre.length)
        · exact .inl hr
        · refine .inr ⟨?_, by omega, fun h => h7 (.inr h)⟩
          by_contra hlt
          exact h7 (.inl ⟨h5, by omega⟩)

theorem treeRanks_spec {n : ℕ} {afr : List ℕ} (hs : afr.Pairwise (· < ·)) (hn : ∀ d ∈ afr, d < n) :
    (treeRanks n afr).Pairwise (· < ·) ∧ ∀ r, r ∈ treeRanks n afr ↔ r < n ∧ r ∉ afr := by
  have hlen : afr.length ≤ n := length_le_of_nodup (hs.imp fun h => h.ne) hn
  obtain ⟨-, h2, h3⟩ := rankLoop_spec (n - afr.length) 0 afr 0 hs (by simp) fun d hd => by
    have := hn d hd
    omega
  refine ⟨h2, fun r => ?_⟩
  rw [treeRanks, h3]
  constructor
  · rintro ⟨-, h, h'⟩
    exact ⟨by omega, h'⟩
  · rintro ⟨h, h'⟩
    exact ⟨by omega, by omega, h'⟩

/-! ### A shape with ranks represents a tree -/

section Ranks

variable {t : EraTree} {ranks : List ℕ} {kids : ℕ → List ℕ}

/-- The tree on the ranks that an array links. -/
def EraTree.rankTree (t : EraTree) (ranks : List ℕ) (hs : ranks.Pairwise (· < ·))
    (hpar : ∀ i < ranks.length, t.par i ≤ i) : RankTree where
  mem := ranks.toFinset
  parent r := if r ∈ ranks then ranks.getD (t.par (ranks.idxOf r)) 0 else r
  parent_le r := by
    split
    · next hr =>
        have hi := idxOf_lt_length_of_mem hr
        have hle := hpar _ hi
        have hp : t.par (ranks.idxOf r) < ranks.length := hle.trans_lt hi
        rw [getD_eq_getElem _ _ hp]
        calc ranks[t.par (ranks.idxOf r)]
            ≤ ranks[ranks.idxOf r] := by
              rcases hle.lt_or_eq with hlt | heq
              · exact (pairwise_iff_getElem.1 hs _ _ hp hi hlt).le
              · simp only [heq, le_refl]
          _ = r := getElem_idxOf hi
    · exact le_rfl
  parent_mem r hr := by
    rw [mem_toFinset] at hr ⊢
    rw [if_pos hr]
    have hi := idxOf_lt_length_of_mem hr
    have hp : t.par (ranks.idxOf r) < ranks.length := (hpar _ hi).trans_lt hi
    rw [getD_eq_getElem _ _ hp]
    exact getElem_mem hp

theorem EraTree.rankTree_parent (hs : ranks.Pairwise (· < ·))
    (hle : ∀ i < ranks.length, t.par i ≤ i) {i : ℕ} (hi : i < ranks.length) :
    (t.rankTree ranks hs hle).parent (ranks.getD i 0) = ranks.getD (t.par i) 0 := by
  have hnodup : ranks.Nodup := hs.imp fun h => h.ne
  have hget : ranks.getD i 0 = ranks[i] := getD_eq_getElem _ _ hi
  have hri : ranks.getD i 0 ∈ ranks := by
    rw [hget]
    exact getElem_mem hi
  change (if ranks.getD i 0 ∈ ranks then _ else _) = _
  rw [if_pos hri, hget, hnodup.idxOf_getElem i hi]

theorem getD_lt_getD (hs : ranks.Pairwise (· < ·)) {i j : ℕ} (hij : i < j)
    (hj : j < ranks.length) : ranks.getD i 0 < ranks.getD j 0 := by
  rw [getD_eq_getElem _ _ (hij.trans hj), getD_eq_getElem _ _ hj]
  exact pairwise_iff_getElem.1 hs _ _ _ hj hij

section

variable (h : Shape t (Finset.range ranks.length) kids) (hsize : t.treeSize = ranks.length)
  (hs : ranks.Pairwise (· < ·)) (hrank : ∀ i < ranks.length, t.rank i = ranks[i]?)
  (hlt : ∀ i, 0 < i → i < ranks.length → t.par i < i)
include h hsize hs hrank hlt

theorem Shape.represents (hle : ∀ i < ranks.length, t.par i ≤ i) :
    Represents (t.rankTree ranks hs hle) ∅ t (Finset.range ranks.length) kids
      (fun i => ranks.getD i 0) ∅ := by
  have hget : ∀ i (hi : i < ranks.length), ranks.getD i 0 = ranks[i] := fun i hi =>
    getD_eq_getElem _ _ hi
  set T := t.rankTree ranks hs hle with hT
  have hmem : ∀ r, r ∈ T.mem ↔ r ∈ ranks := fun r => mem_toFinset
  have hpar : ∀ i < ranks.length, T.parent (ranks.getD i 0) = ranks.getD (t.par i) 0 :=
    fun i hi => EraTree.rankTree_parent hs hle hi
  refine ⟨h, fun r => ?_, fun i j hij hj => getD_lt_getD hs hij (hsize ▸ hj), fun i hi => ?_,
    Set.Subset.rfl, fun i hi => ?_, fun i hi => ?_⟩
  · rw [hmem, hsize]
    constructor
    · intro hr
      obtain ⟨i, hi, rfl⟩ := getElem_of_mem hr
      exact ⟨i, hi, hget i hi⟩
    · rintro ⟨i, hi, rfl⟩
      rw [hget i hi]
      exact getElem_mem hi
  · rw [hsize] at hi
    rw [hrank i hi, if_pos (Finset.mem_range.2 hi), getElem?_eq_getElem hi, hget i hi]
  · simp [hsize ▸ hi]
  · rw [Finset.mem_range] at hi
    -- the first candidate of every node is its parent
    have hhead : ∃ l, T.above (ranks.getD i 0) = ranks.getD (t.par i) 0 :: l := by
      rcases Nat.eq_zero_or_pos i with rfl | h0
      · have hp : t.par 0 = 0 := Nat.le_zero.1 (hle 0 hi)
        have hanc : T.ancestors (ranks.getD 0 0) = [] := by
          rw [ancestors, if_neg]
          rw [hpar 0 hi, hp]
          exact lt_irrefl _
        have hself : ranks.getD 0 0 ∈ T.upTo (ranks.getD 0 0) := by
          refine mem_upTo.2 ⟨(hmem _).2 ?_, le_rfl⟩
          rw [hget 0 hi]
          exact getElem_mem hi
        have honly : ∀ x ∈ T.upTo (ranks.getD 0 0), x = ranks.getD 0 0 := by
          intro x hx
          obtain ⟨hx, hxle⟩ := mem_upTo.1 hx
          obtain ⟨j, hj, rfl⟩ := getElem_of_mem ((hmem x).1 hx)
          rcases Nat.eq_zero_or_pos j with rfl | hj0
          · exact (hget 0 hj).symm
          · have := getD_lt_getD hs hj0 hj
            rw [hget j hj] at this
            omega
        rw [hp, above, hanc, nil_append]
        cases hl : T.upTo (ranks.getD 0 0) with
        | nil =>
          rw [hl] at hself
          exact absurd hself not_mem_nil
        | cons x l =>
          rw [hl] at honly
          exact ⟨l, by rw [honly x (by simp)]⟩
      · have hplt := hlt i h0 hi
        have hanc : T.ancestors (ranks.getD i 0) =
            ranks.getD (t.par i) 0 :: T.ancestors (ranks.getD (t.par i) 0) := by
          rw [ancestors, hpar i hi, if_pos (getD_lt_getD hs hplt hi)]
        exact ⟨_, by rw [above, hanc, cons_append]⟩
    obtain ⟨l, hl⟩ := hhead
    refine ⟨by rw [hl]; exact mem_cons_self, by simp, fun x hx => ?_⟩
    rw [before, hl, takeWhile_cons_of_neg (by simp)] at hx
    exact absurd hx not_mem_nil

theorem Shape.treeInv : ∃ T : RankTree, (∀ r, r ∈ T.mem ↔ r ∈ ranks) ∧ TreeInv T ∅ t :=
  ⟨_, fun _ => mem_toFinset, _, _, _, _, h.represents hsize hs hrank hlt
    fun i hi => h.par_le i (Finset.mem_range.2 hi)⟩

end

end Ranks

/-! ### Flat trees -/

theorem fill_shape {f : TreeFn} {kids : ℕ → List ℕ} (t : EraTree) (h : Builds f t.treeSize kids) :
    Shape (t.fill f) (Finset.range t.treeSize) kids := by
  have hnode : ∀ i < t.treeSize, (t.fill f).node i = { t.node i with
        parent := (f t.treeSize i).1
        firstChild := (f t.treeSize i).2.1
        nextSibling := (f t.treeSize i).2.2 } := fun i hi => if_pos hi
  have hpar : ∀ i < t.treeSize, (t.fill f).par i = (f t.treeSize i).1 := fun i hi => by
    rw [EraTree.par, hnode i hi]
  have hnext : ∀ i < t.treeSize, (t.fill f).next i = (f t.treeSize i).2.2 := fun i hi => by
    rw [EraTree.next, hnode i hi]
  have hfirst : ∀ i < t.treeSize, (t.fill f).first i = (f t.treeSize i).2.1 := fun i hi => by
    rw [EraTree.first, hnode i hi]
  simp only [← Finset.mem_range] at hpar hnext hfirst
  refine ⟨fun i hi => Finset.mem_range.1 hi, fun i hi => ?_, fun i hi => ?_, fun i hi => ?_,
    fun i hi c => ?_, fun i hi => h.nodup i (Finset.mem_range.1 hi), fun i hi hp => ?_⟩
  · rw [hpar i hi]
    rw [Finset.mem_range] at hi ⊢
    exact (h.par_le hi).trans_lt hi
  · rw [hpar i hi]
    exact h.par_le (Finset.mem_range.1 hi)
  · rw [hfirst i hi]
    refine (Segment.congr fun y hy => hnext y ?_).2 (h.chain i (Finset.mem_range.1 hi))
    exact Finset.mem_range.2 ((h.mem_kids i (Finset.mem_range.1 hi) y).1 hy).1
  · rw [h.mem_kids i (Finset.mem_range.1 hi) c, Finset.mem_range]
    refine and_congr_right fun hc => ?_
    rw [hpar c (Finset.mem_range.2 hc)]
  · rw [hpar i hi] at hp
    rw [hnext i hi]
    rw [Finset.mem_range] at hi
    rcases Nat.eq_zero_or_pos i with rfl | h0
    · exact h.root_next hi
    · exact absurd hp (h.par_lt i h0 hi).ne

end Ulfm
