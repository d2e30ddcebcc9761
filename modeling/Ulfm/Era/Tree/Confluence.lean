import Mathlib.Data.Finset.Max
import Ulfm.Era.Tree.Check

/-!
# Repair in any order

Removing nodes one by one from a tree that was built leaves a tree whose parents
are given by the set of removed nodes alone: `EraTree.repairedParent` tries the
ancestors of a node in the tree that was built, nearest first, and then all the
nodes in the order of their indices. Two processes that learn of the same failures
in different orders therefore have the same parents.
-/

namespace Ulfm

open List EraTree

/-- The ancestors of node `i`, nearest first, up to the given number. -/
def EraTree.ancestors (t : EraTree) : ℕ → ℕ → List ℕ
  | 0, _ => []
  | k + 1, i => if t.par i = i then [] else t.par i :: t.ancestors k (t.par i)

/-- The parent of `i` after the removal of `D`: its nearest ancestor outside `D` or,
if there is none, the smallest index outside `D`. -/
def EraTree.repairedParent (t : EraTree) (D : List ℕ) (i : ℕ) : ℕ :=
  ((t.ancestors t.treeSize i).find? (· ∉ D)).getD
    (((range t.treeSize).find? (· ∉ D)).getD t.treeSize)

namespace Represents

variable {T : RankTree} {F D : Set ℕ} {t : EraTree} {live : Finset ℕ}
  {kids : ℕ → List ℕ} {ρ : ℕ → ℕ}

/-! ### Removing several nodes -/

theorem remove (h : Represents T F t live kids ρ D) {r : ℕ} (hr : r ∈ live) (hF : ρ r ∈ F)
    (hother : ∃ j ∈ live, j ≠ r) :
    ∃ kids' q, Represents T F (eraTreeRemoveNode t r) (live.erase r) kids' ρ
        (insert (ρ r) D) ∧ Removed t (eraTreeRemoveNode t r) live r q := by
  by_cases hp : t.par r = r
  · have hroot : T.IsRoot D (ρ r) := by
      have := h.parent r hr
      rwa [hp] at this
    obtain ⟨j, hj, hjr⟩ := hother
    have hne : ρ j ≠ ρ r := fun e => hjr (h.injective (h.shape.lt j hj) (h.shape.lt r hr) e)
    obtain ⟨c, hc, -⟩ := RankTree.exists_child_of_isRoot hroot (h.rank_mem hr) (h.rank_mem hj)
      (h.rank_notMem hj) hne
    obtain ⟨i, hi, rfl⟩ := h.exists_live hc.member hc.alive
    exact h.remove_root hr hF hp (ne_nil_of_mem ((h.mem_kids_iff hr hi).2 hc))
  · obtain ⟨l₁, l₂, hsplit⟩ := append_of_mem (h.shape.mem_kids_par hr hp)
    obtain ⟨hrep, hrem⟩ := h.remove_inner hr hF hp hsplit
    exact ⟨_, _, hrep, hrem⟩

theorem foldl_remove (h : Represents T F t live kids ρ D) {l : List ℕ} (hl : l.Nodup)
    (hmem : ∀ i ∈ l, i ∈ live) (hF : ∀ i ∈ l, ρ i ∈ F) (hlen : l.length < live.card) :
    (l.foldl eraTreeRemoveNode t).treeSize = t.treeSize ∧
      ∃ kids', Represents T F (l.foldl eraTreeRemoveNode t) (live \ l.toFinset) kids' ρ
        (D ∪ {q | ∃ i ∈ l, ρ i = q}) := by
  induction l generalizing t live kids D with
  | nil => simpa using ⟨kids, h⟩
  | cons r l ih =>
    have hr := hmem r mem_cons_self
    obtain ⟨hrl, hl⟩ := nodup_cons.1 hl
    rw [length_cons] at hlen
    have hother : ∃ j ∈ live, j ≠ r := by
      obtain ⟨j, hj, hjr⟩ := Finset.exists_mem_ne (s := live) (by omega) r
      exact ⟨j, hj, hjr⟩
    obtain ⟨kids₁, q, hrep, hrem⟩ := h.remove hr (hF r mem_cons_self) hother
    have hin : ∀ i ∈ l, i ∈ live.erase r := fun i hi =>
      Finset.mem_erase.2 ⟨fun e => hrl (e ▸ hi), hmem i (mem_cons_of_mem _ hi)⟩
    have hcard : l.length < (live.erase r).card := by
      rw [Finset.card_erase_of_mem hr]
      omega
    obtain ⟨hsize, kids', hrep'⟩ := ih hrep hl hin (fun i hi => hF i (mem_cons_of_mem _ hi)) hcard
    have hlive : live \ (r :: l).toFinset = live.erase r \ l.toFinset := by
      ext i
      simp only [Finset.mem_sdiff, mem_toFinset, mem_cons, Finset.mem_erase, not_or]
      tauto
    have hgone : D ∪ {q | ∃ i ∈ r :: l, ρ i = q} = insert (ρ r) D ∪ {q | ∃ i ∈ l, ρ i = q} := by
      ext q
      simp only [mem_cons, Set.mem_union, Set.mem_ofPred_eq, exists_eq_or_imp,
        Set.mem_insert_iff, eq_comm (a := ρ r)]
      tauto
    rw [foldl_cons, hlive, hgone]
    exact ⟨hsize.trans hrem.size, kids', hrep'⟩

/-! ### The root -/

section

variable (h : Represents T F t live kids ρ D)
include h

theorem rank_le_rank {i j : ℕ} (hij : i ≤ j) (hj : j < t.treeSize) : ρ i ≤ ρ j := by
  rcases hij.eq_or_lt with rfl | hlt
  · exact le_rfl
  · exact (h.mono i j hlt hj).le

theorem par_eq_self_iff {i : ℕ} (hi : i ∈ live) : t.par i = i ↔ ∀ j ∈ live, i ≤ j := by
  constructor
  · intro hp j hj
    have hroot : T.IsRoot D (ρ i) := by
      have := h.parent i hi
      rwa [hp] at this
    by_contra hlt
    exact h.rank_notMem hj (hroot.mem_of_lt (h.rank_mem hi) (h.rank_mem hj)
      (h.mono j i (by omega) (h.shape.lt i hi)))
  · intro hmin
    exact le_antisymm (h.shape.par_le i hi) (hmin _ (h.shape.par_mem i hi))

theorem ranked : Ranked t live kids where
  shape := h.shape
  rank_none i hi := by
    rw [h.rank i hi]
    split <;> simp [*]
  rank_le i hi := by
    have hp : (t.node (t.par i)).rankInComm = some (ρ (t.par i)) :=
      h.rank_of_live (h.shape.par_mem i hi)
    have hr : (t.node i).rankInComm = some (ρ i) := h.rank_of_live hi
    simp only [EraNode.storedRank, hp, hr]
    exact_mod_cast h.rank_le_rank (h.shape.par_le i hi) (h.shape.lt i hi)

theorem eraTreeCheck_eq (hne : live.Nonempty) : eraTreeCheck t = some 0 := by
  refine h.ranked.eraTreeCheck_eq (live.min'_mem hne) fun i hi => ?_
  rw [h.par_eq_self_iff hi]
  constructor
  · exact fun hmin => le_antisymm (hmin _ (live.min'_mem hne)) (live.min'_le i hi)
  · rintro rfl j hj
    exact live.min'_le j hj

end

/-! ### The candidates of a node -/

theorem upTo_eq_map (h : Represents T F t live kids ρ D) {i : ℕ} (hi : i < t.treeSize) :
    T.upTo (ρ i) = (range (i + 1)).map ρ := by
  have hsorted : ((List.range (i + 1)).map ρ).Pairwise (· < ·) := by
    rw [pairwise_map]
    refine List.Pairwise.imp_of_mem ?_ pairwise_lt_range
    intro a b _ hb hab
    exact h.mono a b hab (by have := mem_range.1 hb; omega)
  refine (pairwise_lt_range.filter _).eq_of_mem_iff hsorted fun x => ?_
  change x ∈ T.upTo (ρ i) ↔ _
  rw [RankTree.mem_upTo, h.mem]
  simp only [mem_map, mem_range]
  constructor
  · rintro ⟨⟨j, hj, rfl⟩, hle⟩
    refine ⟨j, ?_, rfl⟩
    by_contra hij
    have := h.mono i j (by omega) hj
    omega
  · rintro ⟨j, hj, rfl⟩
    exact ⟨⟨j, by omega, rfl⟩, h.rank_le_rank (by omega) hi⟩

theorem ancestors_eq_map (h : Represents T F t live kids ρ D)
    (hpar : ∀ i < t.treeSize, T.parent (ρ i) = ρ (t.par i))
    (hle : ∀ i < t.treeSize, t.par i ≤ i) {i k : ℕ} (hi : i < t.treeSize) (hk : i < k) :
    T.ancestors (ρ i) = (t.ancestors k i).map ρ := by
  induction k generalizing i with
  | zero => omega
  | succ k ih =>
    rw [RankTree.ancestors, ancestors, hpar i hi]
    rcases (hle i hi).eq_or_lt with hp | hp
    · rw [if_neg (by rw [hp]; exact lt_irrefl _), if_pos hp]
      rfl
    · rw [if_pos (h.mono _ _ hp hi), if_neg hp.ne, map_cons, ih (hp.trans hi) (by omega)]

end Represents

theorem RankTree.isParent_of_find? {T : RankTree} {D : List ℕ} {v w : ℕ} {ρ : ℕ → ℕ}
    {l : List ℕ} (habove : T.above v = l.map ρ) (hinj : ∀ a ∈ l, ∀ b ∈ D, ρ a = ρ b → a = b)
    (hw : l.find? (· ∉ D) = some w) : T.IsParent {q | ∃ i ∈ D, ρ i = q} v (ρ w) := by
  obtain ⟨hwD, l₁, l₂, hl, hbefore⟩ := find?_eq_some_iff_append.1 hw
  have hwD : w ∉ D := by simpa using hwD
  have hmem : w ∈ l := by simp [hl]
  refine ⟨?_, ?_, ?_⟩
  · rw [habove]
    exact mem_map_of_mem hmem
  · rintro ⟨i, hi, he⟩
    exact hwD (hinj w hmem i hi he.symm ▸ hi)
  · intro x hx
    rw [RankTree.before, habove, hl, map_append, map_cons] at hx
    have hnot : ρ w ∉ l₁.map ρ := by
      intro he
      obtain ⟨a, ha, he⟩ := mem_map.1 he
      have haD : a ∈ D := by simpa using hbefore a ha
      exact hwD (hinj w hmem a haD he.symm ▸ haD)
    rw [takeWhile_ne_append_of_notMem hnot, takeWhile_cons_of_neg (by simp), List.append_nil] at hx
    obtain ⟨a, ha, rfl⟩ := mem_map.1 hx
    exact ⟨a, by simpa using hbefore a ha, rfl⟩

/-! ### The closed form -/

section Repair

variable (topology : Int) (daemon : ℕ → Option ℕ) {n : ℕ} {afr D : List ℕ} {t : EraTree}

theorem EraTree.ancestors_lt (hle : ∀ i < t.treeSize, t.par i ≤ i) {i k a : ℕ}
    (hi : i < t.treeSize) (ha : a ∈ t.ancestors k i) : a < t.treeSize := by
  induction k generalizing i with
  | zero => exact absurd ha not_mem_nil
  | succ k ih =>
    rw [ancestors] at ha
    split at ha
    · exact absurd ha not_mem_nil
    · have hp : t.par i < t.treeSize := (hle i hi).trans_lt hi
      rcases mem_cons.1 ha with rfl | ha
      · exact hp
      · exact ih hp ha

theorem EraTree.repairedParent_find? {i : ℕ} (hi : i < t.treeSize) (hD : i ∉ D) :
    (t.ancestors t.treeSize i ++ range (i + 1)).find? (· ∉ D) = some (t.repairedParent D i) := by
  rw [find?_append, repairedParent]
  cases (t.ancestors t.treeSize i).find? (· ∉ D) with
  | some a => rfl
  | none =>
    have hsome : ((List.range (i + 1)).find? (· ∉ D)).isSome := by
      rw [find?_isSome]
      exact ⟨i, by simp, by simpa using hD⟩
    obtain ⟨w, hw⟩ := Option.isSome_iff_exists.1 hsome
    have hrange : List.range t.treeSize =
        List.range (i + 1) ++ (List.range (t.treeSize - (i + 1))).map (i + 1 + ·) := by
      rw [← range_add]
      congr 1
      omega
    rw [hrange, find?_append, hw]
    rfl

theorem eraBuildTreeStructure_represents (hs : afr.Pairwise (· < ·)) (hn : ∀ d ∈ afr, d < n)
    (ht : t = eraBuildTreeStructure topology daemon n afr) (hnd : D.Nodup)
    (hD : ∀ i ∈ D, i < t.treeSize) (hlen : D.length < t.treeSize) :
    (D.foldl eraTreeRemoveNode t).treeSize = t.treeSize ∧
      ∃ (T : RankTree) (kids : ℕ → List ℕ) (ρ : ℕ → ℕ),
        Represents T Set.univ (D.foldl eraTreeRemoveNode t)
          (Finset.range t.treeSize \ D.toFinset) kids ρ {q | ∃ i ∈ D, ρ i = q} ∧
        (∀ i < t.treeSize, t.rank i = some (ρ i)) ∧
        ∀ i < t.treeSize, i ∉ D →
          T.IsParent {q | ∃ i ∈ D, ρ i = q} (ρ i) (ρ (t.repairedParent D i)) := by
  obtain ⟨⟨kids, hshape⟩, hsize, hrank, hlt⟩ :=
    eraCallTreeFn_shape topology daemon (treeRanks n afr)
  rw [← eraBuildTreeStructure, ← ht] at hshape hsize hrank hlt
  have hsorted := (treeRanks_spec hs hn).1
  have hle : ∀ i < (treeRanks n afr).length, t.par i ≤ i := fun i hi =>
    hshape.par_le i (Finset.mem_range.2 hi)
  have hrep := hshape.represents hsize hsorted hrank hlt hle
  have hpar : ∀ i < t.treeSize, (t.rankTree _ hsorted hle).parent ((treeRanks n afr).getD i 0) =
      (treeRanks n afr).getD (t.par i) 0 := fun i hi =>
    rankTree_parent hsorted hle (hsize ▸ hi)
  rw [← hsize] at hrep hle
  obtain ⟨hsize', kids', hrep'⟩ := Represents.foldl_remove
    { hrep with sub := Set.subset_univ _ } hnd (fun i hi => Finset.mem_range.2 (hD i hi))
    (fun i _ => Set.mem_univ _) (by simpa using hlen)
  rw [Set.empty_union] at hrep'
  refine ⟨hsize', _, kids', _, hrep', fun i hi => hrep.rank_of_live (Finset.mem_range.2 hi),
    fun i hi hiD => ?_⟩
  refine RankTree.isParent_of_find? ?_ ?_ (repairedParent_find? hi hiD)
  · rw [RankTree.above, map_append, hrep.upTo_eq_map hi, hrep.ancestors_eq_map hpar hle hi hi]
  · intro a ha b hb he
    refine hrep.injective ?_ (hD b hb) he
    rcases mem_append.1 ha with ha | ha
    · exact ancestors_lt hle hi ha
    · have := mem_range.1 ha
      omega

/-- Repeated `era_tree_remove_node` on a tree that was built, for any set of nodes
that leaves a survivor and in any order: the array passes `era_tree_check` and holds
exactly the survivors, every parent is the nearest surviving ancestor or else the
smallest survivor, which is the only root, and another order gives the same parents. -/
theorem eraTreeRemoveNode_closed_form (hs : afr.Pairwise (· < ·)) (hn : ∀ d ∈ afr, d < n)
    (ht : t = eraBuildTreeStructure topology daemon n afr) (hnd : D.Nodup)
    (hD : ∀ i ∈ D, i < t.treeSize) (hlen : D.length < t.treeSize) {t' : EraTree}
    (ht' : t' = D.foldl eraTreeRemoveNode t) :
    eraTreeCheck t' = some 0 ∧ t'.treeSize = t.treeSize ∧
      (∀ i < t.treeSize, t'.rank i = if i ∈ D then none else t.rank i) ∧
      (∀ i < t.treeSize, i ∉ D → t'.par i = t.repairedParent D i) ∧
      (∃ m < t.treeSize, m ∉ D ∧ (∀ j < t.treeSize, j ∉ D → m ≤ j) ∧
        ∀ i < t.treeSize, i ∉ D → (t'.par i = i ↔ i = m)) ∧
      ∀ D' : List ℕ, D'.Perm D → ∀ i < t.treeSize, i ∉ D →
        (D'.foldl eraTreeRemoveNode t).par i = t'.par i := by
  have hparent : ∀ E : List ℕ, E.Perm D → ∀ i < t.treeSize, i ∉ D →
      (E.foldl eraTreeRemoveNode t).par i = t.repairedParent E i := by
    intro E hE i hi hiD
    have hiE : i ∉ E := fun e => hiD (hE.mem_iff.1 e)
    have hED : ∀ j ∈ E, j < t.treeSize := fun j hj => hD j (hE.mem_iff.1 hj)
    obtain ⟨hsize, T, kids, ρ, hrep, -, hclosed⟩ := eraBuildTreeStructure_represents topology
      daemon hs hn ht (hE.nodup_iff.2 hnd) hED (hE.length_eq ▸ hlen)
    have hil : i ∈ Finset.range t.treeSize \ E.toFinset := by simp [hi, hiE]
    have hp := hrep.shape.par_mem i hil
    refine hrep.injective (hrep.shape.lt _ hp) ?_
      ((hrep.parent i hil).unique (hclosed i hi hiE))
    -- the closed form names a node of the array
    rw [hsize]
    obtain ⟨-, l₁, l₂, hl, -⟩ := find?_eq_some_iff_append.1
      (repairedParent_find? hi hiE)
    have hmem : t.repairedParent E i ∈ t.ancestors t.treeSize i ++ List.range (i + 1) := by
      simp [hl]
    obtain ⟨⟨kids₀, hshape⟩, hsize₀, -, -⟩ := eraCallTreeFn_shape topology daemon (treeRanks n afr)
    rw [← eraBuildTreeStructure, ← ht] at hshape hsize₀
    rcases mem_append.1 hmem with hmem | hmem
    · refine ancestors_lt (fun j hj => hshape.par_le j ?_) hi hmem
      rwa [Finset.mem_range, ← hsize₀]
    · have := mem_range.1 hmem
      omega
  have hsame : ∀ E : List ℕ, E.Perm D → ∀ i, t.repairedParent E i = t.repairedParent D i := by
    intro E hE i
    simp only [repairedParent, hE.mem_iff]
  subst ht'
  obtain ⟨hsize, T, kids, ρ, hrep, hrank, -⟩ :=
    eraBuildTreeStructure_represents topology daemon hs hn ht hnd hD hlen
  have hlive : ∀ i, i ∈ Finset.range t.treeSize \ D.toFinset ↔ i < t.treeSize ∧ i ∉ D := by
    intro i
    simp
  have hne : (Finset.range t.treeSize \ D.toFinset).Nonempty := by
    rw [← Finset.card_pos]
    have := Finset.le_card_sdiff D.toFinset (Finset.range t.treeSize)
    have hcard := D.toFinset_card_le
    rw [Finset.card_range] at this
    omega
  refine ⟨hrep.eraTreeCheck_eq hne, hsize, fun i hi => ?_, hparent D (List.Perm.refl D), ?_,
    fun D' hD' i hi hiD => ?_⟩
  · rw [hrep.rank i (hsize.symm ▸ hi), hrank i hi]
    by_cases hiD : i ∈ D
    · simp [hiD]
    · simp [hiD, hi]
  · obtain ⟨hm, hmD⟩ := (hlive _).1 (Finset.min'_mem _ hne)
    refine ⟨_, hm, hmD, fun j hj hjD => Finset.min'_le _ j ((hlive j).2 ⟨hj, hjD⟩),
      fun i hi hiD => ?_⟩
    have hil := (hlive i).2 ⟨hi, hiD⟩
    rw [hrep.par_eq_self_iff hil]
    constructor
    · exact fun hmin => le_antisymm (hmin _ (Finset.min'_mem _ hne)) (Finset.min'_le _ i hil)
    · rintro rfl j hj
      exact Finset.min'_le _ j hj
  · rw [hparent D' hD' i hi hiD, hparent D (List.Perm.refl D) i hi hiD, hsame D' hD' i]

/-- The binary tree on five processes loses its root and one of the root's children:
both orders leave node `2` as the root of the other two. -/
theorem eraTreeRemoveNode_closed_form_five : eraTreeCheck (eraTreeRemoveNode (eraTreeRemoveNode
        (eraBuildTreeStructure (-1) (fun _ => none) 5 []) 0) 1) = some 0 ∧
      (eraTreeRemoveNode (eraTreeRemoveNode
        (eraBuildTreeStructure (-1) (fun _ => none) 5 []) 0) 1).par 4 = 2 ∧
      (eraTreeRemoveNode (eraTreeRemoveNode
        (eraBuildTreeStructure (-1) (fun _ => none) 5 []) 1) 0).par 4 = 2 := by
  obtain ⟨hcheck, -, -, hpar, -, horder⟩ := eraTreeRemoveNode_closed_form (-1) (fun _ => none)
    (show ([] : List ℕ).Pairwise (· < ·) by decide) (show ∀ d ∈ [], d < 5 by decide) rfl
    (show [0, 1].Nodup by decide) (by decide) (by decide) rfl
  have hfour := hpar 4 (by decide) (by decide)
  exact ⟨hcheck, hfour.trans (by decide),
    (horder [1, 0] (by decide) 4 (by decide) (by decide)).trans (hfour.trans (by decide))⟩

end Repair

end Ulfm
