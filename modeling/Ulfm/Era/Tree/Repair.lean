import Mathlib.Data.Finset.Card
import Ulfm.Era.Tree.Shape
import Ulfm.Foundation.RankTree

/-!
# Repairing the tree

`Represents T F t …` relates the array `t` of a process that knows of the failures
`F` to the tree `T` that all participants started with: the nodes removed so far
are some of `F`, and the parent of a remaining node is its parent in `T` without
the removed ones. The specifications of `eraParent` and of the loops over
`eraNextChild` follow; both are stated in terms of `T` and `F` alone.
-/

namespace Ulfm

open List Finset Function

/-- The array `t` holds what is left of `T` after the removal of `D`; node `i`
stands for the rank `ρ i`. -/
structure Represents (T : RankTree) (F : Set ℕ) (t : EraTree) (live : Finset ℕ)
    (kids : ℕ → List ℕ) (ρ : ℕ → ℕ) (D : Set ℕ) : Prop where
  shape : Shape t live kids
  mem : ∀ r, r ∈ T.mem ↔ ∃ i < t.treeSize, ρ i = r
  mono : ∀ i j, i < j → j < t.treeSize → ρ i < ρ j
  rank : ∀ i < t.treeSize, t.rank i = if i ∈ live then some (ρ i) else none
  sub : D ⊆ F
  gone : ∀ i < t.treeSize, i ∈ live ↔ ρ i ∉ D
  parent : ∀ i ∈ live, T.IsParent D (ρ i) (ρ (t.par i))

/-- The tree of a process that knows of the failures `F`. -/
def TreeInv (T : RankTree) (F : Set ℕ) (t : EraTree) : Prop :=
  ∃ live kids ρ D, Represents T F t live kids ρ D

/-- The tree of the process `me` once it has looked for its parent: the parent it
has in the array is alive. -/
def Repaired (T : RankTree) (F : Set ℕ) (me : ℕ) (t : EraTree) : Prop :=
  ∃ live kids ρ D, Represents T F t live kids ρ D ∧ ∃ i ∈ live, ρ i = me ∧ ρ (t.par i) ∉ F

theorem Repaired.treeInv {T : RankTree} {F : Set ℕ} {me : ℕ} {t : EraTree}
    (h : Repaired T F me t) : TreeInv T F t := by
  obtain ⟨live, kids, ρ, D, hrep, -⟩ := h
  exact ⟨live, kids, ρ, D, hrep⟩

theorem TreeInv.mono {T : RankTree} {F F' : Set ℕ} {t : EraTree} (h : TreeInv T F t)
    (hF : F ⊆ F') : TreeInv T F' t := by
  obtain ⟨live, kids, ρ, D, hrep⟩ := h
  exact ⟨live, kids, ρ, D, { hrep with sub := hrep.sub.trans hF }⟩

namespace Represents

variable {T : RankTree} {F D : Set ℕ} {t : EraTree} {live : Finset ℕ}
  {kids : ℕ → List ℕ} {ρ : ℕ → ℕ}

section

variable (h : Represents T F t live kids ρ D)
include h

theorem injective {i j : ℕ} (hi : i < t.treeSize)
    (hj : j < t.treeSize) (e : ρ i = ρ j) : i = j := by
  rcases lt_trichotomy i j with hlt | rfl | hlt
  · exact absurd e (h.mono i j hlt hj).ne
  · rfl
  · exact absurd e (h.mono j i hlt hi).ne'

theorem le_rank {i : ℕ} (hi : i < t.treeSize) : i ≤ ρ i := by
  induction i with
  | zero => exact Nat.zero_le _
  | succ i ih =>
    have := h.mono i (i + 1) (by omega) hi
    have := ih (by omega)
    omega

theorem rank_mem {i : ℕ} (hi : i ∈ live) : ρ i ∈ T.mem := (h.mem _).2 ⟨i, h.shape.lt i hi, rfl⟩

theorem rank_notMem {i : ℕ} (hi : i ∈ live) : ρ i ∉ D := (h.gone i (h.shape.lt i hi)).1 hi

theorem exists_live {r : ℕ} (hr : r ∈ T.mem) (hD : r ∉ D) : ∃ i ∈ live, ρ i = r := by
  obtain ⟨i, hi, rfl⟩ := (h.mem r).1 hr
  exact ⟨i, (h.gone i hi).2 hD, rfl⟩

theorem rank_of_live {i : ℕ} (hi : i ∈ live) : t.rank i = some (ρ i) := by
  rw [h.rank i (h.shape.lt i hi), if_pos hi]

theorem card_le : live.card ≤ t.treeSize := by
  have hsub : live ⊆ Finset.range t.treeSize := fun i hi => Finset.mem_range.2 (h.shape.lt i hi)
  simpa using card_le_card hsub

theorem mem_kids_iff {i c : ℕ} (hi : i ∈ live)
    (hc : c ∈ live) : c ∈ kids i ↔ T.IsChild D (ρ i) (ρ c) := by
  rw [h.shape.mem_kids i hi c]
  constructor
  · rintro ⟨-, hpc, hci⟩
    exact ⟨h.rank_mem hc, h.rank_notMem hc,
      fun e => hci (h.injective (h.shape.lt c hc) (h.shape.lt i hi) e), hpc ▸ h.parent c hc⟩
  · intro hchild
    have hpl := h.shape.par_mem c hc
    refine ⟨hc, h.injective (h.shape.lt _ hpl) (h.shape.lt i hi) ?_, ?_⟩
    · exact (h.parent c hc).unique hchild.parent
    · rintro rfl
      exact hchild.ne rfl

end

/-! ### Removing a failed node -/

section Remove

variable {r : ℕ}

section

variable (h : Represents T F t live kids ρ D)
include h

private theorem rank_removed {t' : EraTree} {q : ℕ}
    (hr : r ∈ live) (hrem : Removed t t' live r q) (i : ℕ) (hi : i < t'.treeSize) :
    t'.rank i = if i ∈ live.erase r then some (ρ i) else none := by
  rw [hrem.rank]
  by_cases hir : i = r
  · subst hir
    simp
  · rw [Function.update_of_ne hir, h.rank i (hrem.size ▸ hi)]
    simp [hir]

private theorem gone_removed {i : ℕ} (hr : r ∈ live)
    (hi : i < t.treeSize) : i ∈ live.erase r ↔ ρ i ∉ insert (ρ r) D := by
  rw [mem_erase, Set.mem_insert_iff, not_or, h.gone i hi]
  refine and_congr_left fun _ => not_congr ⟨fun e => e ▸ rfl, fun e => ?_⟩
  exact h.injective hi (h.shape.lt r hr) e

private theorem parent_removed {t' : EraTree} {q : ℕ} (hrem : Removed t t' live r q)
    (horphan : ∀ c ∈ live, t.par c = r → c ≠ r → T.IsParent (insert (ρ r) D) (ρ c) (ρ q))
    (hr : r ∈ live) {i : ℕ} (hi : i ∈ live.erase r) :
    T.IsParent (insert (ρ r) D) (ρ i) (ρ (t'.par i)) := by
  obtain ⟨hne, hil⟩ := mem_erase.1 hi
  rw [hrem.par i hi]
  by_cases hir : t.par i = r
  · rw [if_pos hir]
    exact horphan i hil hir hne
  · rw [if_neg hir]
    refine (h.parent i hil).mono (Set.subset_insert _ _) ?_
    have hpl := h.shape.par_mem i hil
    exact (gone_removed h hr (h.shape.lt _ hpl)).1 (mem_erase.2 ⟨hir, hpl⟩)

theorem remove_inner (hr : r ∈ live) (hF : ρ r ∈ F)
    (hp : t.par r ≠ r) {l₁ l₂ : List ℕ} (hsplit : kids (t.par r) = l₁ ++ r :: l₂) :
    Represents T F (eraTreeRemoveNode t r) (live.erase r)
        (update kids (t.par r) (l₁ ++ kids r ++ l₂)) ρ (insert (ρ r) D) ∧
      Removed t (eraTreeRemoveNode t r) live r (t.par r) := by
  obtain ⟨hshape, hrem⟩ := h.shape.remove_inner hr hp hsplit
  refine ⟨⟨hshape, ?_, ?_, h.rank_removed hr hrem, ?_, ?_, ?_⟩, hrem⟩
  · rw [hrem.size]
    exact h.mem
  · rw [hrem.size]
    exact h.mono
  · exact Set.insert_subset hF h.sub
  · intro i hi
    exact h.gone_removed hr (hrem.size ▸ hi)
  · intro i hi
    refine h.parent_removed hrem (fun c hc hcr _ => ?_) hr hi
    have hpl := h.shape.par_mem r hr
    refine (hcr ▸ h.parent c hc).remove (h.rank_mem hc) (h.parent r hr) fun e => hp ?_
    exact h.injective (h.shape.lt _ hpl) (h.shape.lt r hr) e

theorem remove_root (hr : r ∈ live) (hF : ρ r ∈ F) (hp : t.par r = r) (hne : kids r ≠ []) :
    ∃ kids' q, Represents T F (eraTreeRemoveNode t r) (live.erase r) kids' ρ (insert (ρ r) D) ∧
      Removed t (eraTreeRemoveNode t r) live r q := by
  obtain ⟨m, hm, hmin, ⟨l, hshape⟩, hrem⟩ := h.shape.remove_root hr hp hne
  have hml := ((h.shape.mem_kids r hr m).1 hm).1
  have hroot : T.IsRoot D (ρ r) := by
    have := h.parent r hr
    rwa [hp] at this
  refine ⟨_, m, ⟨hshape, ?_, ?_, h.rank_removed hr hrem, ?_, ?_, ?_⟩, hrem⟩
  · rw [hrem.size]
    exact h.mem
  · rw [hrem.size]
    exact h.mono
  · exact Set.insert_subset hF h.sub
  · intro i hi
    exact h.gone_removed hr (hrem.size ▸ hi)
  · intro i hi
    refine h.parent_removed hrem (fun c hc hcr hne => ?_) hr hi
    refine (hcr ▸ h.parent c hc).remove_root (h.rank_mem hc) hroot ?_ (h.rank_notMem hc)
      ((h.mem_kids_iff hr hml).1 hm) ?_
    · exact fun e => hne (h.injective (h.shape.lt c hc) (h.shape.lt r hr) e)
    · intro v hv
      obtain ⟨j, hj, rfl⟩ := h.exists_live hv.member hv.alive
      rcases (hmin j ((h.mem_kids_iff hr hj).2 hv)).eq_or_lt with rfl | hlt
      · exact le_rfl
      · exact (h.mono m j hlt (h.shape.lt j hj)).le

end

end Remove

/-! ### Finding a rank -/

theorem rankSearch_eq (h : Represents T F t live kids ρ D) {i : ℕ} (hi : i ∈ live) {k : ℕ}
    (hik : i ≤ k) (hk : k < t.treeSize) : rankSearch t (ρ i) k = some i := by
  have hother : ∀ j, j < t.treeSize → j ≠ i → (t.node j).rankInComm ≠ some (ρ i) := by
    intro j hj hne
    have hrank : (t.node j).rankInComm = _ := h.rank j hj
    rw [hrank]
    split
    · exact fun e => hne (h.injective hj (h.shape.lt i hi) (Option.some.inj e))
    · exact fun e => by simp at e
  have hself : (t.node i).rankInComm = some (ρ i) := h.rank_of_live hi
  induction k with
  | zero =>
    obtain rfl : i = 0 := by omega
    rw [rankSearch, if_pos hself]
  | succ k ih =>
    rw [rankSearch]
    by_cases hki : k + 1 = i
    · rw [hki, if_pos hself]
    · rw [if_neg (hother _ hk hki)]
      exact ih (by omega) (by omega)

theorem eraTreeRankFromCommRank_eq (h : Represents T F t live kids ρ D) {i : ℕ}
    (hi : i ∈ live) : eraTreeRankFromCommRank t (ρ i) = some i := by
  have hlt := h.shape.lt i hi
  have hle := h.le_rank hlt
  rw [eraTreeRankFromCommRank]
  split
  · exact h.rankSearch_eq hi (by omega) (by omega)
  · exact h.rankSearch_eq hi hle (by omega)

/-! ### The parent -/

theorem parentLoop_spec {failed : List ℕ} (h : Represents T {q | q ∈ failed} t live kids ρ D)
    {i k : ℕ} (hi : i ∈ live) (hF : ρ i ∉ failed) (hk : live.card ≤ k) :
    ∃ p t', parentLoop failed i k t = some (p, t') ∧ T.IsParent {q | q ∈ failed} (ρ i) p ∧
      Repaired T {q | q ∈ failed} (ρ i) t' := by
  induction k generalizing t live kids D with
  | zero =>
    have : live = ∅ := card_eq_zero.1 (by omega)
    simp [this] at hi
  | succ k ih =>
    have hpl := h.shape.par_mem i hi
    have hrank : (t.node (t.node i).parent).rankInComm = some (ρ (t.par i)) := h.rank_of_live hpl
    rw [parentLoop]
    simp only [hrank]
    by_cases hp : ρ (t.par i) ∈ failed
    · rw [if_pos hp]
      have hpi : t.par i ≠ i := fun e => hF (by rwa [e] at hp)
      have hi' : i ∈ live.erase (t.par i) := mem_erase.2 ⟨hpi.symm, hi⟩
      have hcard : (live.erase (t.par i)).card ≤ k := by
        rw [card_erase_of_mem hpl]
        omega
      by_cases hpp : t.par (t.par i) = t.par i
      · have hkid : i ∈ kids (t.par i) := (h.shape.mem_kids _ hpl i).2 ⟨hi, rfl, hpi.symm⟩
        obtain ⟨kids', q, hrep, -⟩ := h.remove_root hpl hp hpp (ne_nil_of_mem hkid)
        exact ih hrep hi' hcard
      · obtain ⟨l₁, l₂, hsplit⟩ := append_of_mem (h.shape.mem_kids_par hpl hpp)
        exact ih (h.remove_inner hpl hp hpp hsplit).1 hi' hcard
    · rw [if_neg hp]
      exact ⟨_, t, rfl, (h.parent i hi).mono h.sub hp, live, kids, ρ, D, h, i, hi, rfl, hp⟩

end Represents

theorem eraParent_spec {T : RankTree} {failed : List ℕ} {me : ℕ} {t : EraTree}
    (h : TreeInv T {q | q ∈ failed} t) (hm : me ∈ T.mem) (hF : me ∉ failed) :
    ∃ p t', eraParent failed me t = some (p, t') ∧ T.IsParent {q | q ∈ failed} me p ∧
      Repaired T {q | q ∈ failed} me t' := by
  obtain ⟨live, kids, ρ, D, hrep⟩ := h
  obtain ⟨i, hi, rfl⟩ := hrep.exists_live hm fun e => hF (hrep.sub e)
  rw [eraParent, hrep.eraTreeRankFromCommRank_eq hi]
  exact hrep.parentLoop_spec hi hF (hrep.card_le.trans (Nat.le_succ _))

/-! ### The children -/

/-- The loop over the children of the node `i` has seen `done`; what comes next in
the array is still to be looked at. -/
structure Visiting (T : RankTree) (failed : List ℕ) (t : EraTree) (live : Finset ℕ)
    (kids : ℕ → List ℕ) (ρ : ℕ → ℕ) (D : Set ℕ) (i : ℕ) (done rest : List ℕ) : Prop where
  rep : Represents T {q | q ∈ failed} t live kids ρ D
  mem : i ∈ live
  alive : ρ i ∉ failed
  split : kids i = done ++ rest
  done_alive : ∀ c ∈ done, ρ c ∉ failed

namespace Visiting

variable {T : RankTree} {failed : List ℕ} {t : EraTree} {live : Finset ℕ}
  {kids : ℕ → List ℕ} {ρ : ℕ → ℕ} {D : Set ℕ} {i : ℕ} {done rest : List ℕ}

/-- The link that leads to the next child. -/
def link (i : ℕ) (done : List ℕ) (t : EraTree) : ℕ :=
  match done.getLast? with
  | none => (t.node i).firstChild
  | some b => (t.node b).nextSibling

theorem segment_link (h : Visiting T failed t live kids ρ D i done rest) :
    Segment t.next (link i done t) rest t.treeSize := by
  have hchain := h.rep.shape.chain i h.mem
  rw [h.split] at hchain
  rcases eq_nil_or_concat done with rfl | ⟨l, b, rfl⟩
  · exact hchain
  · rw [concat_eq_append, Segment.append_iff] at hchain
    obtain ⟨m, h1, h2⟩ := hchain
    rw [Segment.concat_iff] at h1
    obtain rfl := h1.2
    rw [link, concat_eq_append, getLast?_concat]
    exact h2

theorem remove {c : ℕ} (h : Visiting T failed t live kids ρ D i done (c :: rest))
    (hc : ρ c ∈ failed) :
    Visiting T failed (eraTreeRemoveNode t c) (live.erase c)
        (update kids i (done ++ kids c ++ rest)) ρ (insert (ρ c) D) i done
        (kids c ++ rest) ∧
      (eraTreeRemoveNode t c).treeSize = t.treeSize ∧
      (eraTreeRemoveNode t c).par i = t.par i := by
  obtain ⟨hcl, hci, hne⟩ := (h.rep.shape.mem_kids i h.mem c).1 (by simp [h.split])
  have hic : i ≠ c := hne.symm
  have hi : i ∈ live.erase c := mem_erase.2 ⟨hic, h.mem⟩
  have hsplit : kids (t.par c) = done ++ c :: rest := hci ▸ h.split
  obtain ⟨hrep, hrem⟩ := h.rep.remove_inner hcl hc (hci ▸ hic) hsplit
  rw [hci] at hrep hrem
  refine ⟨⟨hrep, hi, h.alive, by simp, h.done_alive⟩, hrem.size, ?_⟩
  have h1 := h.rep.shape.par_le i h.mem
  have h2 := h.rep.shape.par_le c hcl
  rw [hrem.par i hi, if_neg]
  omega

theorem childLoop_spec (h : Visiting T failed t live kids ρ D i done rest) {k : ℕ}
    (hk : live.card ≤ k) :
    ∃ t' live' kids' D' rest', childLoop failed (link i done) k t = some (rest'.head?.map ρ, t') ∧
      Visiting T failed t' live' kids' ρ D' i done rest' ∧
      (∀ c ∈ rest'.head?, ρ c ∉ failed) ∧ t'.treeSize = t.treeSize ∧ t'.par i = t.par i := by
  induction k generalizing t live kids D rest with
  | zero =>
    have : live = ∅ := card_eq_zero.1 (by omega)
    exact absurd h.mem (by simp [this])
  | succ k ih =>
    have hseg := h.segment_link
    rw [childLoop]
    cases rest with
    | nil =>
      have hend : link i done t = t.treeSize := hseg
      rw [if_pos hend]
      exact ⟨t, live, kids, D, [], rfl, h, by simp, rfl, rfl⟩
    | cons c rest =>
      have hkid : c ∈ kids i := by simp [h.split]
      have hcl := ((h.rep.shape.mem_kids i h.mem c).1 hkid).1
      have hlink : link i done t = c := hseg.head_eq
      have hrank : (t.node c).rankInComm = some (ρ c) := h.rep.rank_of_live hcl
      rw [hlink, if_neg (h.rep.shape.lt c hcl).ne]
      simp only [hrank]
      by_cases hc : ρ c ∈ failed
      · rw [if_pos hc]
        obtain ⟨hvis, hsize, hpar⟩ := h.remove hc
        have hcard : (live.erase c).card ≤ k := by
          rw [card_erase_of_mem hcl]
          omega
        obtain ⟨t', live', kids', D', rest', h1, h2, h3, h4, h5⟩ := ih hvis hcard
        exact ⟨t', live', kids', D', rest', h1, h2, h3, h4.trans hsize, h5.trans hpar⟩
      · rw [if_neg hc]
        exact ⟨t, live, kids, D, c :: rest, rfl, h, by simpa using hc, rfl, rfl⟩

theorem eraNextChild_spec (h : Visiting T failed t live kids ρ D i done rest) :
    ∃ t' live' kids' D' rest',
      eraNextChild failed (ρ i) (done.getLast?.map ρ) t = some (rest'.head?.map ρ, t') ∧
      Visiting T failed t' live' kids' ρ D' i done rest' ∧
      (∀ c ∈ rest'.head?, ρ c ∉ failed) ∧ t'.treeSize = t.treeSize ∧ t'.par i = t.par i := by
  have hk : live.card ≤ t.treeSize + 1 := h.rep.card_le.trans (Nat.le_succ _)
  have hloop := h.childLoop_spec hk
  rcases eq_nil_or_concat done with rfl | ⟨l, b, rfl⟩
  · have hrank := h.rep.eraTreeRankFromCommRank_eq h.mem
    have hlink : link i [] = fun t => (t.node i).firstChild := rfl
    rw [hlink] at hloop
    simpa [eraNextChild, hrank] using hloop
  · simp only [concat_eq_append] at h hloop ⊢
    have hb : b ∈ live := ((h.rep.shape.mem_kids i h.mem b).1 (by simp [h.split])).1
    have hrank := h.rep.eraTreeRankFromCommRank_eq hb
    have hlink : link i (l ++ [b]) = fun t => (t.node b).nextSibling := by
      funext t
      simp [link]
    rw [hlink] at hloop
    simpa [eraNextChild, hrank] using hloop

theorem eraChildrenWhile_spec (ok : ℕ → Bool)
    (h : Visiting T failed t live kids ρ D i done rest) {k : ℕ}
    (hk : t.treeSize < k + done.length) :
    ∃ more all t' live' kids' D' rest', eraChildrenWhile failed (ρ i) ok k (done.getLast?.map ρ) t =
        some (more.map ρ, all, t') ∧
      Visiting T failed t' live' kids' ρ D' i (done ++ more) rest' ∧ t'.par i = t.par i ∧
      (all = true → rest' = [] ∧ ∀ c ∈ more, ok (ρ c)) ∧
      (all = false → ∃ c ∈ more, ok (ρ c) = false) := by
  induction k generalizing t live kids D done rest with
  | zero =>
    have hnd := h.rep.shape.nodup i h.mem
    rw [h.split] at hnd
    have hlen := length_le_of_nodup (nodup_append.1 hnd).1 fun c hc =>
      h.rep.shape.kids_lt h.mem (by simp [h.split, hc])
    omega
  | succ k ih =>
    obtain ⟨t', live', kids', D', rest', hnext, hvis, halive, hsize, hpar⟩ := h.eraNextChild_spec
    rw [eraChildrenWhile, hnext]
    cases rest' with
    | nil =>
      exact ⟨[], true, t', live', kids', D', [], by simp, by simpa using hvis, hpar,
        by simp, by simp⟩
    | cons c rest' =>
      have hc : ρ c ∉ failed := halive c (by simp)
      have hvis' : Visiting T failed t' live' kids' ρ D' i (done ++ [c]) rest' :=
        { rep := hvis.rep
          mem := hvis.mem
          alive := hvis.alive
          split := by simp [hvis.split]
          done_alive := fun d hd => by
            rcases mem_append.1 hd with hd | hd
            · exact hvis.done_alive d hd
            · exact List.mem_singleton.1 hd ▸ hc }
      by_cases hok : ok (ρ c)
      · obtain ⟨more, all, t'', live'', kids'', D'', rest'', h1, h2, h3, h4, h5⟩ :=
          ih hvis' (by rw [hsize, length_append, length_singleton]; omega)
        refine ⟨c :: more, all, t'', live'', kids'', D'', rest'', ?_, by simpa using h2,
          h3.trans hpar, fun e => ⟨(h4 e).1, ?_⟩, fun e => ?_⟩
        · have hlast : (done ++ [c]).getLast?.map ρ = some (ρ c) := by simp
          rw [hlast] at h1
          simp [hok, h1]
        · intro d hd
          rcases List.mem_cons.1 hd with rfl | hd
          · exact hok
          · exact (h4 e).2 d hd
        · obtain ⟨d, hd, hd'⟩ := h5 e
          exact ⟨d, by simp [hd], hd'⟩
      · exact ⟨[c], false, t', live', kids', D', rest', by simp [hok], hvis', hpar, by simp,
          fun _ => ⟨c, by simp, by simpa using hok⟩⟩

end Visiting

section Children

variable {T : RankTree} {failed : List ℕ} {me : ℕ} {t : EraTree}

/-- What a loop over the children finds: real children, and all of them when the
loop runs to the end in a tree whose parent link has been repaired. -/
structure Children (T : RankTree) (failed : List ℕ) (me : ℕ) (t t' : EraTree) (rs : List ℕ)
    (all : Bool) : Prop where
  inv : TreeInv T {q | q ∈ failed} t'
  child : ∀ r ∈ rs, T.IsChild {q | q ∈ failed} me r
  repaired : Repaired T {q | q ∈ failed} me t → Repaired T {q | q ∈ failed} me t'
  complete : Repaired T {q | q ∈ failed} me t → all = true →
    ∀ r, T.IsChild {q | q ∈ failed} me r → r ∈ rs

private theorem Visiting.children {live live' : Finset ℕ} {kids kids' : ℕ → List ℕ}
    {ρ : ℕ → ℕ} {D D' : Set ℕ} {i : ℕ} {more rest' : List ℕ} {t' : EraTree} {all : Bool}
    (h : Represents T {q | q ∈ failed} t live kids ρ D) (hi : i ∈ live)
    (hv : Visiting T failed t' live' kids' ρ D' i more rest') (hpar : t'.par i = t.par i)
    (hall : all = true → rest' = []) :
    Children T failed (ρ i) t t' (more.map ρ) all := by
  have hparent : Repaired T {q | q ∈ failed} (ρ i) t → ρ (t.par i) ∉ failed := by
    rintro ⟨live₂, kids₂, ρ₂, D₂, hrep, j, hj, hji, hp⟩
    have hj' : t.rank j = some (ρ₂ j) := hrep.rank_of_live hj
    have hji' : j = i := by
      have h1 := hrep.eraTreeRankFromCommRank_eq hj
      rw [hji, h.eraTreeRankFromCommRank_eq hi] at h1
      exact (Option.some.inj h1).symm
    subst hji'
    have h1 := h.rank_of_live (h.shape.par_mem j hi)
    rw [hrep.rank_of_live (hrep.shape.par_mem j hj)] at h1
    exact Option.some.inj h1 ▸ hp
  have hsound : ∀ c ∈ more, T.IsChild {q | q ∈ failed} (ρ i) (ρ c) := by
    intro c hc
    have hkid : c ∈ kids' i := by simp [hv.split, hc]
    have hcl := ((hv.rep.shape.mem_kids i hv.mem c).1 hkid).1
    have hchild := (hv.rep.mem_kids_iff hv.mem hcl).1 hkid
    exact ⟨hchild.member, hv.done_alive c hc, hchild.ne, hchild.parent.mono hv.rep.sub hv.alive⟩
  refine ⟨⟨live', kids', ρ, D', hv.rep⟩, ?_, fun hr => ?_, fun hr ht r hchild => ?_⟩
  · intro r hr
    obtain ⟨c, hc, rfl⟩ := List.mem_map.1 hr
    exact hsound c hc
  · exact ⟨live', kids', ρ, D', hv.rep, i, hv.mem, rfl, by
      rw [hpar]
      exact hparent hr⟩
  · -- all the children in the array are alive, so none is hidden behind a failed one
    have hnil := hall ht
    have hkids : ∀ z, T.IsChild D' (ρ i) z → z ∈ more.map ρ := by
      intro z hz
      obtain ⟨c, hc, rfl⟩ := hv.rep.exists_live hz.member hz.alive
      have hkid := (hv.rep.mem_kids_iff hv.mem hc).2 hz
      rw [hv.split, hnil, List.append_nil] at hkid
      exact List.mem_map_of_mem hkid
    have halive : ∀ z, T.IsChild D' (ρ i) z → z ∉ {q | q ∈ failed} := fun z hz => by
      obtain ⟨c, hc, rfl⟩ := List.mem_map.1 (hkids z hz)
      exact hv.done_alive c hc
    have hp : ∃ p, p ∉ {q | q ∈ failed} ∧ T.IsParent D' (ρ i) p :=
      ⟨ρ (t'.par i), by rw [hpar]; exact hparent hr, hv.rep.parent i hv.mem⟩
    have hD : r ∉ D' := fun e => hchild.alive (hv.rep.sub e)
    refine hkids r ⟨hchild.member, hD, hchild.ne, ?_⟩
    exact RankTree.IsParent.of_children_alive hv.rep.sub (hv.rep.rank_mem hv.mem) hv.alive hp
      halive hchild.member hD hchild.ne hchild.parent.mem hchild.parent.skip

theorem eraChildrenWhile_spec (ok : ℕ → Bool) (h : TreeInv T {q | q ∈ failed} t)
    (hm : me ∈ T.mem) (hF : me ∉ failed) :
    ∃ rs all t', eraChildrenWhile failed me ok (t.treeSize + 1) none t = some (rs, all, t') ∧
      Children T failed me t t' rs all ∧ (all = true → ∀ r ∈ rs, ok r) ∧
      (all = false → ∃ r ∈ rs, ok r = false) := by
  obtain ⟨live, kids, ρ, D, hrep⟩ := h
  obtain ⟨i, hi, rfl⟩ := hrep.exists_live hm fun e => hF (hrep.sub e)
  have hvis : Visiting T failed t live kids ρ D i [] (kids i) := ⟨hrep, hi, hF, rfl, by simp⟩
  obtain ⟨more, all, t', live', kids', D', rest', h1, h2, h3, h4, h5⟩ :=
    hvis.eraChildrenWhile_spec ok (k := t.treeSize + 1) (by simp)
  refine ⟨more.map ρ, all, t', h1, Visiting.children hrep hi h2 h3 fun e => (h4 e).1, ?_, ?_⟩
  · intro e r hr
    obtain ⟨c, hc, rfl⟩ := List.mem_map.1 hr
    exact (h4 e).2 c hc
  · intro e
    obtain ⟨c, hc, hc'⟩ := h5 e
    exact ⟨ρ c, List.mem_map_of_mem hc, hc'⟩

theorem eraChildren_spec (h : TreeInv T {q | q ∈ failed} t) (hm : me ∈ T.mem) (hF : me ∉ failed) :
    ∃ rs t', eraChildren failed me t = some (rs, t') ∧ Children T failed me t t' rs true := by
  obtain ⟨rs, all, t', h1, h2, -, h3⟩ := eraChildrenWhile_spec (fun _ => true) h hm hF
  have hall : all = true := by
    cases all with
    | true => rfl
    | false => simpa using h3 rfl
  subst hall
  exact ⟨rs, t', by simp [eraChildren, h1], h2⟩

end Children

end Ulfm
