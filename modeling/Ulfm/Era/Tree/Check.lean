import Mathlib.Algebra.Order.BigOperators.Group.Finset
import Ulfm.Era.Tree.Hierarchy

/-!
# Checking the tree

`eraTreeCheck` is the consistency check of a debug build: it counts the errors it
finds, and the process stops on an assertion unless there are none. An array with
the shape of a tree and one root passes it. `eraDebugWalkTree` follows the first
children and the next siblings from one node on; from the root of such an array it
meets every node once.
-/

namespace Ulfm

open List Option Finset

/-! ### The check -/

/-- The number stored for the rank of a node. -/
def EraNode.storedRank (n : EraNode) : Int :=
  match n.rankInComm with
  | some r => r
  | none => -1

/-- The first loop of `era_tree_check_node`: whether the chain from `c` on meets `r`
before it ends; `none` if it does neither within the given number of cells. -/
def meetsSibling (t : EraTree) (r : ℕ) : ℕ → ℕ → Option Bool
  | 0, _ => none
  | k + 1, c =>
    if c = r then some true
    else if c = t.treeSize then some false
    else meetsSibling t r k (t.node c).nextSibling

/-- The second loop of `era_tree_check_node`, which counts the children from `c` on
and the errors. Once `treeSize` children are counted, one more is an error that
ends the loop. -/
def checkChildren (t : EraTree) (r : ℕ) : ℕ → ℕ → ℕ × ℕ
  | 0, c =>
    if c = t.treeSize then (0, 0)
    else (1, (if (t.node c).parent ≠ r then 1 else 0) + 1)
  | left + 1, c =>
    if c = t.treeSize then (0, 0)
    else
      let rest := checkChildren t r left (t.node c).nextSibling
      (rest.1 + 1, (if (t.node c).parent ≠ r then 1 else 0) + rest.2)

/-- Whether a node is found among the children of its parent. -/
def knownToParent (t : EraTree) (r : ℕ) : Option Bool :=
  let p := (t.node r).parent
  if p ≠ r then meetsSibling t r (t.treeSize + 1) (t.node p).firstChild else some true

/-- `era_tree_check_node`: the number of children of `r` and of the errors. -/
def eraTreeCheckNode (t : EraTree) (r : ℕ) : Option (ℕ × ℕ) := do
  let known ← knownToParent t r
  let orphan := if known then 0 else 1
  let broken := if (t.node r).storedRank < (t.node (t.node r).parent).storedRank then 1 else 0
  let (nb, bad) := checkChildren t r t.treeSize (t.node r).firstChild
  some (nb, orphan + broken + bad)

/-- The counters of `era_tree_check`. -/
structure TreeCount where
  root : ℕ
  children : ℕ
  nodes : ℕ
  errors : ℕ
deriving DecidableEq

/-- One turn of the loop of `era_tree_check`. -/
def checkStep (t : EraTree) (s : TreeCount) (r : ℕ) : Option TreeCount :=
  if (t.node r).rankInComm = none then some s
  else do
    let isRoot := (t.node r).parent = r
    let (nb, bad) ← eraTreeCheckNode t r
    some
      { root := s.root + if isRoot then 1 else 0
        children := s.children + nb
        nodes := s.nodes + 1
        errors := s.errors + bad + if isRoot ∧ (t.node r).nextSibling ≠ t.treeSize then 1 else 0 }

/-- `era_tree_check`: the number of errors, of which the assertion at its end
accepts none. -/
def eraTreeCheck (t : EraTree) : Option ℕ := do
  let s ← (List.range t.treeSize).foldlM (checkStep t) ⟨0, 0, 0, 0⟩
  some (s.errors + (if s.root ≠ 1 then 1 else 0) + if s.children + 1 ≠ s.nodes then 1 else 0)

/-- `era_debug_walk_tree`: the nodes it meets from `i` on. -/
def eraDebugWalkTree (t : EraTree) : ℕ → ℕ → List ℕ
  | 0, _ => []
  | k + 1, i =>
    i :: ((if (t.node i).firstChild ≠ t.treeSize then
        eraDebugWalkTree t k (t.node i).firstChild else []) ++
      if (t.node i).nextSibling ≠ t.treeSize then
        eraDebugWalkTree t k (t.node i).nextSibling else [])

/-! ### A tree passes the check -/

theorem meetsSibling_of_mem {t : EraTree} {r c k : ℕ} {l : List ℕ}
    (h : Segment t.next c l t.treeSize) (hl : ∀ d ∈ l, d < t.treeSize) (hr : r ∈ l)
    (hk : l.length ≤ k) : meetsSibling t r k c = some true := by
  induction l generalizing c k with
  | nil => exact absurd hr not_mem_nil
  | cons d l ih =>
    obtain ⟨rfl, h⟩ := h
    obtain ⟨k, rfl⟩ : ∃ m, k = m + 1 := ⟨k - 1, by simp at hk; omega⟩
    rw [meetsSibling]
    by_cases hcr : c = r
    · rw [if_pos hcr]
    · have hc : c ≠ t.treeSize := (hl c List.mem_cons_self).ne
      rw [if_neg hcr, if_neg hc]
      exact ih h (fun d hd => hl d (List.mem_cons_of_mem _ hd))
        ((List.mem_cons.1 hr).resolve_left (Ne.symm hcr)) (by simpa using hk)

theorem checkChildren_eq {t : EraTree} {r c left : ℕ} {l : List ℕ}
    (h : Segment t.next c l t.treeSize) (hl : ∀ d ∈ l, d < t.treeSize ∧ t.par d = r)
    (hleft : l.length ≤ left) : checkChildren t r left c = (l.length, 0) := by
  induction l generalizing c left with
  | nil =>
    rw [Segment.nil_iff] at h
    cases left <;> simp [checkChildren, h]
  | cons d l ih =>
    obtain ⟨rfl, h⟩ := h
    obtain ⟨left, rfl⟩ : ∃ m, left = m + 1 := ⟨left - 1, by simp at hleft; omega⟩
    obtain ⟨hc, hp⟩ := hl c List.mem_cons_self
    have hp : ¬ (t.node c).parent ≠ r := fun e => e hp
    have hrest : checkChildren t r left (t.node c).nextSibling = (l.length, 0) :=
      ih h (fun d hd => hl d (List.mem_cons_of_mem _ hd)) (by simpa using hleft)
    rw [checkChildren, if_neg hc.ne]
    simp only [hrest, if_neg hp, length_cons, Nat.add_zero]

/-- The array `t` holds a tree on `live`, whose nodes carry ranks that increase
with the index. -/
structure Ranked (t : EraTree) (live : Finset ℕ) (kids : ℕ → List ℕ) : Prop where
  shape : Shape t live kids
  rank_none : ∀ i < t.treeSize, t.rank i = none ↔ i ∉ live
  rank_le : ∀ i ∈ live, (t.node (t.par i)).storedRank ≤ (t.node i).storedRank

namespace Ranked

variable {t : EraTree} {live : Finset ℕ} {kids : ℕ → List ℕ}

section

variable (h : Ranked t live kids)
include h

theorem length_kids_le {i : ℕ} (hi : i ∈ live) : (kids i).length ≤ t.treeSize :=
  length_le_of_nodup (h.shape.nodup i hi) fun _ hc => h.shape.kids_lt hi hc

theorem eraTreeCheckNode_eq {r : ℕ} (hr : r ∈ live) :
    eraTreeCheckNode t r = some ((kids r).length, 0) := by
  have hknown : knownToParent t r = some true := by
    unfold knownToParent
    dsimp only
    split
    · next hp =>
        have hpl := h.shape.par_mem r hr
        exact meetsSibling_of_mem (h.shape.chain _ hpl) (fun d hd => h.shape.kids_lt hpl hd)
          (h.shape.mem_kids_par hr hp) ((h.length_kids_le hpl).trans (Nat.le_succ _))
    · rfl
  have hbroken : ¬ (t.node r).storedRank < (t.node (t.node r).parent).storedRank :=
    not_lt.2 (h.rank_le r hr)
  have hchildren : checkChildren t r t.treeSize (t.node r).firstChild = ((kids r).length, 0) :=
    checkChildren_eq (h.shape.chain r hr)
      (fun d hd => ⟨h.shape.kids_lt hr hd, ((h.shape.mem_kids r hr d).1 hd).2.1⟩)
      (h.length_kids_le hr)
  simp only [eraTreeCheckNode, hknown, hchildren, if_neg hbroken, bind_eq_bind,
    bind_some, if_true, Nat.add_zero]

theorem foldlM_checkStep {k : ℕ} (hk : k ≤ t.treeSize) :
    (List.range k).foldlM (checkStep t) ⟨0, 0, 0, 0⟩ = some
        { root := {i ∈ Finset.range k | i ∈ live ∧ t.par i = i}.card
          children := ∑ i ∈ Finset.range k with i ∈ live, (kids i).length
          nodes := {i ∈ Finset.range k | i ∈ live}.card
          errors := 0 } := by
  induction k with
  | zero => simp
  | succ k ih =>
    rw [range_succ, foldlM_append, ih (by omega)]
    have hrank : (t.node k).rankInComm = none ↔ k ∉ live := h.rank_none k (by omega)
    by_cases hkl : k ∈ live
    · have hpar : (t.node k).parent = t.par k := rfl
      simp only [bind_eq_bind, bind_some, foldlM_cons, foldlM_nil,
        checkStep, hrank, hkl, not_true_eq_false, if_false, h.eraTreeCheckNode_eq hkl,
        Option.pure_def, range_add_one, filter_insert, if_true, true_and,
        Nat.add_zero, hpar]
      by_cases hroot : t.par k = k
      · have hnext : (t.node k).nextSibling = t.treeSize := h.shape.root_next k hkl hroot
        simp [hroot, hnext, sum_insert, Nat.add_comm]
      · simp [hroot, sum_insert, Nat.add_comm]
    · simp [checkStep, hrank, hkl, range_add_one, filter_insert]

theorem sum_length_kids {m : ℕ} (hm : m ∈ live) (hroot : ∀ i ∈ live, t.par i = i ↔ i = m) :
    ∑ i ∈ live, (kids i).length + 1 = live.card := by
  have hfiber : ∀ b ∈ live, {a ∈ live.erase m | t.par a = b}.card = (kids b).length := by
    intro b hb
    rw [← toFinset_card_of_nodup (h.shape.nodup b hb)]
    congr 1
    ext a
    simp only [Finset.mem_filter, mem_erase, List.mem_toFinset, h.shape.mem_kids b hb a]
    constructor
    · rintro ⟨⟨ham, hal⟩, rfl⟩
      exact ⟨hal, rfl, fun e => ham ((hroot a hal).1 e.symm)⟩
    · rintro ⟨hal, rfl, hne⟩
      exact ⟨⟨fun e => hne ((hroot a hal).2 e).symm, hal⟩, rfl⟩
  have hcard := card_eq_sum_card_fiberwise (f := t.par) (s := live.erase m) (t := live)
    fun a ha => h.shape.par_mem a (Finset.mem_of_mem_erase ha)
  rw [sum_congr rfl hfiber] at hcard
  rw [← hcard, card_erase_add_one hm]

theorem eraTreeCheck_eq {m : ℕ} (hm : m ∈ live)
    (hroot : ∀ i ∈ live, t.par i = i ↔ i = m) : eraTreeCheck t = some 0 := by
  have hlive : {i ∈ Finset.range t.treeSize | i ∈ live} = live := by
    ext i
    simp only [Finset.mem_filter, Finset.mem_range]
    exact ⟨fun e => e.2, fun e => ⟨h.shape.lt i e, e⟩⟩
  have hone : {i ∈ Finset.range t.treeSize | i ∈ live ∧ t.par i = i} = {m} := by
    ext i
    simp only [Finset.mem_filter, Finset.mem_range, Finset.mem_singleton]
    constructor
    · rintro ⟨-, hi, hp⟩
      exact (hroot i hi).1 hp
    · rintro rfl
      exact ⟨h.shape.lt i hm, hm, (hroot i hm).2 rfl⟩
  rw [eraTreeCheck, h.foldlM_checkStep le_rfl, hlive, hone]
  simp [h.sum_length_kids hm hroot]

end

end Ranked

/-! ### The walk meets every node once -/

/-- The nodes below `i`, down to the given depth, in the order of the walk. -/
def descend (kids : ℕ → List ℕ) : ℕ → ℕ → List ℕ
  | 0, _ => []
  | k + 1, i => i :: (kids i).flatMap (descend kids k)

namespace Shape

variable {t : EraTree} {live : Finset ℕ} {kids : ℕ → List ℕ}

theorem lt_of_mem_kids (h : Shape t live kids) {i c : ℕ} (hi : i ∈ live) (hc : c ∈ kids i) :
    i < c :=
  lt_of_le_of_ne (h.le_of_mem_kids hi hc) ((h.mem_kids i hi c).1 hc).2.2.symm

theorem kids_live (h : Shape t live kids) {i c : ℕ} (hi : i ∈ live) (hc : c ∈ kids i) : c ∈ live :=
  ((h.mem_kids i hi c).1 hc).1

theorem descend_eq_of_le (h : Shape t live kids) {i k k' : ℕ} (hi : i ∈ live)
    (hk : t.treeSize ≤ i + k) (hk' : t.treeSize ≤ i + k') :
    descend kids k i = descend kids k' i := by
  have hlt := h.lt i hi
  induction k generalizing i k' with
  | zero => omega
  | succ k ih =>
    obtain ⟨k', rfl⟩ : ∃ m, k' = m + 1 := ⟨k' - 1, by omega⟩
    rw [descend, descend]
    congr 1
    refine flatMap_congr fun c hc => ?_
    have hic := h.lt_of_mem_kids hi hc
    exact ih (h.kids_live hi hc) (by omega) (by omega) (h.kids_lt hi hc)

/-- All the nodes below `i`. -/
def below (t : EraTree) (kids : ℕ → List ℕ) (i : ℕ) : List ℕ := descend kids t.treeSize i

section

variable (h : Shape t live kids)
include h

theorem below_eq {i : ℕ} (hi : i ∈ live) :
    below t kids i = i :: (kids i).flatMap (below t kids) := by
  have hlt := h.lt i hi
  have hsucc : descend kids t.treeSize i = descend kids (t.treeSize + 1) i :=
    h.descend_eq_of_le hi (by omega) (by omega)
  rw [below, hsucc, descend]
  rfl

theorem mem_below {i x : ℕ} (hi : i ∈ live) (hx : x ∈ below t kids i) : x ∈ live ∧ i ≤ x := by
  induction hd : t.treeSize - i using Nat.strong_induction_on generalizing i with
  | _ d ih =>
    rw [h.below_eq hi, List.mem_cons, mem_flatMap] at hx
    rcases hx with rfl | ⟨c, hc, hx⟩
    · exact ⟨hi, le_rfl⟩
    · have hic := h.lt_of_mem_kids hi hc
      have hcl := h.kids_live hi hc
      have hct := h.lt c hcl
      obtain ⟨hxl, hcx⟩ := ih (t.treeSize - c) (by omega) hcl hx rfl
      exact ⟨hxl, hic.le.trans hcx⟩

theorem count_below_eq_zero {i x : ℕ} (hi : i ∈ live) (hx : x < i) : (below t kids i).count x = 0 :=
  count_eq_zero.2 fun e => absurd (h.mem_below hi e).2 (by omega)

theorem count_below_self {i : ℕ} (hi : i ∈ live) : (below t kids i).count i = 1 := by
  have hrest : ((kids i).flatMap (below t kids)).count i = 0 := by
    refine count_eq_zero.2 fun e => ?_
    obtain ⟨c, hc, he⟩ := mem_flatMap.1 e
    have := (h.mem_below (h.kids_live hi hc) he).2
    have := h.lt_of_mem_kids hi hc
    omega
  rw [h.below_eq hi, count_cons_self, hrest]

theorem count_below_par {c x : ℕ} (hc : c ∈ live) (hx : x ∈ live)
    (hne : x ≠ c) : (below t kids c).count x = (below t kids c).count (t.par x) := by
  induction hd : t.treeSize - c using Nat.strong_induction_on generalizing c with
  | _ d ih =>
    -- the children of `c` other than `x` have the property
    have hkid : ∀ e ∈ kids c, x ≠ e →
        (below t kids e).count x = (below t kids e).count (t.par x) := by
      intro e he hxe
      have hce := h.lt_of_mem_kids hc he
      have het := h.kids_lt hc he
      exact ih (t.treeSize - e) (by omega) (h.kids_live hc he) hxe rfl
    by_cases hpar : t.par x = c
    · have hxk : x ∈ kids c := (h.mem_kids c hc x).2 ⟨hx, hpar, hne⟩
      obtain ⟨l₁, l₂, hl⟩ := append_of_mem hxk
      have hnd : (l₁ ++ x :: l₂).Nodup := hl ▸ h.nodup c hc
      have hother : ∀ l : List ℕ, x ∉ l → (∀ e ∈ l, e ∈ kids c) →
          (l.flatMap (below t kids)).count x = 0 := by
        intro l hxl hsub
        refine count_eq_zero.2 fun hmem => ?_
        obtain ⟨e, he, hxe⟩ := mem_flatMap.1 hmem
        have hek := hsub e he
        have hzero : (below t kids e).count x = 0 := by
          rw [hkid e hek fun e' => hxl (e' ▸ he), hpar]
          exact h.count_below_eq_zero (h.kids_live hc hek) (h.lt_of_mem_kids hc hek)
        exact count_eq_zero.1 hzero hxe
      have hx₁ : x ∉ l₁ := fun e => (nodup_append.1 hnd).2.2 x e x (by simp) rfl
      have hx₂ : x ∉ l₂ := (nodup_cons.1 (nodup_append.1 hnd).2.1).1
      rw [hpar, h.count_below_self hc, h.below_eq hc, count_cons_of_ne hne.symm, hl,
        flatMap_append, flatMap_cons, count_append, count_append,
        hother l₁ hx₁ (by simp +contextual [hl]), hother l₂ hx₂ (by simp +contextual [hl]),
        h.count_below_self hx]
    · have hxk : x ∉ kids c := fun e => hpar ((h.mem_kids c hc x).1 e).2.1
      rw [h.below_eq hc, count_cons_of_ne hne.symm, count_cons_of_ne (Ne.symm hpar),
        count_flatMap, count_flatMap]
      refine congrArg List.sum (map_congr_left fun e he => ?_)
      exact hkid e he fun e' => hxk (e' ▸ he)

theorem count_below_root {m x : ℕ} (hm : m ∈ live)
    (hroot : ∀ i ∈ live, t.par i = i → i = m) (hx : x ∈ live) :
    (below t kids m).count x = 1 := by
  induction x using Nat.strong_induction_on with
  | _ x ih =>
    by_cases hxm : x = m
    · rw [hxm, h.count_below_self hm]
    · have hne : t.par x ≠ x := fun e => hxm (hroot x hx e)
      rw [h.count_below_par hm hx hxm]
      exact ih _ (lt_of_le_of_ne (h.par_le x hx) hne) (h.par_mem x hx)

theorem eraDebugWalkTree_eq {k c : ℕ} {l : List ℕ}
    (hseg : Segment t.next c l t.treeSize) (hl : ∀ d ∈ l, d ∈ live)
    (hk : (l.flatMap (below t kids)).length ≤ k) :
    (if c ≠ t.treeSize then eraDebugWalkTree t k c else []) = l.flatMap (below t kids) := by
  induction k generalizing c l with
  | zero =>
    cases l with
    | nil => rw [if_neg (not_not.2 (Segment.nil_iff.1 hseg)), flatMap_nil]
    | cons d l =>
      rw [flatMap_cons, h.below_eq (hl d List.mem_cons_self)] at hk
      simp at hk
  | succ k ih =>
    cases l with
    | nil => rw [if_neg (not_not.2 (Segment.nil_iff.1 hseg)), flatMap_nil]
    | cons d l =>
      obtain ⟨rfl, hseg⟩ := hseg
      have hc := hl c List.mem_cons_self
      rw [flatMap_cons, h.below_eq hc] at hk
      simp only [cons_append, length_cons, length_append] at hk
      have hfirst := ih (h.chain c hc) (fun d hd => h.kids_live hc hd) (by omega)
      have hnext := ih hseg (fun d hd => hl d (List.mem_cons_of_mem _ hd)) (by omega)
      rw [if_pos (h.lt c hc).ne, flatMap_cons, h.below_eq hc, eraDebugWalkTree]
      exact congrArg (List.cons c) (congrArg₂ (· ++ ·) hfirst hnext)

theorem eraDebugWalkTree_perm {m : ℕ} (hm : m ∈ live) (hroot : ∀ i ∈ live, t.par i = i ↔ i = m) :
    (eraDebugWalkTree t t.treeSize m).Perm ((List.range t.treeSize).filter (· ∈ live)) := by
  have hmem : ∀ x, x ∈ (List.range t.treeSize).filter (· ∈ live) ↔ x ∈ live := by
    intro x
    simpa using h.lt x
  have hperm : (below t kids m).Perm ((List.range t.treeSize).filter (· ∈ live)) := by
    refine perm_iff_count.2 fun x => ?_
    by_cases hx : x ∈ live
    · rw [h.count_below_root hm (fun i hi => (hroot i hi).1) hx,
        count_eq_one_of_mem (nodup_range.filter _) ((hmem x).2 hx)]
    · rw [count_eq_zero.2 fun e => hx (h.mem_below hm e).1,
        count_eq_zero.2 fun e => hx ((hmem x).1 e)]
  have hlen : (below t kids m).length ≤ t.treeSize := by
    rw [hperm.length_eq]
    exact (length_filter_le _ _).trans (by simp)
  have hwalk := h.eraDebugWalkTree_eq (k := t.treeSize) (c := m) (l := [m])
    ⟨rfl, h.root_next m hm ((hroot m hm).2 rfl)⟩ (by simpa using hm) (by simpa using hlen)
  rw [if_pos (h.lt m hm).ne] at hwalk
  rw [hwalk]
  simpa using hperm

end

end Shape

/-! ### The tree that is built -/

section

variable {n : ℕ} {afr : List ℕ} (hs : afr.Pairwise (· < ·)) (hn : ∀ d ∈ afr, d < n)
include hs hn

theorem treeRanks_eq_filter : treeRanks n afr = (List.range n).filter (· ∉ afr) := by
  obtain ⟨hsorted, hmem⟩ := treeRanks_spec hs hn
  refine hsorted.eq_of_mem_iff (pairwise_lt_range.filter _) fun r => ?_
  rw [hmem, List.mem_filter, List.mem_range]
  simp

theorem length_treeRanks : (treeRanks n afr).length = n - afr.length := by
  have hlen : afr.length ≤ n := length_le_of_nodup (hs.imp fun h => h.ne) hn
  refine (rankLoop_spec (n - afr.length) 0 afr 0 hs (by simp) fun d hd => ?_).1
  have := hn d hd
  omega

end

/-- `era_build_tree_structure` for every size, sorted list of agreed failed ranks,
placement of the ranks on daemons and topology: the nodes are the other ranks in
ascending order, node `0` is the only root, the walk over first children and next
siblings meets every node once, the chain of a node holds the nodes that have it as
their parent, parents have the smaller ranks, and every rank is found. -/
theorem eraBuildTreeStructure_tree (topology : Int) (daemon : ℕ → Option ℕ) {n : ℕ}
    {afr : List ℕ} (hs : afr.Pairwise (· < ·)) (hn : ∀ d ∈ afr, d < n)
    (hlen : afr.length < n) {t : EraTree}
    (ht : t = eraBuildTreeStructure topology daemon n afr) :
    t.treeSize = n - afr.length ∧
      (List.range t.treeSize).map t.rank = ((List.range n).filter (· ∉ afr)).map some ∧
      (∀ i < t.treeSize, t.par i = i ↔ i = 0) ∧
      (eraDebugWalkTree t t.treeSize 0).Perm (List.range t.treeSize) ∧
      (∃ kids : ℕ → List ℕ, ∀ i < t.treeSize,
        Segment t.next (t.first i) (kids i) t.treeSize ∧ (kids i).Nodup ∧
        ∀ c, c ∈ kids i ↔ c < t.treeSize ∧ t.par c = i ∧ c ≠ i) ∧
      (∀ i, 0 < i → i < t.treeSize → ∃ p r, t.rank (t.par i) = some p ∧ t.rank i = some r ∧ p < r) ∧
      ∀ r < n, r ∉ afr →
        ∃ i < t.treeSize, eraTreeRankFromCommRank t r = some i ∧ t.rank i = some r := by
  obtain ⟨⟨kids, hshape⟩, hsize, hrank, hlt⟩ :=
    eraCallTreeFn_shape topology daemon (treeRanks n afr)
  rw [← eraBuildTreeStructure, ← ht] at hshape hsize hrank hlt
  obtain ⟨hsorted, hmem⟩ := treeRanks_spec hs hn
  have hcount := length_treeRanks hs hn
  have hle : ∀ i < (treeRanks n afr).length, t.par i ≤ i := fun i hi =>
    hshape.par_le i (Finset.mem_range.2 hi)
  have hrep := hshape.represents hsize hsorted hrank hlt hle
  have hroot : ∀ i < t.treeSize, t.par i = i ↔ i = 0 := by
    intro i hi
    constructor
    · intro hp
      by_contra h0
      exact (hlt i (Nat.pos_of_ne_zero h0) (hsize ▸ hi)).ne hp
    · rintro rfl
      exact Nat.le_zero.1 (hle 0 (hsize ▸ hi))
  have hlive : ∀ i, i ∈ Finset.range (treeRanks n afr).length ↔ i < t.treeSize := by
    intro i
    rw [Finset.mem_range, hsize]
  refine ⟨hsize.trans hcount, ?_, hroot, ?_, ⟨kids, fun i hi => ?_⟩, fun i h0 hi => ?_,
    fun r hr hra => ?_⟩
  · rw [← treeRanks_eq_filter hs hn, hsize]
    refine ext_getElem (by simp) fun i h₁ h₂ => ?_
    have hi : i < (treeRanks n afr).length := by simpa using h₁
    simp [hrank i hi, hi]
  · have hperm := hshape.eraDebugWalkTree_perm ((hlive 0).2 (by omega))
      fun i hi => hroot i ((hlive i).1 hi)
    rwa [List.filter_eq_self.2] at hperm
    intro i hi
    simpa [hsize] using hi
  · have hil := (hlive i).2 hi
    refine ⟨hshape.chain i hil, hshape.nodup i hil, fun c => ?_⟩
    rw [hshape.mem_kids i hil c, hlive c]
  · have hp := hlt i h0 (hsize ▸ hi)
    exact ⟨_, _, hrep.rank_of_live ((hlive _).2 (hp.trans hi)),
      hrep.rank_of_live ((hlive i).2 hi), getD_lt_getD hsorted hp (hsize ▸ hi)⟩
  · obtain ⟨i, hi, hir⟩ := hrep.exists_live
      (List.mem_toFinset.2 ((hmem r).2 ⟨hr, hra⟩)) (Set.notMem_empty r)
    refine ⟨i, (hlive i).1 hi, ?_, ?_⟩
    · rw [← hir]
      exact hrep.eraTreeRankFromCommRank_eq hi
    · rw [← hir]
      exact hrep.rank_of_live hi

/-- Seven processes on two daemons, of which rank 2 has failed. -/
theorem eraBuildTreeStructure_tree_seven :
    (eraBuildTreeStructure 1 (fun r => some (r % 2)) 7 [2]).treeSize = 6 ∧
      eraDebugWalkTree (eraBuildTreeStructure 1 (fun r => some (r % 2)) 7 [2]) 6 0 =
        [0, 3, 5, 1, 2, 4] ∧
      ∃ i < 6, eraTreeRankFromCommRank
        (eraBuildTreeStructure 1 (fun r => some (r % 2)) 7 [2]) 5 = some i := by
  obtain ⟨h₁, -, -, -, -, -, h₂⟩ := eraBuildTreeStructure_tree 1 (fun r => some (r % 2))
    (show [2].Pairwise (· < ·) by decide) (show ∀ d ∈ [2], d < 7 by decide) (by decide) rfl
  obtain ⟨i, hi, he, -⟩ := h₂ 5 (by decide) (by decide)
  rw [h₁] at hi
  exact ⟨h₁, by decide, i, hi, he⟩

end Ulfm
