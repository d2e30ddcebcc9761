import Mathlib.Data.Finset.Basic
import Ulfm.Era.Tree.Definitions
import Ulfm.Foundation.Segment

/-!
# The shape of the tree array

`Shape t live kids` says that the array `t` holds a tree on the indices `live`
whose sibling chains are the lists `kids`. `eraTreeRemoveNode` keeps it: an inner
node is replaced, in the chain of its parent, by the chain of its own children,
and a removed root by its smallest child.
-/

namespace Ulfm

open List Function Finset EraNode EraTree Segment

namespace EraTree

/-! ### The four columns of the array -/

def rank (t : EraTree) : ℕ → Option ℕ := fun i => (t.node i).rankInComm

def par (t : EraTree) : ℕ → ℕ := fun i => (t.node i).parent

def next (t : EraTree) : ℕ → ℕ := fun i => (t.node i).nextSibling

def first (t : EraTree) : ℕ → ℕ := fun i => (t.node i).firstChild

variable (t : EraTree) (i x : ℕ)

@[simp] theorem treeSize_modify (f : EraNode → EraNode) :
    (t.modify i f).treeSize = t.treeSize := rfl

@[simp] theorem treeSize_setParent : (t.setParent i x).treeSize = t.treeSize := rfl

@[simp] theorem treeSize_setNextSibling : (t.setNextSibling i x).treeSize = t.treeSize := rfl

@[simp] theorem treeSize_setFirstChild : (t.setFirstChild i x).treeSize = t.treeSize := rfl

@[simp] theorem treeSize_clear : (t.clear i).treeSize = t.treeSize := rfl

theorem column_modify {α : Type*} (c : EraNode → α) (f : EraNode → EraNode) :
    (fun j => c ((t.modify i f).node j)) = update (fun j => c (t.node j)) i (c (f (t.node i))) := by
  funext j
  by_cases hj : j = i
  · subst hj
    simp [modify]
  · simp [modify, update_of_ne hj]

theorem column_modify_of_eq {α : Type*} (c : EraNode → α) (f : EraNode → EraNode)
    (h : c (f (t.node i)) = c (t.node i)) :
    (fun j => c ((t.modify i f).node j)) = fun j => c (t.node j) := by
  rw [column_modify, h]
  exact update_eq_self i fun j => c (t.node j)

@[simp] theorem rank_setParent : (t.setParent i x).rank = t.rank :=
  column_modify_of_eq t i rankInComm _ rfl

@[simp] theorem rank_setNextSibling : (t.setNextSibling i x).rank = t.rank :=
  column_modify_of_eq t i rankInComm _ rfl

@[simp] theorem rank_setFirstChild : (t.setFirstChild i x).rank = t.rank :=
  column_modify_of_eq t i rankInComm _ rfl

@[simp] theorem rank_clear : (t.clear i).rank = update t.rank i none :=
  column_modify t i rankInComm _

@[simp] theorem par_setParent : (t.setParent i x).par = update t.par i x :=
  column_modify t i parent _

@[simp] theorem par_setNextSibling : (t.setNextSibling i x).par = t.par :=
  column_modify_of_eq t i parent _ rfl

@[simp] theorem par_setFirstChild : (t.setFirstChild i x).par = t.par :=
  column_modify_of_eq t i parent _ rfl

@[simp] theorem par_clear : (t.clear i).par = update t.par i t.treeSize :=
  column_modify t i parent _

@[simp] theorem next_setParent : (t.setParent i x).next = t.next :=
  column_modify_of_eq t i nextSibling _ rfl

@[simp] theorem next_setNextSibling : (t.setNextSibling i x).next = update t.next i x :=
  column_modify t i nextSibling _

@[simp] theorem next_setFirstChild : (t.setFirstChild i x).next = t.next :=
  column_modify_of_eq t i nextSibling _ rfl

@[simp] theorem next_clear : (t.clear i).next = update t.next i t.treeSize :=
  column_modify t i nextSibling _

@[simp] theorem first_setParent : (t.setParent i x).first = t.first :=
  column_modify_of_eq t i firstChild _ rfl

@[simp] theorem first_setNextSibling : (t.setNextSibling i x).first = t.first :=
  column_modify_of_eq t i firstChild _ rfl

@[simp] theorem first_setFirstChild : (t.setFirstChild i x).first = update t.first i x :=
  column_modify t i firstChild _

@[simp] theorem first_clear : (t.clear i).first = update t.first i t.treeSize :=
  column_modify t i firstChild _

end EraTree

/-- The array `t` holds a tree on the indices `live`; the chain of the children of
`i` is `kids i`. -/
structure Shape (t : EraTree) (live : Finset ℕ) (kids : ℕ → List ℕ) : Prop where
  lt : ∀ i ∈ live, i < t.treeSize
  par_mem : ∀ i ∈ live, t.par i ∈ live
  par_le : ∀ i ∈ live, t.par i ≤ i
  chain : ∀ i ∈ live, Segment t.next (t.first i) (kids i) t.treeSize
  mem_kids : ∀ i ∈ live, ∀ c, c ∈ kids i ↔ c ∈ live ∧ t.par c = i ∧ c ≠ i
  nodup : ∀ i ∈ live, (kids i).Nodup
  root_next : ∀ i ∈ live, t.par i = i → t.next i = t.treeSize

/-! ### Loops over a chain -/

theorem length_le_of_nodup {l : List ℕ} {n : ℕ} (hl : l.Nodup) (h : ∀ c ∈ l, c < n) :
    l.length ≤ n := by
  have hsub : l ⊆ List.range n := fun c hc => List.mem_range.2 (h c hc)
  simpa using (hl.subperm hsub).length_le

/-- The array with the parent of all nodes of `l` set to `p`. -/
def EraTree.setParents (t : EraTree) (l : List ℕ) (p : ℕ) : EraTree :=
  l.foldl (fun t c => t.setParent c p) t

namespace EraTree

variable {t : EraTree} {l : List ℕ} {p : ℕ}

@[simp] theorem setParents_nil : t.setParents [] p = t := rfl

@[simp] theorem setParents_cons (c : ℕ) :
    t.setParents (c :: l) p = (t.setParent c p).setParents l p := rfl

theorem column_setParents {α : Type*} {c : EraTree → α} (h : ∀ t i, c (t.setParent i p) = c t) :
    c (t.setParents l p) = c t := by
  induction l generalizing t with
  | nil => rfl
  | cons i l ih => rw [setParents_cons, ih, h]

@[simp] theorem treeSize_setParents : (t.setParents l p).treeSize = t.treeSize :=
  column_setParents fun t i => t.treeSize_setParent i p

@[simp] theorem rank_setParents : (t.setParents l p).rank = t.rank :=
  column_setParents fun t i => t.rank_setParent i p

@[simp] theorem next_setParents : (t.setParents l p).next = t.next :=
  column_setParents fun t i => t.next_setParent i p

@[simp] theorem first_setParents : (t.setParents l p).first = t.first :=
  column_setParents fun t i => t.first_setParent i p

theorem par_setParents_of_mem {c : ℕ} (h : c ∈ l) : (t.setParents l p).par c = p := by
  induction l generalizing t with
  | nil => simp at h
  | cons d l ih =>
    rw [setParents_cons]
    by_cases hc : c ∈ l
    · exact ih hc
    · obtain rfl : c = d := (List.mem_cons.1 h).resolve_right hc
      have hkeep : ∀ (l : List ℕ) (t : EraTree), c ∉ l → (t.setParents l p).par c = t.par c := by
        intro l
        induction l with
        | nil => intro t _; rfl
        | cons e l ih =>
          intro t he
          rw [setParents_cons, ih _ fun h => he (List.mem_cons_of_mem _ h)]
          have : c ≠ e := fun h => he (h ▸ List.mem_cons_self)
          simp [update_of_ne this]
      rw [hkeep l _ hc]
      simp

theorem par_setParents_of_notMem {c : ℕ} (h : c ∉ l) : (t.setParents l p).par c = t.par c := by
  induction l generalizing t with
  | nil => rfl
  | cons d l ih =>
    rw [setParents_cons, ih fun h' => h (List.mem_cons_of_mem _ h')]
    have : c ≠ d := fun e => h (e ▸ List.mem_cons_self)
    simp [update_of_ne this]

end EraTree

theorem reattach_eq {t : EraTree} {p c : ℕ} {l : List ℕ} {k : ℕ}
    (h : Segment t.next c l t.treeSize) (hl : l ≠ []) (hlt : ∀ d ∈ l, d < t.treeSize)
    (hk : l.length ≤ k) :
    reattach p k c t = (l.getLast hl, t.setParents l p) := by
  induction l generalizing t c k with
  | nil => exact absurd rfl hl
  | cons d l ih =>
    obtain ⟨rfl, hseg⟩ := h
    obtain ⟨k, rfl⟩ : ∃ j, k = j + 1 := ⟨k - 1, by simp at hk; omega⟩
    rw [reattach]
    have hnext : ((t.setParent c p).node c).nextSibling = t.next c :=
      congrFun (t.next_setParent c p) c
    cases l with
    | nil =>
      have hend : t.next c = t.treeSize := hseg
      simp [hnext, hend]
    | cons e l =>
      have hne : t.next c ≠ t.treeSize := by
        rw [hseg.head_eq]
        exact (hlt e (by simp)).ne
      rw [if_neg (by simpa [hnext] using hne), hnext]
      have hseg' : Segment (t.setParent c p).next (t.next c) (e :: l)
          (t.setParent c p).treeSize := by simpa using hseg
      rw [ih hseg' (by simp) (fun x hx => hlt x (by simp [hx])) (by simp at hk ⊢; omega)]
      simp

theorem prevSibling_eq {t : EraTree} {r b s : ℕ} {l : List ℕ} {k : ℕ}
    (h : Segment t.next s (l ++ [b]) r) (hr : r ∉ l ++ [b]) (hk : l.length < k) :
    prevSibling t r k s = b := by
  induction l generalizing s k with
  | nil =>
    obtain ⟨rfl, hend⟩ := h
    obtain ⟨k, rfl⟩ : ∃ j, k = j + 1 := ⟨k - 1, by simp at hk; omega⟩
    rw [prevSibling]
    exact if_pos hend
  | cons d l ih =>
    obtain ⟨rfl, hseg⟩ := h
    obtain ⟨k, rfl⟩ : ∃ j, k = j + 1 := ⟨k - 1, by simp at hk; omega⟩
    rw [prevSibling]
    have hne : (t.node s).nextSibling ≠ r := by
      intro e
      have hhead : t.next s = (l ++ [b]).head (by simp) := by
        cases l with
        | nil | cons e l => exact hseg.head_eq
      refine hr (List.mem_cons_of_mem _ ?_)
      have : t.next s = r := e
      rw [← this, hhead]
      exact head_mem _
    rw [if_neg hne]
    exact ih hseg (fun h => hr (List.mem_cons_of_mem _ h)) (by simp at hk; omega)

/-! ### Removing an inner node -/

/-- What `removeInner` does to the columns: the chain of `p` becomes `l`, and only
cells of `l` change their successor. -/
structure Spliced (t t' : EraTree) (p : ℕ) (l : List ℕ) : Prop where
  size : t'.treeSize = t.treeSize
  rank : t'.rank = t.rank
  chain : Segment t'.next (t'.first p) l t.treeSize
  next : ∀ x ∉ l, t'.next x = t.next x
  first : ∀ i ≠ p, t'.first i = t.first i

/-- The second half of `removeInner`: the chain from the first child of `r` to its
last child `c` takes the place of `r` among the children of `p`. -/
def EraTree.splice (t : EraTree) (r p c : ℕ) : EraTree :=
  if t.first p = r then
    if t.first r = t.treeSize then t.setFirstChild p (t.next r)
    else (t.setFirstChild p (t.first r)).setNextSibling c (t.next r)
  else
    let b := prevSibling t r t.treeSize (t.first p)
    if t.first r = t.treeSize then t.setNextSibling b (t.next r)
    else (t.setNextSibling b (t.first r)).setNextSibling c (t.next r)

theorem EraTree.par_splice (t : EraTree) (r p c : ℕ) : (t.splice r p c).par = t.par := by
  unfold splice
  split
  · split <;> simp
  · dsimp only
    split <;> simp

section

variable {t : EraTree} {r p : ℕ} {l₁ ks l₂ : List ℕ}
  (hp : Segment t.next (t.first p) (l₁ ++ r :: l₂) t.treeSize)
  (hr : Segment t.next (t.first r) ks t.treeSize) (hnd : (l₁ ++ ks ++ l₂).Nodup)
include hp hr hnd

theorem splice_spliced (hrl : r ∉ l₁) (hkp : ∀ c ∈ ks, c < t.treeSize)
    (hlen : l₁.length ≤ t.treeSize) :
    Spliced t (t.splice r p (ks.getLastD t.treeSize)) p (l₁ ++ ks ++ l₂) := by
  unfold splice
  obtain ⟨m, hm, hmr, h2⟩ := append_iff.1 hp
  obtain rfl : r = m := hmr.symm
  have hks : t.first r = t.treeSize ↔ ks = [] := by
    cases ks with
    | nil => simpa using hr
    | cons k ks =>
      have := hkp k (by simp)
      simp [hr.head_eq, this.ne]
  rcases eq_nil_or_concat l₁ with rfl | ⟨l, b, rfl⟩
  · -- `r` is the first child
    have hfirst : t.first p = r := hm
    rw [if_pos hfirst]
    rcases eq_nil_or_concat ks with rfl | ⟨k, c, rfl⟩
    · rw [if_pos (hks.2 rfl)]
      refine ⟨rfl, by simp, ?_, by simp, fun i hi => by simp [update_of_ne hi]⟩
      simpa using h2
    · rw [if_neg (fun e => by simpa using hks.1 e)]
      have hc : c ∉ k ∧ c ∉ l₂ := by
        simp only [concat_eq_append, nil_append] at hnd
        rw [nodup_append] at hnd
        have hd := hnd.1
        rw [nodup_append] at hd
        exact ⟨fun h => hd.2.2 c h c (by simp) rfl, fun h => hnd.2.2 c (by simp) c h rfl⟩
      refine ⟨rfl, by simp, ?_, fun x hx => ?_, fun i hi => by simp [update_of_ne hi]⟩
      · simp only [concat_eq_append] at hr ⊢
        rw [nil_append, append_iff]
        refine ⟨t.next r, ?_, ?_⟩
        · simpa using hr.redirect hc.1
        · simpa [update_of_notMem hc.2] using h2
      · have : x ≠ c := fun e => hx (by simp [e])
        simp [update_of_ne this]
  · -- `b` comes right before `r`
    simp only [concat_eq_append] at hm hp hnd hrl hlen ⊢
    have hfirst : t.first p ≠ r := by
      intro e
      have hb : t.first p ∈ l ++ [b] := by
        cases l with
        | nil | cons d l => simp [hm.head_eq]
      exact hrl (e ▸ hb)
    have hprev : prevSibling t r t.treeSize (t.first p) = b :=
      prevSibling_eq hm hrl (by simp at hlen; omega)
    rw [if_neg hfirst, hprev]
    have hb : b ∉ l ∧ b ∉ ks ∧ b ∉ l₂ := by
      simp only [append_assoc, nodup_append, mem_append, List.mem_singleton] at hnd
      refine ⟨fun h => hnd.2.2 b h b (.inl rfl) rfl, fun h => ?_, fun h => ?_⟩
      · exact hnd.2.1.2.2 b rfl b (.inl h) rfl
      · exact hnd.2.1.2.2 b rfl b (.inr h) rfl
    rcases eq_nil_or_concat ks with rfl | ⟨k, c, rfl⟩
    · rw [if_pos (hks.2 rfl)]
      refine ⟨rfl, by simp, ?_, fun x hx => ?_, fun i hi => by simp⟩
      · rw [append_nil, append_iff]
        refine ⟨t.next r, ?_, ?_⟩
        · simpa using hm.redirect hb.1
        · simpa [update_of_notMem hb.2.2] using h2
      · have : x ≠ b := fun e => hx (by simp [e])
        simp [update_of_ne this]
    · rw [if_neg (fun e => by simpa using hks.1 e)]
      simp only [concat_eq_append] at hr hb hnd ⊢
      have hc : c ∉ l ++ [b] ∧ c ∉ k ∧ c ∉ l₂ := by
        rw [nodup_append, nodup_append, @nodup_append _ k] at hnd
        refine ⟨fun h => hnd.1.2.2 c h c (by simp) rfl, fun h => ?_, fun h => ?_⟩
        · exact hnd.1.2.1.2.2 c h c (by simp) rfl
        · exact hnd.2.2 c (by simp) c h rfl
      have hbc : b ≠ c := fun e => hc.1 (by simp [e])
      refine ⟨rfl, by simp, ?_, fun x hx => ?_, fun i hi => by simp⟩
      · rw [append_assoc, append_iff]
        refine ⟨t.first r, ?_, append_iff.2 ⟨t.next r, ?_, ?_⟩⟩
        · simpa [update_of_notMem hc.1] using hm.redirect hb.1
        · have hk : Segment (update t.next b (t.first r)) (t.first r) (k ++ [c])
              t.treeSize := (update_of_notMem hb.2.1).2 hr
          simpa using hk.redirect hc.2.1
        · simpa [update_of_notMem hc.2.2, update_of_notMem hb.2.2] using h2
      · have h1 : x ≠ b := fun e => hx (by simp [e])
        have h2 : x ≠ c := fun e => hx (by simp [e])
        simp [update_of_ne h1, update_of_ne h2]

theorem removeInner_spliced (hlt : ∀ c ∈ l₁ ++ r :: l₂, c < t.treeSize)
    (hrl : r ∉ l₁) (hkp : ∀ c ∈ ks, c < t.treeSize) :
    Spliced t (removeInner t r p) p (l₁ ++ ks ++ l₂) ∧
      (removeInner t r p).par = (t.setParents ks p).par := by
  have hks : ks.Nodup := (nodup_append.1 (nodup_append.1 hnd).1).2.1
  have hl₁ : l₁.length ≤ t.treeSize :=
    length_le_of_nodup (nodup_append.1 (nodup_append.1 hnd).1).1
      fun c hc => hlt c (by simp [hc])
  have hct : (if t.first r = t.treeSize then (t.first r, t)
      else reattach p t.treeSize (t.first r) t) = (ks.getLastD t.treeSize, t.setParents ks p) := by
    cases ks with
    | nil =>
      have hend : t.first r = t.treeSize := hr
      rw [if_pos hend, hend]
      rfl
    | cons k ks =>
      have hne : t.first r ≠ t.treeSize := by
        rw [hr.head_eq]
        exact (hkp k (by simp)).ne
      rw [if_neg hne, reattach_eq hr (by simp) hkp (length_le_of_nodup hks hkp)]
      simp [getLastD_eq_getLast?, getLast?_eq_getLast_of_ne_nil]
  have heq : removeInner t r p = (t.setParents ks p).splice r p (ks.getLastD t.treeSize) := by
    have hfirst : ∀ i, ((t.setParents ks p).node i).firstChild = t.first i :=
      congrFun first_setParents
    have hnext : ∀ i, ((t.setParents ks p).node i).nextSibling = t.next i :=
      congrFun next_setParents
    unfold removeInner splice
    have hnode : (t.node r).firstChild = t.first r := rfl
    simp only [hnode, hct, hfirst, hnext, first_setParents, next_setParents, treeSize_setParents]
  rw [heq]
  refine ⟨?_, par_splice _ _ _ _⟩
  have hsp := splice_spliced (t := t.setParents ks p) (r := r) (p := p) (by simpa using hp)
    (by simpa using hr) hnd hrl (by simpa using hkp) (by simpa using hl₁)
  rw [treeSize_setParents] at hsp
  exact ⟨by simpa using hsp.size, by simpa using hsp.rank, by simpa using hsp.chain,
    by simpa using hsp.next, by simpa using hsp.first⟩

end

/-! ### Removing the root -/

/-- The state of `scanRoot` after the children `l`. -/
structure Scanned (l : List ℕ) (newRoot : ℕ) (lastSib prevRoot : Option ℕ) : Prop where
  last : lastSib = l.getLast?
  le : ∀ x ∈ l, newRoot ≤ x
  split : ∃ l₁ l₂, l = l₁ ++ newRoot :: l₂ ∧ newRoot ∉ l₁ ∧ prevRoot = l₁.getLast?

theorem scanRoot_scanned {t : EraTree} {p newRoot k : ℕ} {lastSib prevRoot : Option ℕ}
    {l rest : List ℕ} (h : Segment t.next p rest t.treeSize)
    (hlt : ∀ c ∈ rest, c < t.treeSize) (hk : rest.length ≤ k)
    (hs : Scanned l newRoot lastSib prevRoot) :
    Scanned (l ++ rest) (scanRoot t k p newRoot lastSib prevRoot).1
      (scanRoot t k p newRoot lastSib prevRoot).2.1
      (scanRoot t k p newRoot lastSib prevRoot).2.2 := by
  induction rest generalizing p newRoot k lastSib prevRoot l with
  | nil =>
    have hp : p = t.treeSize := h
    cases k <;> simpa [scanRoot, hp] using hs
  | cons c rest ih =>
    obtain ⟨rfl, hrest⟩ := h
    obtain ⟨k, rfl⟩ : ∃ j, k = j + 1 := ⟨k - 1, by simp at hk; omega⟩
    have hlt' : ∀ c ∈ rest, c < t.treeSize := fun c hc => hlt c (by simp [hc])
    have hk' : rest.length ≤ k := by simpa using hk
    have hp : p ≠ t.treeSize := (hlt p (by simp)).ne
    have happ : l ++ p :: rest = l ++ [p] ++ rest := by simp
    rw [happ]
    obtain ⟨l₁, l₂, hl, hnot, hprev⟩ := hs.split
    by_cases hpn : p < newRoot
    · rw [scanRoot, if_neg hp, if_pos hpn]
      refine ih hrest hlt' hk' ⟨by simp, ?_, l, [], by simp, ?_, hs.last⟩
      · intro x hx
        rcases mem_append.1 hx with hx | hx
        · exact hpn.le.trans (hs.le x hx)
        · exact (List.mem_singleton.1 hx).ge
      · exact fun hx => absurd (hs.le p hx) (by omega)
    · rw [scanRoot, if_neg hp, if_neg hpn]
      refine ih hrest hlt' hk' ⟨by simp, ?_, l₁, l₂ ++ [p], by simp [hl], hnot, hprev⟩
      intro x hx
      rcases mem_append.1 hx with hx | hx
      · exact hs.le x hx
      · rw [List.mem_singleton.1 hx]
        omega

theorem scanRoot_spec {t : EraTree} {a k : ℕ} {l : List ℕ}
    (h : Segment t.next a l t.treeSize) (hne : l ≠ []) (hlt : ∀ c ∈ l, c < t.treeSize)
    (hk : l.length ≤ k) :
    Scanned l (scanRoot t k a a none none).1 (scanRoot t k a a none none).2.1
      (scanRoot t k a a none none).2.2 := by
  cases l with
  | nil => exact absurd rfl hne
  | cons c l =>
    obtain ⟨rfl, hl⟩ := h
    obtain ⟨k, rfl⟩ : ∃ j, k = j + 1 := ⟨k - 1, by simp at hk; omega⟩
    rw [scanRoot, if_neg (hlt a (by simp)).ne, if_neg (lt_irrefl a)]
    exact scanRoot_scanned hl (fun c hc => hlt c (by simp [hc])) (by simpa using hk)
      ⟨rfl, by simp, [], [], rfl, by simp, rfl⟩

theorem adopt_eq {t : EraTree} {q b a x k : ℕ} {l : List ℕ}
    (h : Segment t.next a (l ++ [b]) x) (hb : b ∉ l) (hlt : ∀ c ∈ l ++ [b], c < t.treeSize)
    (hk : l.length < k) : adopt q (some b) k a t = t.setParents (l ++ [b]) q := by
  induction l generalizing a k t with
  | nil =>
    obtain ⟨rfl, -⟩ := h
    obtain ⟨k, rfl⟩ : ∃ j, k = j + 1 := ⟨k - 1, by simp at hk; omega⟩
    rw [adopt, if_neg (hlt a (by simp)).ne]
    simp
  | cons c l ih =>
    obtain ⟨rfl, hl⟩ := h
    obtain ⟨k, rfl⟩ : ∃ j, k = j + 1 := ⟨k - 1, by simp at hk; omega⟩
    have hab : ¬ some a = some b := fun e => hb (by simp [Option.some.inj e])
    have hnext : ((t.setParent a q).node a).nextSibling = t.next a :=
      congrFun (t.next_setParent a q) a
    have hseg : Segment (t.setParent a q).next (t.next a) (l ++ [b]) x := by simpa using hl
    rw [adopt, if_neg (hlt a (by simp)).ne]
    simp only [if_neg hab, hnext]
    rw [ih hseg (fun e => hb (by simp [e])) (fun c hc => hlt c (by simp at hc ⊢; tauto))
      (by simpa using hk)]
    simp

/-- The first half of `removeRoot`: the new root `m` leaves the chain of its
siblings. -/
def EraTree.unlink (t : EraTree) (m : ℕ) (prevRoot : Option ℕ) : EraTree :=
  let nextRoot := t.next m
  let t' := match prevRoot with
    | some b => t.setNextSibling b nextRoot
    | none => t
  (t'.setNextSibling m t.treeSize).setParent m m

/-- What `removeRoot` does to the columns: the chain of the new root `m` becomes
`l`, and all of `ks` gets the parent `m`. -/
structure Promoted (t t' : EraTree) (m : ℕ) (ks l : List ℕ) : Prop where
  size : t'.treeSize = t.treeSize
  rank : t'.rank = t.rank
  chain : Segment t'.next (t'.first m) l t.treeSize
  next_root : t'.next m = t.treeSize
  next : ∀ x ∉ ks, t'.next x = t.next x
  first : ∀ i ≠ m, t'.first i = t.first i
  par_mem : ∀ c ∈ ks, t'.par c = m
  par : ∀ c ∉ ks, t'.par c = t.par c

section Unlink

variable {t : EraTree} {a m : ℕ} {l₁ l₂ : List ℕ}

@[simp] theorem EraTree.treeSize_unlink (prev : Option ℕ) :
    (t.unlink m prev).treeSize = t.treeSize := by
  cases prev <;> rfl

@[simp] theorem EraTree.rank_unlink (prev : Option ℕ) : (t.unlink m prev).rank = t.rank := by
  cases prev <;> simp [unlink]

@[simp] theorem EraTree.first_unlink (prev : Option ℕ) : (t.unlink m prev).first = t.first := by
  cases prev <;> simp [unlink]

@[simp] theorem EraTree.par_unlink (prev : Option ℕ) :
    (t.unlink m prev).par = update t.par m m := by
  cases prev <;> simp [unlink]

theorem EraTree.next_unlink_self (prev : Option ℕ) : (t.unlink m prev).next m = t.treeSize := by
  cases prev <;> simp [unlink]

theorem EraTree.next_unlink_of_notMem {x : ℕ} (hx : x ∉ l₁ ++ m :: l₂) :
    (t.unlink m l₁.getLast?).next x = t.next x := by
  have hxm : x ≠ m := fun e => hx (by simp [e])
  cases hl : l₁.getLast? with
  | none => simp [unlink, update_of_ne hxm]
  | some b =>
    have hxb : x ≠ b := fun e => hx (by simp [e, mem_of_getLast? hl])
    simp [unlink, update_of_ne hxm, update_of_ne hxb]

theorem EraTree.unlink_chain (h : Segment t.next a (l₁ ++ m :: l₂) t.treeSize)
    (hnd : (l₁ ++ m :: l₂).Nodup) :
    Segment (t.unlink m l₁.getLast?).next (if l₁ = [] then t.next m else a) (l₁ ++ l₂)
      t.treeSize := by
  obtain ⟨x, h1, hx, h2⟩ := append_iff.1 h
  obtain rfl : m = x := hx.symm
  have hm : m ∉ l₁ ∧ m ∉ l₂ := by
    rw [nodup_append] at hnd
    exact ⟨fun e => hnd.2.2 m e m (by simp) rfl, (nodup_cons.1 hnd.2.1).1⟩
  rcases eq_nil_or_concat l₁ with rfl | ⟨l, b, rfl⟩
  · simpa [unlink, update_of_notMem hm.2] using h2
  · simp only [concat_eq_append] at h1 hm hnd ⊢
    have hb : b ∉ l ∧ b ∉ l₂ := by
      rw [nodup_append, nodup_append] at hnd
      exact ⟨fun e => hnd.1.2.2 b e b (by simp) rfl,
        fun e => hnd.2.2 b (by simp) b (by simp [e]) rfl⟩
    rw [if_neg (by simp), append_iff]
    refine ⟨t.next m, ?_, ?_⟩
    · simpa [unlink, update_of_notMem hm.1] using h1.redirect hb.1
    · simpa [unlink, update_of_notMem hm.2, update_of_notMem hb.2] using h2

end Unlink

/-- The second half of `removeRoot`: the new root `m` adopts the chain from `c` to
`last`. -/
def promote (k : ℕ) (t : EraTree) (m : ℕ) (last : Option ℕ) (c : ℕ) : EraTree :=
  if c ≠ t.first m then
    let t' := match last with
      | some b => t.setNextSibling b (t.first m)
      | none => t
    adopt m last k c (t'.setFirstChild m c)
  else t

theorem removeRoot_promoted {t : EraTree} {r : ℕ} {ks : List ℕ} {km : ℕ → List ℕ}
    (hr : Segment t.next (t.first r) ks t.treeSize) (hne : ks ≠ [])
    (hkm : ∀ c ∈ ks, Segment t.next (t.first c) (km c) t.treeSize)
    (hnd : ∀ c ∈ ks, (ks ++ km c).Nodup)
    (hlt : ∀ c ∈ ks, c < t.treeSize) :
    ∃ m l₁ l₂, ks = l₁ ++ m :: l₂ ∧ (∀ c ∈ ks, m ≤ c) ∧
      Promoted t (removeRoot t r) m ks (l₁ ++ l₂ ++ km m) := by
  have hks : ks.Nodup := by
    cases ks with
    | nil => exact absurd rfl hne
    | cons c ks => exact (nodup_append.1 (hnd c (by simp))).1
  have hscan := scanRoot_spec hr hne hlt (length_le_of_nodup hks hlt)
  obtain ⟨hlast, hmin, l₁, l₂, hsplit, hm₁, hprev⟩ := hscan
  set scan := scanRoot t t.treeSize (t.first r) (t.first r) none none with hscandef
  set m := scan.1 with hmdef
  have hmk : m ∈ ks := by simp [hsplit]
  have hmlt := hlt m hmk
  have hkmnot : ∀ c ∈ ks, c ∉ km m := fun c hc hc' =>
    (nodup_append.1 (hnd m hmk)).2.2 c hc c hc' rfl
  have hm₂ : m ∉ l₂ := by
    rw [hsplit, nodup_append] at hks
    exact (nodup_cons.1 hks.2.1).1
  have hsib : (if scan.2.1 = some m then scan.2.2 else scan.2.1) = (l₁ ++ l₂).getLast? := by
    rw [hlast, hprev, hsplit]
    rcases eq_nil_or_concat l₂ with rfl | ⟨l, b, rfl⟩
    · simp
    · have hb : b ≠ m := fun e => hm₂ (by simp [e])
      have hl : (l₁ ++ m :: l.concat b).getLast? = some b := by
        rw [concat_eq_append, ← cons_append, ← append_assoc]
        exact getLast?_concat
      rw [hl, if_neg (by simpa using hb)]
      simp
  have hchain := unlink_chain (hsplit ▸ hr) (hsplit ▸ hks)
  refine ⟨m, l₁, l₂, hsplit, hmin, ?_⟩
  have heq : removeRoot t r = promote t.treeSize (t.unlink m scan.2.2) m
        (if scan.2.1 = some m then scan.2.2 else scan.2.1)
        (if m ≠ t.first r then t.first r else if t.next m ≠ t.treeSize then t.next m
          else (t.unlink m scan.2.2).first m) := rfl
  rw [heq, hsib, hprev]
  clear heq
  by_cases hsibs : l₁ ++ l₂ = []
  · -- the only child of the root takes its place
    obtain ⟨rfl, rfl⟩ := append_eq_nil_iff.1 hsibs
    have hfirst : t.first r = m := (hsplit ▸ hr).head_eq
    have hend : t.next m = t.treeSize := (hsplit ▸ hr).2
    have hsame : promote t.treeSize (t.unlink m (getLast? [])) m (getLast? ([] ++ []))
        (if m ≠ t.first r then t.first r else if t.next m ≠ t.treeSize then t.next m
          else (t.unlink m (getLast? [])).first m) = t.unlink m none := by
      simp [promote, hfirst, hend]
    rw [hsame]
    refine ⟨by simp, by simp, ?_, next_unlink_self _, ?_, by simp, ?_, ?_⟩
    · simpa [unlink, update_of_notMem (hkmnot m hmk)] using hkm m hmk
    · exact fun x hx => @next_unlink_of_notMem t m [] [] x (hsplit ▸ hx)
    · intro c hc
      obtain rfl : c = m := by simpa [hsplit] using hc
      simp
    · intro c hc
      have : c ≠ m := fun e => hc (e ▸ hmk)
      simp [update_of_ne this]
  · -- the other children come before those of the new root
    obtain ⟨l, b, hlb⟩ : ∃ l b, l₁ ++ l₂ = l ++ [b] := by
      rcases eq_nil_or_concat (l₁ ++ l₂) with h | ⟨l, b, h⟩
      · exact absurd h hsibs
      · exact ⟨l, b, by simpa using h⟩
    have hsub : ∀ c ∈ l ++ [b], c ∈ ks ∧ c ≠ m := by
      intro c hc
      rw [← hlb] at hc
      rcases mem_append.1 hc with hc | hc
      · exact ⟨by simp [hsplit, hc], fun e => hm₁ (e ▸ hc)⟩
      · exact ⟨by simp [hsplit, hc], fun e => hm₂ (e ▸ hc)⟩
    have hstart : (if m ≠ t.first r then t.first r else if t.next m ≠ t.treeSize then t.next m
        else (t.unlink m l₁.getLast?).first m) = if l₁ = [] then t.next m else t.first r := by
      cases l₁ with
      | nil =>
        have hfirst : t.first r = m := (hsplit ▸ hr).head_eq
        have hl₂ : Segment t.next (t.next m) (l ++ [b]) t.treeSize := by
          rw [← hlb]
          exact (hsplit ▸ hr).2
        have hend : t.next m ≠ t.treeSize := by
          obtain ⟨d, l', hd⟩ := exists_cons_of_ne_nil
            (append_ne_nil_of_right_ne_nil l (cons_ne_nil b []))
          rw [hd] at hl₂
          rw [hl₂.head_eq]
          exact (hlt d (hsub d (by simp [hd])).1).ne
        simp [hfirst, hend]
      | cons d l₁ =>
        have hd : t.first r = d := (hsplit ▸ hr).head_eq
        have hmd : m ≠ t.first r := fun e => hm₁ (by simp [e, hd])
        simp [hmd]
    rw [hstart, hlb]
    rw [hlb] at hchain
    set c := if l₁ = [] then t.next m else t.first r with hc
    have hck : c ∈ ks := by
      obtain ⟨d, l', hd⟩ := exists_cons_of_ne_nil
        (append_ne_nil_of_right_ne_nil l (cons_ne_nil b []))
      rw [hd] at hchain
      rw [hchain.head_eq]
      exact (hsub d (by simp [hd])).1
    have hcm : c ≠ t.first m := by
      have hmm := hkm m hmk
      cases hk : km m with
      | nil =>
        rw [hk] at hmm
        have : t.first m = t.treeSize := hmm
        exact this ▸ (hlt c hck).ne
      | cons d k =>
        rw [hk] at hmm
        exact fun e => hkmnot c hck (by simp [hk, e, hmm.head_eq])
    have hb : b ∉ l := by
      have : (l₁ ++ l₂).Nodup := by
        rw [hsplit] at hks
        exact hks.sublist (by simp)
      rw [hlb, nodup_append] at this
      exact fun e => this.2.2 b e b (by simp) rfl
    have hbk := hsub b (by simp)
    have hnodup : (l ++ [b]).Nodup := by
      rw [← hlb]
      rw [hsplit] at hks
      exact hks.sublist (by simp)
    have hredir := hchain.redirect (x := t.first m) hb
    have hprom : promote t.treeSize (t.unlink m l₁.getLast?) m (l ++ [b]).getLast? c =
        (((t.unlink m l₁.getLast?).setNextSibling b (t.first m)).setFirstChild m c).setParents
          (l ++ [b]) m := by
      unfold promote
      rw [first_unlink, if_pos hcm, getLast?_concat]
      refine adopt_eq (by simpa using hredir) hb
        (fun d hd => by simpa using hlt d (hsub d hd).1) ?_
      have hlen := length_le_of_nodup hnodup fun d hd => hlt d (hsub d hd).1
      rw [length_append, length_singleton] at hlen
      omega
    rw [hprom]
    refine ⟨by simp, by simp, ?_, ?_, ?_, ?_, ?_, ?_⟩
    · rw [append_iff]
      refine ⟨t.first m, by simpa using hredir, ?_⟩
      have hkb := hkmnot b hbk.1
      simp only [next_setParents, next_setFirstChild, next_setNextSibling]
      rw [update_of_notMem hkb]
      refine (Segment.congr fun y hy => ?_).2 (hkm m hmk)
      exact next_unlink_of_notMem fun hy' => hkmnot y (hsplit ▸ hy') hy
    · simp [update_of_ne hbk.2.symm, next_unlink_self]
    · intro x hx
      have hxb : x ≠ b := fun e => hx (e ▸ hbk.1)
      simp only [next_setParents, next_setFirstChild, next_setNextSibling, update_of_ne hxb]
      exact next_unlink_of_notMem (hsplit ▸ hx)
    · intro i hi
      simp [update_of_ne hi]
    · intro d hd
      by_cases hdm : d = m
      · subst hdm
        rw [par_setParents_of_notMem fun e => (hsub _ e).2 rfl]
        simp
      · refine par_setParents_of_mem ?_
        rw [← hlb]
        rw [hsplit] at hd
        simp only [mem_append, List.mem_cons, hdm, false_or] at hd
        exact mem_append.2 hd
    · intro d hd
      have hdm : d ≠ m := fun e => hd (e ▸ hmk)
      rw [par_setParents_of_notMem fun e => hd (hsub d e).1]
      simp [update_of_ne hdm]

/-- What `eraTreeRemoveNode` does to the ranks and the parents: the children of `r`
pass to `q`. -/
structure Removed (t t' : EraTree) (live : Finset ℕ) (r q : ℕ) : Prop where
  size : t'.treeSize = t.treeSize
  rank : t'.rank = update t.rank r none
  par : ∀ i ∈ live.erase r, t'.par i = if t.par i = r then q else t.par i

namespace Shape

variable {t : EraTree} {live : Finset ℕ} {kids : ℕ → List ℕ} {r : ℕ}

section

variable (h : Shape t live kids)
include h

theorem kids_lt {i c : ℕ} (hi : i ∈ live) (hc : c ∈ kids i) : c < t.treeSize :=
  h.lt c ((h.mem_kids i hi c).1 hc).1

theorem disjoint_kids {i j c : ℕ} (hi : i ∈ live) (hj : j ∈ live)
    (hci : c ∈ kids i) (hcj : c ∈ kids j) : i = j :=
  ((h.mem_kids i hi c).1 hci).2.1.symm.trans ((h.mem_kids j hj c).1 hcj).2.1

theorem mem_kids_par (hr : r ∈ live) (hp : t.par r ≠ r) : r ∈ kids (t.par r) :=
  (h.mem_kids _ (h.par_mem r hr) r).2 ⟨hr, rfl, hp.symm⟩

theorem of_removed (hr : r ∈ live) {t' : EraTree} {q : ℕ}
    {kids' : ℕ → List ℕ} (hrem : Removed t t' live r q) (hq : q ∈ live.erase r)
    (hle : ∀ i ∈ kids r, q ≤ i)
    (hchain : ∀ i ∈ live.erase r, Segment t'.next (t'.first i) (kids' i) t.treeSize)
    (hkids : ∀ i ∈ live.erase r, ∀ c,
      c ∈ kids' i ↔ c ∈ live.erase r ∧ c ≠ i ∧ (i = q ∧ c ∈ kids r ∨ c ∈ kids i))
    (hnodup : ∀ i ∈ live.erase r, (kids' i).Nodup)
    (hroot : ∀ i ∈ live.erase r, t'.par i = i → t'.next i = t.treeSize) :
    Shape t' (live.erase r) kids' where
  lt i hi := hrem.size ▸ h.lt i (Finset.mem_of_mem_erase hi)
  par_mem i hi := by
    rw [hrem.par i hi]
    split
    · exact hq
    · next hir => exact mem_erase.2 ⟨hir, h.par_mem i (Finset.mem_of_mem_erase hi)⟩
  par_le i hi := by
    obtain ⟨hne, hil⟩ := mem_erase.1 hi
    rw [hrem.par i hi]
    split
    · next hir => exact hle i ((h.mem_kids r hr i).2 ⟨hil, hir, hne⟩)
    · exact h.par_le i hil
  chain i hi := hrem.size.symm ▸ hchain i hi
  mem_kids i hi c := by
    rw [hkids i hi c]
    constructor
    · rintro ⟨hc, hci, hck⟩
      refine ⟨hc, ?_, hci⟩
      rw [hrem.par c hc]
      rcases hck with ⟨rfl, hck⟩ | hck
      · rw [if_pos ((h.mem_kids r hr c).1 hck).2.1]
      · rw [((h.mem_kids i (Finset.mem_of_mem_erase hi) c).1 hck).2.1, if_neg (ne_of_mem_erase hi)]
    · rintro ⟨hc, hpc, hci⟩
      obtain ⟨hcr, hcl⟩ := mem_erase.1 hc
      refine ⟨hc, hci, ?_⟩
      rw [hrem.par c hc] at hpc
      by_cases hpr : t.par c = r
      · rw [if_pos hpr] at hpc
        exact .inl ⟨hpc.symm, (h.mem_kids r hr c).2 ⟨hcl, hpr, hcr⟩⟩
      · rw [if_neg hpr] at hpc
        exact .inr ((h.mem_kids i (Finset.mem_of_mem_erase hi) c).2 ⟨hcl, hpc, hci⟩)
  nodup := hnodup
  root_next i hi hpi := by
    rw [hrem.size]
    exact hroot i hi hpi

theorem notMem_kids_self {i : ℕ} (hi : i ∈ live) : i ∉ kids i :=
  fun hc => ((h.mem_kids i hi i).1 hc).2.2 rfl

theorem root_notMem_kids {i j : ℕ} (hj : j ∈ live)
    (hroot : t.par i = i) : i ∉ kids j := fun hc => by
  obtain ⟨-, h1, h2⟩ := (h.mem_kids j hj i).1 hc
  exact h2 (hroot ▸ h1)

theorem le_of_mem_kids {i c : ℕ} (hi : i ∈ live) (hc : c ∈ kids i) : i ≤ c := by
  obtain ⟨hcl, rfl, -⟩ := (h.mem_kids i hi c).1 hc
  exact h.par_le c hcl

theorem remove_inner (hr : r ∈ live) (hp : t.par r ≠ r)
    {l₁ l₂ : List ℕ} (hsplit : kids (t.par r) = l₁ ++ r :: l₂) :
    Shape (eraTreeRemoveNode t r) (live.erase r) (update kids (t.par r) (l₁ ++ kids r ++ l₂)) ∧
      Removed t (eraTreeRemoveNode t r) live r (t.par r) := by
  set p := t.par r with hpdef
  have hpl : p ∈ live := h.par_mem r hr
  have hnd : (l₁ ++ r :: l₂).Nodup := hsplit ▸ h.nodup p hpl
  have hrnot : r ∉ l₁ ∧ r ∉ l₂ := by
    rw [nodup_append] at hnd
    exact ⟨fun e => hnd.2.2 r e r (by simp) rfl, (nodup_cons.1 hnd.2.1).1⟩
  have hcp : ∀ c, c ∈ kids p ↔ c ∈ l₁ ∨ c = r ∨ c ∈ l₂ := by simp [hsplit]
  have hdisj : ∀ c ∈ kids r, c ∉ l₁ ∧ c ∉ l₂ := fun c hc =>
    ⟨fun e => hp (h.disjoint_kids hpl hr ((hcp c).2 (.inl e)) hc),
      fun e => hp (h.disjoint_kids hpl hr ((hcp c).2 (.inr (.inr e))) hc)⟩
  have hnd' : (l₁ ++ kids r ++ l₂).Nodup := by
    rw [nodup_append] at hnd
    rw [nodup_cons] at hnd
    rw [append_assoc, nodup_append]
    refine ⟨hnd.1, nodup_append.2 ⟨h.nodup r hr, hnd.2.1.2, ?_⟩, ?_⟩
    · rintro a ha b hb rfl
      exact (hdisj a ha).2 hb
    · rintro a ha b hb rfl
      rcases mem_append.1 hb with hb | hb
      · exact (hdisj a hb).1 ha
      · exact hnd.2.2 a ha a (by simp [hb]) rfl
  obtain ⟨hsp, hpar⟩ := removeInner_spliced (by simpa [hsplit] using h.chain p hpl)
    (h.chain r hr) hnd'
    (fun c hc => h.kids_lt hpl (hsplit ▸ hc)) hrnot.1 (fun c hc => h.kids_lt hr hc)
  have heq : eraTreeRemoveNode t r = (removeInner t r p).clear r := by
    have : (t.node r).parent = p := rfl
    rw [eraTreeRemoveNode, this, if_pos hp]
  have hrem : Removed t (eraTreeRemoveNode t r) live r p := by
    rw [heq]
    refine ⟨by rw [treeSize_clear, hsp.size], by rw [rank_clear, hsp.rank], ?_⟩
    intro i hi
    obtain ⟨hne, hil⟩ := mem_erase.1 hi
    rw [par_clear, update_of_ne hne, hpar]
    by_cases hir : t.par i = r
    · rw [if_pos hir]
      exact par_setParents_of_mem ((h.mem_kids r hr i).2 ⟨hil, hir, hne⟩)
    · rw [if_neg hir]
      exact par_setParents_of_notMem fun e => hir ((h.mem_kids r hr i).1 e).2.1
  refine ⟨h.of_removed hr hrem (mem_erase.2 ⟨hp, hpl⟩)
    (fun i hi => (h.par_le r hr).trans (h.le_of_mem_kids hr hi)) ?_ ?_ ?_ ?_, hrem⟩
  · intro i hi
    obtain ⟨hne, hil⟩ := mem_erase.1 hi
    rw [heq, next_clear, first_clear, update_of_ne hne]
    by_cases hip : i = p
    · subst hip
      rw [update_self]
      refine (update_of_notMem ?_).2 hsp.chain
      simp [hrnot, h.notMem_kids_self hr]
    · rw [update_of_ne hip, hsp.first i hip]
      refine (update_of_notMem fun e => hip ((h.mem_kids i hil r).1 e).2.1.symm).2 ?_
      refine (Segment.congr fun y hy => hsp.next y fun hy' => ?_).2 (h.chain i hil)
      simp only [mem_append] at hy'
      rcases hy' with (hc | hc) | hc
      · exact hip (h.disjoint_kids hil hpl hy ((hcp y).2 (.inl hc)))
      · exact hne (h.disjoint_kids hil hr hy hc)
      · exact hip (h.disjoint_kids hil hpl hy ((hcp y).2 (.inr (.inr hc))))
  · intro i hi c
    obtain ⟨hne, hil⟩ := mem_erase.1 hi
    have hlive : c ∈ kids r ∨ c ∈ kids i → c ∈ live := by
      rintro (hc | hc)
      · exact ((h.mem_kids r hr c).1 hc).1
      · exact ((h.mem_kids i hil c).1 hc).1
    by_cases hip : i = p
    · subst hip
      have hkr : c ∈ kids r → c ≠ r ∧ c ≠ p := fun hc => by
        have h1 := h.le_of_mem_kids hr hc
        have h2 := h.par_le r hr
        refine ⟨fun e => h.notMem_kids_self hr (e ▸ hc), ?_⟩
        have h3 : p ≠ r := hp
        omega
      have hkp : c ∈ kids p → c ≠ p := fun hc e => h.notMem_kids_self hpl (e ▸ hc)
      simp only [update_self, mem_append, mem_erase, true_and]
      constructor
      · rintro ((hc | hc) | hc)
        · have hk := (hcp c).2 (.inl hc)
          exact ⟨⟨fun e => hrnot.1 (e ▸ hc), hlive (.inr hk)⟩, hkp hk, .inr hk⟩
        · exact ⟨⟨(hkr hc).1, hlive (.inl hc)⟩, (hkr hc).2, .inl hc⟩
        · have hk := (hcp c).2 (.inr (.inr hc))
          exact ⟨⟨fun e => hrnot.2 (e ▸ hc), hlive (.inr hk)⟩, hkp hk, .inr hk⟩
      · rintro ⟨⟨hcr, -⟩, -, hc | hc⟩
        · exact .inl (.inr hc)
        · rcases (hcp c).1 hc with hc | hc | hc
          · exact .inl (.inl hc)
          · exact absurd hc hcr
          · exact .inr hc
    · simp only [update_of_ne hip, hip, false_and, false_or]
      constructor
      · intro hc
        obtain ⟨hcl, hpc, hci⟩ := (h.mem_kids i hil c).1 hc
        exact ⟨mem_erase.2 ⟨fun e => hip (by rw [← hpc, e]), hcl⟩, hci, hc⟩
      · exact fun hc => hc.2.2
  · intro i hi
    by_cases hip : i = p
    · subst hip
      rwa [update_self]
    · rw [update_of_ne hip]
      exact h.nodup i (Finset.mem_of_mem_erase hi)
  · intro i hi hpi
    obtain ⟨hne, hil⟩ := mem_erase.1 hi
    have hroot : t.par i = i := by
      rw [hrem.par i hi] at hpi
      by_cases hir : t.par i = r
      · have h1 := h.par_le i hil
        have h2 := h.par_le r hr
        have h3 : r ≠ p := hp.symm
        rw [if_pos hir] at hpi
        omega
      · rwa [if_neg hir] at hpi
    rw [heq, next_clear, update_of_ne hne, hsp.next i ?_, h.root_next i hil hroot]
    have h1 := h.root_notMem_kids hr hroot
    have h2 := h.root_notMem_kids hpl hroot
    rw [hcp] at h2
    simp only [mem_append, not_or] at h2 ⊢
    exact ⟨⟨h2.1, h1⟩, h2.2.2⟩

theorem remove_root (hr : r ∈ live) (hp : t.par r = r) (hne : kids r ≠ []) :
    ∃ m ∈ kids r, (∀ c ∈ kids r, m ≤ c) ∧
      (∃ l, Shape (eraTreeRemoveNode t r) (live.erase r) (update kids m (l ++ kids m))) ∧
      Removed t (eraTreeRemoveNode t r) live r m := by
  have hlive : ∀ c ∈ kids r, c ∈ live := fun c hc => ((h.mem_kids r hr c).1 hc).1
  have hdisj : ∀ m ∈ kids r, ∀ c ∈ kids m, c ∉ kids r := fun m hm c hc hc' =>
    ((h.mem_kids r hr m).1 hm).2.2 (h.disjoint_kids (hlive m hm) hr hc hc')
  have hnd : ∀ m ∈ kids r, (kids r ++ kids m).Nodup := by
    intro m hm
    refine nodup_append.2 ⟨h.nodup r hr, h.nodup m (hlive m hm), ?_⟩
    rintro a ha b hb rfl
    exact hdisj m hm a hb ha
  obtain ⟨m, l₁, l₂, hsplit, hmin, hprom⟩ := removeRoot_promoted (h.chain r hr) hne
    (fun c hc => h.chain c (hlive c hc)) hnd (fun c hc => h.kids_lt hr hc)
  have hm : m ∈ kids r := by simp [hsplit]
  have hml := hlive m hm
  have hmr : m ≠ r := ((h.mem_kids r hr m).1 hm).2.2
  have hrr : r ∉ kids r := h.notMem_kids_self hr
  have heq : eraTreeRemoveNode t r = (removeRoot t r).clear r := by
    have : (t.node r).parent = r := hp
    rw [eraTreeRemoveNode, this, if_neg (by simp)]
  have hrem : Removed t (eraTreeRemoveNode t r) live r m := by
    rw [heq]
    refine ⟨by rw [treeSize_clear, hprom.size], by rw [rank_clear, hprom.rank], ?_⟩
    intro i hi
    obtain ⟨hne, hil⟩ := mem_erase.1 hi
    rw [par_clear, update_of_ne hne]
    by_cases hir : t.par i = r
    · rw [if_pos hir]
      exact hprom.par_mem i ((h.mem_kids r hr i).2 ⟨hil, hir, hne⟩)
    · rw [if_neg hir]
      exact hprom.par i fun e => hir ((h.mem_kids r hr i).1 e).2.1
  have hmem : ∀ c, c ∈ l₁ ++ l₂ ↔ c ∈ kids r ∧ c ≠ m := by
    intro c
    have hks := h.nodup r hr
    rw [hsplit, nodup_append, nodup_cons] at hks
    simp only [hsplit, mem_append, List.mem_cons]
    constructor
    · rintro (hc | hc)
      · exact ⟨.inl hc, fun e => hks.2.2 c hc m (by simp) e⟩
      · exact ⟨.inr (.inr hc), fun e => hks.2.1.1 (e ▸ hc)⟩
    · rintro ⟨hc | hc | hc, hcm⟩
      · exact .inl hc
      · exact absurd hc hcm
      · exact .inr hc
  refine ⟨m, hm, hmin, ⟨l₁ ++ l₂, h.of_removed hr hrem (mem_erase.2 ⟨hmr, hml⟩) hmin
    ?_ ?_ ?_ ?_⟩, hrem⟩
  · intro i hi
    obtain ⟨hne, hil⟩ := mem_erase.1 hi
    rw [heq, next_clear, first_clear, update_of_ne hne]
    by_cases him : i = m
    · subst him
      rw [update_self]
      refine (update_of_notMem ?_).2 hprom.chain
      rw [mem_append, hmem]
      rintro (hc | hc)
      · exact hrr hc.1
      · exact h.root_notMem_kids hil hp hc
    · rw [update_of_ne him, hprom.first i him]
      refine (update_of_notMem (h.root_notMem_kids hil hp)).2 ?_
      exact (Segment.congr fun y hy => hprom.next y fun hy' =>
        hne (h.disjoint_kids hil hr hy hy')).2 (h.chain i hil)
  · intro i hi c
    obtain ⟨hne, hil⟩ := mem_erase.1 hi
    have hout : ∀ j ∈ live, c ∈ kids j → c ∈ live.erase r := fun j hj hc =>
      mem_erase.2 ⟨fun e => h.root_notMem_kids hj hp (e ▸ hc), ((h.mem_kids j hj c).1 hc).1⟩
    by_cases him : i = m
    · subst him
      simp only [update_self, mem_append, true_and]
      rw [← mem_append, hmem]
      constructor
      · rintro (hc | hc)
        · exact ⟨hout r hr hc.1, hc.2, .inl hc.1⟩
        · exact ⟨hout i hil hc, fun e => h.notMem_kids_self hil (e ▸ hc), .inr hc⟩
      · rintro ⟨-, hci, hc | hc⟩
        · exact .inl ⟨hc, hci⟩
        · exact .inr hc
    · simp only [update_of_ne him, him, false_and, false_or]
      exact ⟨fun hc => ⟨hout i hil hc, fun e => h.notMem_kids_self hil (e ▸ hc), hc⟩,
        fun hc => hc.2.2⟩
  · intro i hi
    obtain ⟨hne, hil⟩ := mem_erase.1 hi
    by_cases him : i = m
    · subst him
      rw [update_self]
      have hks := hnd i hm
      rw [hsplit, append_assoc] at hks
      rw [append_assoc]
      exact hks.sublist (by simp)
    · rw [update_of_ne him]
      exact h.nodup i hil
  · intro i hi hpi
    obtain ⟨hne, hil⟩ := mem_erase.1 hi
    rw [heq, next_clear, update_of_ne hne]
    by_cases him : i = m
    · exact him ▸ hprom.next_root
    · rw [hrem.par i hi] at hpi
      have hir : t.par i ≠ r := by
        intro e
        rw [if_pos e] at hpi
        exact him hpi.symm
      rw [if_neg hir] at hpi
      rw [hprom.next i (h.root_notMem_kids hr hpi), h.root_next i hil hpi]

end

end Shape

end Ulfm
