import Ulfm.Era.Tree.Build

/-!
# Trees with one subtree for each daemon

With a positive topology the nodes of one daemon form a subtree under the first of
them, and these representatives form a tree of their own. `eraCallTreeFn` handles
the groups one after the other and only touches the nodes of the group at hand, so
what it has made of a group (`GroupLinks`) stays until the end. The main result is
`eraBuildTreeStructure_treeInv`.
-/

namespace Ulfm

open List Function EraTree EraNode Nat

/-! ### Groups -/

/-- The nodes below `n` in disjoint increasing groups, ordered by their first
nodes. -/
structure Grouping (groups : List (List ℕ)) (n : ℕ) : Prop where
  ne_nil : ∀ g ∈ groups, g ≠ []
  sorted : ∀ g ∈ groups, g.Pairwise (· < ·)
  mem : ∀ x, (∃ g ∈ groups, x ∈ g) ↔ x < n
  disjoint : groups.Pairwise List.Disjoint
  heads : groups.Pairwise fun g g' => g.headD 0 < g'.headD 0

theorem addToGroup_cases (d m : ℕ) (gs : List (ℕ × List ℕ)) : addToGroup d m gs = gs ++ [(d, [m])] ∨
      ∃ l e g l', gs = l ++ (e, g) :: l' ∧ addToGroup d m gs = l ++ (e, g ++ [m]) :: l' := by
  induction gs with
  | nil => exact .inl rfl
  | cons x gs ih =>
    obtain ⟨e, g⟩ := x
    rw [addToGroup]
    split
    · exact .inr ⟨[], e, g, gs, rfl, rfl⟩
    · rcases ih with h | ⟨l, e', g', l', h1, h2⟩
      · exact .inl (by rw [h, cons_append])
      · exact .inr ⟨(e, g) :: l, e', g', l', by rw [h1, cons_append], by rw [h2, cons_append]⟩

namespace Grouping

variable {groups : List (List ℕ)} {n : ℕ}

theorem nil : Grouping [] 0 := ⟨by simp, by simp, by simp, List.Pairwise.nil, List.Pairwise.nil⟩

theorem lt (h : Grouping groups n) {g : List ℕ} (hg : g ∈ groups) {x : ℕ} (hx : x ∈ g) : x < n :=
  (h.mem x).1 ⟨g, hg, hx⟩

theorem headD_mem (h : Grouping groups n) {g : List ℕ} (hg : g ∈ groups) : g.headD 0 ∈ g := by
  cases hc : g with
  | nil => exact absurd hc (h.ne_nil g hg)
  | cons x l => simp

theorem open_group (h : Grouping groups n) : Grouping (groups ++ [[n]]) (n + 1) where
  ne_nil g hg := by
    rcases mem_append.1 hg with hg | hg
    · exact h.ne_nil g hg
    · simp [mem_singleton.1 hg]
  sorted g hg := by
    rcases mem_append.1 hg with hg | hg
    · exact h.sorted g hg
    · simp [mem_singleton.1 hg]
  mem x := by
    constructor
    · rintro ⟨g, hg, hx⟩
      rcases mem_append.1 hg with hg | hg
      · exact (h.lt hg hx).trans (lt_succ_self n)
      · rw [mem_singleton.1 hg, mem_singleton] at hx
        omega
    · intro hx
      by_cases hxn : x = n
      · exact ⟨[n], by simp, by simp [hxn]⟩
      · obtain ⟨g, hg, hxg⟩ := (h.mem x).2 (by omega)
        exact ⟨g, mem_append_left _ hg, hxg⟩
  disjoint := by
    refine pairwise_append.2 ⟨h.disjoint, pairwise_singleton _ _, ?_⟩
    intro g hg g' hg' x hx hx'
    rw [mem_singleton.1 hg', mem_singleton] at hx'
    exact (h.lt hg hx).ne hx'
  heads := by
    refine pairwise_append.2 ⟨h.heads, pairwise_singleton _ _, ?_⟩
    intro g hg g' hg'
    rw [mem_singleton.1 hg']
    exact h.lt hg (h.headD_mem hg)

theorem join_group {l l' : List (List ℕ)} {g : List ℕ} (h : Grouping (l ++ g :: l') n) :
    Grouping (l ++ (g ++ [n]) :: l') (n + 1) := by
  have hmem : ∀ g', g' ∈ l ++ (g ++ [n]) :: l' → g' = g ++ [n] ∨ g' ∈ l ++ g :: l' := by
    intro g' hg'
    simp only [mem_append, mem_cons] at hg' ⊢
    tauto
  have hg : g ∈ l ++ g :: l' := by simp
  have hhead : (g ++ [n]).headD 0 = g.headD 0 := by
    cases hc : g with
    | nil => exact absurd hc (h.ne_nil g hg)
    | cons x k => rfl
  have hnew : ∀ g' ∈ l ++ g :: l', n ∉ g' := fun g' hg' hn => lt_irrefl n (h.lt hg' hn)
  have hd := pairwise_append.1 h.disjoint
  have hh := pairwise_append.1 h.heads
  have hd2 := pairwise_cons.1 hd.2.1
  have hh2 := pairwise_cons.1 hh.2.1
  refine ⟨fun g' hg' => ?_, fun g' hg' => ?_, fun x => ?_, ?_, ?_⟩
  · rcases hmem g' hg' with rfl | hg'
    · simp
    · exact h.ne_nil g' hg'
  · rcases hmem g' hg' with rfl | hg'
    · refine pairwise_append.2 ⟨h.sorted g hg, pairwise_singleton _ _, ?_⟩
      intro x hx y hy
      rw [mem_singleton.1 hy]
      exact h.lt hg hx
    · exact h.sorted g' hg'
  · constructor
    · rintro ⟨g', hg', hx⟩
      rcases hmem g' hg' with rfl | hg'
      · rcases mem_append.1 hx with hx | hx
        · exact (h.lt hg hx).trans (lt_succ_self n)
        · rw [mem_singleton.1 hx]
          exact lt_succ_self n
      · exact (h.lt hg' hx).trans (lt_succ_self n)
    · intro hx
      by_cases hxn : x = n
      · exact ⟨g ++ [n], by simp, by simp [hxn]⟩
      · obtain ⟨g', hg', hxg⟩ := (h.mem x).2 (by omega)
        rcases mem_append.1 hg' with hg' | hg'
        · exact ⟨g', by simp [hg'], hxg⟩
        · rcases mem_cons.1 hg' with rfl | hg'
          · exact ⟨g' ++ [n], by simp, by simp [hxg]⟩
          · exact ⟨g', by simp [hg'], hxg⟩
  · refine pairwise_append.2 ⟨hd.1, pairwise_cons.2 ⟨fun g' hg' => ?_, hd2.2⟩, ?_⟩
    · refine disjoint_append_left.2 ⟨hd2.1 g' hg', ?_⟩
      exact singleton_disjoint.2 (hnew g' (by simp [hg']))
    · intro g' hg' g'' hg''
      rcases mem_cons.1 hg'' with rfl | hg''
      · refine disjoint_append_right.2 ⟨hd.2.2 g' hg' g (by simp), ?_⟩
        exact disjoint_singleton.2 (hnew g' (by simp [hg']))
      · exact hd.2.2 g' hg' g'' (by simp [hg''])
  · refine pairwise_append.2 ⟨hh.1, pairwise_cons.2 ⟨fun g' hg' => ?_, hh2.2⟩, ?_⟩
    · rw [hhead]
      exact hh2.1 g' hg'
    · intro g' hg' g'' hg''
      rcases mem_cons.1 hg'' with rfl | hg''
      · rw [hhead]
        exact hh.2.2 g' hg' g (by simp)
      · exact hh.2.2 g' hg' g'' (by simp [hg''])

end Grouping

theorem daemonGroups_grouping (daemon : ℕ → ℕ) (ranks : List ℕ) :
    Grouping (daemonGroups daemon ranks) ranks.length := by
  -- the fold over the nodes, from a grouping of the first `m` of them
  have key : ∀ (l : List ℕ) (m : ℕ) (gs : List (ℕ × List ℕ)), Grouping (gs.map Prod.snd) m →
      Grouping (((l.zipIdx m).foldl (fun gs x => addToGroup (daemon x.1) x.2 gs) gs).map
        Prod.snd) (m + l.length) := by
    intro l
    induction l with
    | nil => exact fun m gs h => h
    | cons r l ih =>
      intro m gs h
      have hstep : Grouping ((addToGroup (daemon r) m gs).map Prod.snd) (m + 1) := by
        rcases addToGroup_cases (daemon r) m gs with heq | ⟨k, e, g, k', h1, heq⟩
        · rw [heq, map_append]
          exact h.open_group
        · rw [h1, map_append, map_cons] at h
          rw [heq, map_append, map_cons]
          exact h.join_group
      rw [zipIdx_cons, foldl_cons, length_cons, ← Nat.add_assoc, Nat.add_right_comm]
      exact ih (m + 1) _ hstep
  simpa [daemonGroups] using key ranks 0 [] Grouping.nil

/-! ### Linking one group -/

/-- Between `t` and `t'` only links of the nodes of `g` change. -/
structure Touches (g : List ℕ) (t t' : EraTree) : Prop where
  size : t'.treeSize = t.treeSize
  rank : t'.rank = t.rank
  frame : ∀ x ∉ g, t'.node x = t.node x

namespace Touches

variable {g : List ℕ} {t t' t'' : EraTree}

theorem refl : Touches g t t := ⟨rfl, rfl, fun _ _ => rfl⟩

theorem trans (h : Touches g t t') (h' : Touches g t' t'') : Touches g t t'' :=
  ⟨h'.size.trans h.size, h'.rank.trans h.rank, fun x hx => (h'.frame x hx).trans (h.frame x hx)⟩

theorem modify {i : ℕ} (hi : i ∈ g) {f : EraNode → EraNode}
    (hf : (f (t.node i)).rankInComm = (t.node i).rankInComm) : Touches g t (t.modify i f) :=
  ⟨rfl, column_modify_of_eq t i rankInComm f hf, fun x hx =>
    update_of_ne (fun e : x = i => hx (e ▸ hi)) _ _⟩

theorem setParent {i x : ℕ} (hi : i ∈ g) : Touches g t (t.setParent i x) := modify hi rfl

theorem setNextSibling {i x : ℕ} (hi : i ∈ g) : Touches g t (t.setNextSibling i x) := modify hi rfl

theorem setFirstChild {i x : ℕ} (hi : i ∈ g) : Touches g t (t.setFirstChild i x) := modify hi rfl

section

variable (h : Touches g t t') {x : ℕ} (hx : x ∉ g)
include h hx

theorem par : t'.par x = t.par x := congrArg parent (h.frame x hx)

theorem next : t'.next x = t.next x := congrArg nextSibling (h.frame x hx)

theorem first : t'.first x = t.first x := congrArg firstChild (h.frame x hx)

end

end Touches

theorem groupIndex_eq {n : ℕ} {g : List ℕ} {i : ℕ} (hi : i < g.length) (d : ℕ) :
    g.getD i d = groupIndex n g i := by
  rw [groupIndex, getD_eq_getElem _ _ hi, getD_eq_getElem _ _ hi]

theorem groupIndex_mem {n : ℕ} {g : List ℕ} {i : ℕ} (hi : i < g.length) : groupIndex n g i ∈ g := by
  rw [groupIndex, getD_eq_getElem _ _ hi]
  exact getElem_mem hi

@[simp] theorem groupIndex_length (n : ℕ) (g : List ℕ) : groupIndex n g g.length = n := by
  simp [groupIndex]

theorem groupIndex_inj {n : ℕ} {g : List ℕ} (hg : g.Nodup) {i j : ℕ} (hi : i < g.length)
    (hj : j < g.length) (h : groupIndex n g i = groupIndex n g j) : i = j := by
  rw [groupIndex, groupIndex, getD_eq_getElem _ _ hi, getD_eq_getElem _ _ hj] at h
  exact (hg.getElem_inj_iff).1 h

/-- What has become of the group `g`, the `r`-th one, in an array of `n` nodes. -/
structure GroupLinks (f : TreeFn) (n : ℕ) (t : EraTree) (reps g : List ℕ) (r : ℕ)
    (kids : ℕ → List ℕ) : Prop where
  par_head : t.par (groupIndex n g 0) = groupIndex n reps (f reps.length r).1
  next_head : t.next (groupIndex n g 0) = groupIndex n reps (f reps.length r).2.2
  chain_head : Segment t.next (t.first (groupIndex n g 0)) ((kids 0).map (groupIndex n g))
    (groupIndex n reps (f reps.length r).2.1)
  par : ∀ s, 0 < s → s < g.length → t.par (groupIndex n g s) = groupIndex n g (f g.length s).1
  chain : ∀ s, 0 < s → s < g.length →
    Segment t.next (t.first (groupIndex n g s)) ((kids s).map (groupIndex n g)) n

namespace Builds

variable {f : TreeFn} {n : ℕ} {kids : ℕ → List ℕ}

theorem kids_lt (h : Builds f n kids) {m c : ℕ} (hm : m < n) (hc : c ∈ kids m) : c < n :=
  ((h.mem_kids m hm c).1 hc).1

section

variable (h : Builds f n kids) {m : ℕ} (hm : m < n)
include h hm

theorem zero_notMem : 0 ∉ kids m := by
  intro h0
  obtain ⟨-, h1, h2⟩ := (h.mem_kids m hm 0).1 h0
  rw [h.par_zero] at h1
  exact h2 h1

theorem first_le : (f n m).2.1 ≤ n := by
  rcases (h.chain m hm).start_mem_or with he | he
  · exact he.le
  · exact (h.kids_lt hm he).le

theorem next_le : (f n m).2.2 ≤ n := by
  rcases Nat.eq_zero_or_pos m with rfl | h0
  · exact (h.root_next hm).le
  · have hp := h.par_lt m h0 hm
    have hmem : m ∈ kids (f n m).1 := (h.mem_kids _ (hp.trans hm) m).2 ⟨hm, rfl, hp.ne'⟩
    rcases (h.chain _ (hp.trans hm)).next_mem_or hmem with he | he
    · exact he.le
    · exact (h.kids_lt (hp.trans hm) he).le

end

end Builds

theorem GroupLinks.touches {f : TreeFn} {n r : ℕ} {t t' : EraTree} {reps g g' : List ℕ}
    {kids : ℕ → List ℕ} (h : GroupLinks f n t reps g r kids) (hb : Builds f g.length kids)
    (hg : g ≠ []) (ht : Touches g' t t') (hd : g.Disjoint g') :
    GroupLinks f n t' reps g r kids := by
  have hlen : 0 < g.length := length_pos_iff.2 hg
  have hout : ∀ s < g.length, groupIndex n g s ∉ g' := fun s hs hx => hd (groupIndex_mem hs) hx
  have hseg : ∀ s < g.length, ∀ a b, Segment t.next a ((kids s).map (groupIndex n g)) b →
      Segment t'.next a ((kids s).map (groupIndex n g)) b := by
    intro s hs a b hseg
    refine (Segment.congr fun y hy => ?_).2 hseg
    obtain ⟨c, hc, rfl⟩ := mem_map.1 hy
    exact ht.next (hout c (hb.kids_lt hs hc))
  exact
    { par_head := (ht.par (hout 0 hlen)).trans h.par_head
      next_head := (ht.next (hout 0 hlen)).trans h.next_head
      chain_head := by
        rw [ht.first (hout 0 hlen)]
        exact hseg 0 hlen _ _ h.chain_head
      par := fun s h0 hs => (ht.par (hout s hs)).trans (h.par s h0 hs)
      chain := fun s h0 hs => by
        rw [ht.first (hout s hs)]
        exact hseg s hs _ _ (h.chain s h0 hs) }

theorem copyGroup_spec (f : TreeFn) (t : EraTree) {g : List ℕ} (hg : g.Nodup) :
    Touches g t (copyGroup f t g) ∧ ∀ s < g.length, (copyGroup f t g).node (g.getD s 0) =
        { t.node (g.getD s 0) with
          parent := g.getD (f g.length s).1 0
          nextSibling := groupIndex t.treeSize g (f g.length s).2.2
          firstChild := groupIndex t.treeSize g (f g.length s).2.1 } := by
  have hinj : ∀ i < g.length, ∀ j < g.length, g.getD i 0 = g.getD j 0 → i = j :=
    fun i hi j hj => groupIndex_inj hg hi hj
  -- the loop after `k` rounds
  have key : ∀ k ≤ g.length, ∀ t', t' = (range k).foldl
      (fun t s => t.modify (g.getD s 0) fun n =>
        { n with
          parent := g.getD (f g.length s).1 0
          nextSibling := groupIndex t.treeSize g (f g.length s).2.2
          firstChild := groupIndex t.treeSize g (f g.length s).2.1 }) t →
      Touches g t t' ∧ ∀ s < g.length, t'.node (g.getD s 0) = if s < k then
          { t.node (g.getD s 0) with
            parent := g.getD (f g.length s).1 0
            nextSibling := groupIndex t.treeSize g (f g.length s).2.2
            firstChild := groupIndex t.treeSize g (f g.length s).2.1 }
        else t.node (g.getD s 0) := by
    intro k
    induction k with
    | zero =>
      rintro - t' rfl
      exact ⟨Touches.refl, fun s _ => by simp⟩
    | succ k ih =>
      rintro hk t' rfl
      rw [range_succ, foldl_append, foldl_cons, foldl_nil]
      obtain ⟨h1, h2⟩ := ih (by omega) _ rfl
      generalize foldl _ t (range k) = t' at h1 h2 ⊢
      have hkg : g.getD k 0 ∈ g := groupIndex_mem hk
      refine ⟨h1.trans (Touches.modify hkg rfl), fun s hs => ?_⟩
      simp only [EraTree.modify]
      by_cases hsk : s = k
      · subst hsk
        rw [update_self, h2 s hs, if_neg (lt_irrefl s), if_pos (lt_succ_self s), h1.size]
      · rw [update_of_ne fun e => hsk (hinj s hs k (by omega) e), h2 s hs]
        have : s < k ↔ s < k + 1 := by omega
        simp only [this]
  obtain ⟨h1, h2⟩ := key g.length le_rfl _ rfl
  exact ⟨h1, fun s hs => (h2 s hs).trans (if_pos hs)⟩

theorem lastSibling_eq {t : EraTree} {a c k : ℕ} {l : List ℕ}
    (h : Segment t.next a (l ++ [c]) t.treeSize) (hk : l.length ≤ k)
    (hl : ∀ x ∈ l ++ [c], x ≠ t.treeSize) : lastSibling t k a = c := by
  induction k generalizing a l with
  | zero =>
    obtain rfl : l = [] := length_eq_zero_iff.1 (by omega)
    exact h.1
  | succ k ih =>
    cases l with
    | nil =>
      obtain ⟨rfl, h2 : t.next a = t.treeSize⟩ := h
      exact if_pos h2
    | cons x l =>
      obtain ⟨rfl, h2⟩ := h
      have hne : (t.node a).nextSibling ≠ t.treeSize := by
        have hmem : t.next a ∈ l ++ [c] := by
          rcases h2.start_mem_or with he | he
          · exfalso
            rw [he] at h2
            have := h2.eq_nil fun hm => hl _ (mem_cons_of_mem _ hm) rfl
            simp at this
          · exact he
        exact hl _ (mem_cons_of_mem _ hmem)
      rw [lastSibling, if_neg hne]
      exact ih h2 (by simpa using hk) fun y hy => hl y (mem_cons_of_mem _ hy)

section Link

variable {f : TreeFn} {n r : ℕ} {t : EraTree} {reps g : List ℕ} {kids kidsR : ℕ → List ℕ}

/-- The group `g` as `copyGroup` leaves it. -/
structure Copied (f : TreeFn) (n : ℕ) (g : List ℕ) (t : EraTree) : Prop where
  size : t.treeSize = n
  par : ∀ s < g.length, t.par (groupIndex n g s) = groupIndex n g (f g.length s).1
  next : ∀ s < g.length, t.next (groupIndex n g s) = groupIndex n g (f g.length s).2.2
  first : ∀ s < g.length, t.first (groupIndex n g s) = groupIndex n g (f g.length s).2.1

theorem copyGroup_copied (hb : Builds f g.length kids) (hsize : t.treeSize = n) (hg : g.Nodup) :
    Copied f n g (copyGroup f t g) := by
  obtain ⟨htouch, hnode⟩ := copyGroup_spec f t hg
  have hix : ∀ s < g.length, g.getD s 0 = groupIndex n g s := fun s hs => groupIndex_eq hs 0
  rw [hsize] at hnode
  refine ⟨htouch.size.trans hsize, fun s hs => ?_, fun s hs => ?_, fun s hs => ?_⟩
  · rw [← hix s hs, ← hix _ ((hb.par_le hs).trans_lt hs)]
    exact congrArg parent (hnode s hs)
  · rw [← hix s hs]
    exact congrArg nextSibling (hnode s hs)
  · rw [← hix s hs]
    exact congrArg firstChild (hnode s hs)

theorem Copied.chain (h : Copied f n g t) (hb : Builds f g.length kids) {s : ℕ}
    (hs : s < g.length) :
    Segment t.next (t.first (groupIndex n g s)) ((kids s).map (groupIndex n g)) n := by
  have hseg := (hb.chain s hs).map fun y hy => h.next y (hb.kids_lt hs hy)
  rwa [groupIndex_length, ← h.first s hs] at hseg

theorem Copied.next_head (h : Copied f n g t) (hb : Builds f g.length kids)
    (hlen : 0 < g.length) : t.next (groupIndex n g 0) = n := by
  rw [h.next 0 hlen, hb.root_next hlen, groupIndex_length]

theorem head_notMem_kids (hb : Builds f g.length kids) (hg : g.Nodup) {s : ℕ}
    (hs : s < g.length) : groupIndex n g 0 ∉ (kids s).map (groupIndex n g) := by
  intro hx
  obtain ⟨c, hc, he⟩ := mem_map.1 hx
  have h0 := groupIndex_inj hg (hb.kids_lt hs hc) (by omega) he
  exact hb.zero_notMem hs (h0 ▸ hc)

/-- The representative gets its parent and its next sibling. -/
def linkHead (f : TreeFn) (n : ℕ) (reps g : List ℕ) (t : EraTree) (r : ℕ) : EraTree :=
  let t := t.setParent (groupIndex n g 0) (groupIndex n reps (f reps.length r).1)
  if (f reps.length r).2.2 = reps.length then t
  else t.setNextSibling (groupIndex n g 0) (groupIndex n reps (f reps.length r).2.2)

theorem linkHead_touches (hlen : 0 < g.length) : Touches g t (linkHead f n reps g t r) := by
  have hhead : groupIndex n g 0 ∈ g := groupIndex_mem hlen
  unfold linkHead
  dsimp only
  split
  · exact Touches.setParent hhead
  · exact (Touches.setParent hhead).trans (Touches.setNextSibling hhead)

theorem first_linkHead : (linkHead f n reps g t r).first = t.first := by
  unfold linkHead
  dsimp only
  split <;> simp

theorem par_linkHead : (linkHead f n reps g t r).par =
    update t.par (groupIndex n g 0) (groupIndex n reps (f reps.length r).1) := by
  unfold linkHead
  dsimp only
  split <;> simp

theorem Copied.next_linkHead (h : Copied f n g t) (hb : Builds f g.length kids)
    (hlen : 0 < g.length) : (linkHead f n reps g t r).next =
      update t.next (groupIndex n g 0) (groupIndex n reps (f reps.length r).2.2) := by
  unfold linkHead
  dsimp only
  split
  · next he =>
      have hend : groupIndex n reps (f reps.length r).2.2 = t.next (groupIndex n g 0) := by
        rw [he, groupIndex_length, h.next_head hb hlen]
      rw [hend, update_eq_self, next_setParent]
  · simp

theorem Copied.linkGroup_eq (h : Copied f n g t) (hb : Builds f g.length kids)
    (hR : Builds f reps.length kidsR) (hlen : 0 < g.length) (hr : r < reps.length)
    (hrep : groupIndex n reps r = groupIndex n g 0) :
    let t' := linkHead f n reps g t r
    let u := groupIndex n reps (f reps.length r).2.1
    linkGroup f reps t r = if (f reps.length r).2.1 = reps.length then t'
      else if t'.first (groupIndex n g 0) = n then t'.setFirstChild (groupIndex n g 0) u
      else t'.setNextSibling (lastSibling t' n (t'.first (groupIndex n g 0))) u := by
  intro t' u
  have hrix : ∀ s < reps.length, reps.getD s 0 = groupIndex n reps s :=
    fun s hs => groupIndex_eq hs 0
  have hrr : reps.getD r 0 = groupIndex n g 0 := (hrix r hr).trans hrep
  have hp : reps.getD (f reps.length r).1 0 = groupIndex n reps (f reps.length r).1 :=
    hrix _ ((hR.par_le hr).trans_lt hr)
  have hend : ∀ x, ((t.setParent (groupIndex n g 0) x).node (groupIndex n g 0)).nextSibling =
      (t.setParent (groupIndex n g 0) x).treeSize := by
    intro x
    have hn := congrFun (next_setParent t (groupIndex n g 0) x) (groupIndex n g 0)
    exact hn.trans ((h.next_head hb hlen).trans h.size.symm)
  have hlink : linkGroup f reps t r = if (f reps.length r).2.1 = reps.length then t'
      else if (t'.node (groupIndex n g 0)).firstChild = t'.treeSize then
        t'.setFirstChild (groupIndex n g 0) (reps.getD (f reps.length r).2.1 0)
      else t'.setNextSibling
        (lastSibling t' t'.treeSize (t'.node (groupIndex n g 0)).firstChild)
        (reps.getD (f reps.length r).2.1 0) := by
    unfold linkGroup
    simp only [hrr, hp, hend, if_true]
    by_cases he : (f reps.length r).2.2 = reps.length
    · simp only [t', linkHead, he, if_true]
    · simp only [t', linkHead, he, if_false, hrix _ (lt_of_le_of_ne (hR.next_le hr) he)]
  rw [hlink, (linkHead_touches hlen).size.trans h.size]
  by_cases he : (f reps.length r).2.1 = reps.length
  · rw [if_pos he, if_pos he]
  · rw [if_neg he, if_neg he, hrix _ (lt_of_le_of_ne (hR.first_le hr) he)]
    rfl

theorem lastSibling_kids {l : List ℕ} {c : ℕ} (hb : Builds f g.length kids)
    (hsize : t.treeSize = n) (hg : g.Nodup) (hlt : ∀ x ∈ g, x < n) (hlen : 0 < g.length)
    (hlc : kids 0 = l ++ [c])
    (h : Segment t.next (t.first (groupIndex n g 0)) ((kids 0).map (groupIndex n g)) n) :
    lastSibling t n (t.first (groupIndex n g 0)) = groupIndex n g c := by
  rw [hlc, map_append, map_singleton, ← hsize] at h
  have hcells : ∀ x ∈ l.map (groupIndex t.treeSize g) ++ [groupIndex t.treeSize g c],
      x ≠ t.treeSize := by
    intro x hx
    rw [← map_singleton, ← map_append, ← hlc] at hx
    obtain ⟨d, hd, rfl⟩ := mem_map.1 hx
    rw [hsize]
    exact (hlt _ (groupIndex_mem (hb.kids_lt hlen hd))).ne
  have h1 := length_le_of_nodup (hb.nodup 0 hlen) fun d hd => hb.kids_lt hlen hd
  have h2 := length_le_of_nodup hg hlt
  have h3 : (kids 0).length = l.length + 1 := by simp [hlc]
  subst hsize
  refine lastSibling_eq h ?_ hcells
  rw [length_map]
  omega

theorem linkGroup_spec (hb : Builds f g.length kids) (hR : Builds f reps.length kidsR)
    (hsize : t.treeSize = n) (hg : g.Nodup) (hne : g ≠ []) (hlt : ∀ x ∈ g, x < n)
    (hr : r < reps.length) (hrep : groupIndex n reps r = groupIndex n g 0) :
    Touches g t (linkGroup f reps (copyGroup f t g) r) ∧
      GroupLinks f n (linkGroup f reps (copyGroup f t g) r) reps g r kids := by
  have hlen : 0 < g.length := length_pos_iff.2 hne
  have hcopy : Copied f n g (copyGroup f t g) := copyGroup_copied hb hsize hg
  have htouch := (copyGroup_spec f t hg).1
  generalize copyGroup f t g = t₁ at hcopy htouch ⊢
  rw [hcopy.linkGroup_eq hb hR hlen hr hrep]
  have htouch₂ : Touches g t (linkHead f n reps g t₁ r) := htouch.trans (linkHead_touches hlen)
  have hfirst : (linkHead f n reps g t₁ r).first = t₁.first := first_linkHead
  have hpar : (linkHead f n reps g t₁ r).par =
      update t₁.par (groupIndex n g 0) (groupIndex n reps (f reps.length r).1) :=
    par_linkHead
  have hnext : (linkHead f n reps g t₁ r).next =
      update t₁.next (groupIndex n g 0) (groupIndex n reps (f reps.length r).2.2) :=
    hcopy.next_linkHead hb hlen
  generalize linkHead f n reps g t₁ r = t₂ at htouch₂ hfirst hpar hnext ⊢
  have hsize₂ : t₂.treeSize = n := htouch₂.size.trans hsize
  have hne0 : ∀ s, 0 < s → s < g.length → groupIndex n g s ≠ groupIndex n g 0 :=
    fun s h0 hs e => h0.ne' (groupIndex_inj hg hs hlen e)
  have hchain : ∀ s < g.length,
      Segment t₂.next (t₂.first (groupIndex n g s)) ((kids s).map (groupIndex n g)) n := by
    intro s hs
    rw [hnext, hfirst]
    exact (Segment.update_of_notMem (head_notMem_kids hb hg hs)).2 (hcopy.chain hb hs)
  have hpars : ∀ s, 0 < s → s < g.length →
      t₂.par (groupIndex n g s) = groupIndex n g (f g.length s).1 := by
    intro s h0 hs
    rw [hpar, update_of_ne (hne0 s h0 hs)]
    exact hcopy.par s hs
  have hphead : t₂.par (groupIndex n g 0) = groupIndex n reps (f reps.length r).1 := by
    rw [hpar, update_self]
  have hnhead : t₂.next (groupIndex n g 0) = groupIndex n reps (f reps.length r).2.2 := by
    rw [hnext, update_self]
  by_cases he : (f reps.length r).2.1 = reps.length
  · rw [if_pos he]
    refine ⟨htouch₂, hphead, hnhead, ?_, hpars, fun s _ hs => hchain s hs⟩
    rw [he, groupIndex_length]
    exact hchain 0 hlen
  rw [if_neg he]
  by_cases hz : t₂.first (groupIndex n g 0) = n
  · -- the representative has no child in its group
    rw [if_pos hz]
    have hnil : (kids 0).map (groupIndex n g) = [] := by
      have h0 := hchain 0 hlen
      rw [hz] at h0
      refine h0.eq_nil fun hm => ?_
      obtain ⟨c, hc, hcn⟩ := mem_map.1 hm
      have := hlt _ (groupIndex_mem (n := n) (hb.kids_lt hlen hc))
      omega
    refine ⟨htouch₂.trans (Touches.setFirstChild (groupIndex_mem hlen)), ?_, ?_, ?_, ?_, ?_⟩
    · rw [par_setFirstChild, hphead]
    · rw [next_setFirstChild, hnhead]
    · rw [hnil, first_setFirstChild, update_self]
      rfl
    · rw [par_setFirstChild]
      exact hpars
    · intro s h0 hs
      rw [next_setFirstChild, first_setFirstChild, update_of_ne (hne0 s h0 hs)]
      exact hchain s hs
  · -- the children in other groups come after the last child in the group
    rw [if_neg hz]
    have hsome : kids 0 ≠ [] := by
      intro hnil
      have h0 := hchain 0 hlen
      rw [hnil] at h0
      exact hz h0
    obtain ⟨l, c, hlc⟩ : ∃ l c, kids 0 = l ++ [c] := ⟨_, _, (dropLast_append_getLast hsome).symm⟩
    have hcm : c ∈ kids 0 := by simp [hlc]
    have hcl := hb.kids_lt hlen hcm
    rw [lastSibling_kids hb hsize₂ hg hlt hlen hlc (hchain 0 hlen)]
    have hc0 : groupIndex n g 0 ≠ groupIndex n g c := by
      intro e
      have := groupIndex_inj hg hlen hcl e
      exact hb.zero_notMem hlen (this ▸ hcm)
    refine ⟨htouch₂.trans (Touches.setNextSibling (groupIndex_mem hcl)), ?_, ?_, ?_, ?_, ?_⟩
    · rw [par_setNextSibling, hphead]
    · rw [next_setNextSibling, update_of_ne hc0, hnhead]
    · have hseg := hchain 0 hlen
      rw [hlc, map_append, map_singleton] at hseg ⊢
      rw [next_setNextSibling, first_setNextSibling]
      refine hseg.redirect fun hx => ?_
      obtain ⟨d, hd, hdc⟩ := mem_map.1 hx
      have hdl : d < g.length := hb.kids_lt hlen (by simp [hlc, hd])
      obtain rfl := groupIndex_inj hg hdl hcl hdc
      have hnd := hb.nodup 0 hlen
      rw [hlc] at hnd
      exact disjoint_of_nodup_append hnd hd (by simp)
    · rw [par_setNextSibling]
      exact hpars
    · intro s h0 hs
      rw [next_setNextSibling, first_setNextSibling]
      refine (Segment.update_of_notMem fun hx => ?_).2 (hchain s hs)
      obtain ⟨d, hd, hdc⟩ := mem_map.1 hx
      obtain rfl := groupIndex_inj hg (hb.kids_lt hs hd) hcl hdc
      have h1 := ((hb.mem_kids 0 hlen d).1 hcm).2.1
      have h2 := ((hb.mem_kids s hs d).1 hd).2.1
      omega

end Link

/-! ### The whole tree -/

/-- The number of nodes of group `r`. -/
def groupSize (groups : List (List ℕ)) (r : ℕ) : ℕ := (groups.getD r []).length

/-- The node at place `s` of group `r`. -/
def groupNode (n : ℕ) (groups : List (List ℕ)) (r s : ℕ) : ℕ := groupIndex n (groups.getD r []) s

namespace Grouping

variable {groups : List (List ℕ)} {n r r' s s' : ℕ}

theorem getD_mem (hr : r < groups.length) : groups.getD r [] ∈ groups := by
  rw [getD_eq_getElem _ _ hr]
  exact getElem_mem hr

section

variable (h : Grouping groups n)
include h

theorem disjoint_getD (hlt : r < r') (hr' : r' < groups.length) :
    (groups.getD r []).Disjoint (groups.getD r' []) := by
  rw [getD_eq_getElem _ _ hr', getD_eq_getElem _ _ (hlt.trans hr')]
  exact pairwise_iff_getElem.1 h.disjoint r r' _ hr' hlt

theorem nodup {g : List ℕ} (hg : g ∈ groups) : g.Nodup := (h.sorted g hg).imp fun h => h.ne

theorem groupSize_pos (hr : r < groups.length) : 0 < groupSize groups r :=
  length_pos_iff.2 (h.ne_nil _ (getD_mem hr))

theorem groupNode_zero (hr : r < groups.length) :
    groupNode n groups r 0 = (groups.getD r []).headD 0 := by
  rw [groupNode]
  cases hc : groups.getD r [] with
  | nil => exact absurd hc (h.ne_nil _ (getD_mem hr))
  | cons x l => rfl

theorem groupNode_lt (hr : r < groups.length)
    (hs : s < groupSize groups r) : groupNode n groups r s < n :=
  h.lt (getD_mem hr) (groupIndex_mem hs)

theorem exists_groupNode {x : ℕ} (hx : x < n) :
    ∃ r < groups.length, ∃ s < groupSize groups r, x = groupNode n groups r s := by
  obtain ⟨g, hg, hxg⟩ := (h.mem x).2 hx
  obtain ⟨r, hr, rfl⟩ := getElem_of_mem hg
  obtain ⟨s, hs, rfl⟩ := getElem_of_mem hxg
  refine ⟨r, hr, s, ?_, ?_⟩
  · rwa [groupSize, getD_eq_getElem _ _ hr]
  · rw [groupNode, getD_eq_getElem _ _ hr, groupIndex, getD_eq_getElem _ _ hs]

theorem groupNode_inj (hr : r < groups.length)
    (hs : s < groupSize groups r) (hr' : r' < groups.length) (hs' : s' < groupSize groups r') :
    groupNode n groups r s = groupNode n groups r' s' ↔ r = r' ∧ s = s' := by
  constructor
  · intro he
    have hm : groupNode n groups r s ∈ groups.getD r [] := groupIndex_mem hs
    have hm' : groupNode n groups r s ∈ groups.getD r' [] := he ▸ groupIndex_mem hs'
    rcases lt_trichotomy r r' with hlt | rfl | hlt
    · exact absurd hm' (h.disjoint_getD hlt hr' hm)
    · exact ⟨rfl, groupIndex_inj (h.nodup (getD_mem hr)) hs hs' he⟩
    · exact absurd hm (h.disjoint_getD hlt hr hm')
  · rintro ⟨rfl, rfl⟩
    rfl

theorem groupNode_lt_groupNode (hr : r < groups.length) (hlt : s < s')
    (hs' : s' < groupSize groups r) : groupNode n groups r s < groupNode n groups r s' := by
  rw [groupNode, groupNode, groupIndex, groupIndex, getD_eq_getElem _ _ (hlt.trans hs'),
    getD_eq_getElem _ _ hs']
  exact pairwise_iff_getElem.1 (h.sorted _ (getD_mem hr)) _ _ _ hs' hlt

theorem head_lt_head (hlt : r < r') (hr' : r' < groups.length) :
    groupNode n groups r 0 < groupNode n groups r' 0 := by
  rw [h.groupNode_zero (hlt.trans hr'), h.groupNode_zero hr', getD_eq_getElem _ _ hr',
    getD_eq_getElem _ _ (hlt.trans hr')]
  exact pairwise_iff_getElem.1 h.heads _ _ _ hr' hlt

end

end Grouping

/-- The array after the loop over the groups. -/
structure Assembled (f : TreeFn) (n : ℕ) (t : EraTree) (groups : List (List ℕ)) (reps : List ℕ)
    (kids : ℕ → ℕ → List ℕ) : Prop where
  builds : ∀ k, Builds f k (kids k)
  grouping : Grouping groups n
  size : t.treeSize = n
  length : reps.length = groups.length
  rep : ∀ r < groups.length, groupIndex n reps r = groupNode n groups r 0
  links : ∀ r < groups.length,
    GroupLinks f n t reps (groups.getD r []) r (kids (groupSize groups r))

theorem linkGroups_assembled {f : TreeFn} {n : ℕ} {t t' : EraTree} {groups : List (List ℕ)}
    {reps : List ℕ} {kids : ℕ → ℕ → List ℕ} (hf : ∀ k, Builds f k (kids k))
    (h : Grouping groups n) (hsize : t.treeSize = n)
    (hreps : reps = groups.map fun g => g.headD 0)
    (ht' : t' = (List.range groups.length).foldl
      (fun t r => linkGroup f reps (copyGroup f t (groups.getD r [])) r) t) :
    Assembled f n t' groups reps kids ∧ t'.rank = t.rank := by
  have hlen : reps.length = groups.length := by simp [hreps]
  have hrep : ∀ r < groups.length, groupIndex n reps r = groupNode n groups r 0 := by
    intro r hr
    rw [h.groupNode_zero hr, groupIndex, getD_eq_getElem _ _ (hlen.symm ▸ hr),
      getD_eq_getElem _ _ hr]
    simp [hreps]
  have key : ∀ k ≤ groups.length, ∀ t', t' = (range k).foldl
      (fun t r => linkGroup f reps (copyGroup f t (groups.getD r [])) r) t →
      t'.treeSize = n ∧ t'.rank = t.rank ∧ ∀ r < k,
        GroupLinks f n t' reps (groups.getD r []) r (kids (groupSize groups r)) := by
    intro k
    induction k with
    | zero =>
      rintro - t' rfl
      exact ⟨hsize, rfl, fun r hr => absurd hr (Nat.not_lt_zero r)⟩
    | succ k ih =>
      rintro hk t' rfl
      rw [range_succ, foldl_append, foldl_cons, foldl_nil]
      obtain ⟨h1, h2, h3⟩ := ih (by omega) _ rfl
      generalize foldl _ t (range k) = t' at h1 h2 h3 ⊢
      have hg : groups.getD k [] ∈ groups := Grouping.getD_mem hk
      obtain ⟨ht, hl⟩ := linkGroup_spec (hf (groupSize groups k)) (hf reps.length) h1
        (h.nodup hg) (h.ne_nil _ hg) (fun x hx => h.lt hg hx) (hlen.symm ▸ hk) (hrep k hk)
      refine ⟨ht.size.trans h1, ht.rank.trans h2, fun r hr => ?_⟩
      by_cases hrk : r = k
      · exact hrk ▸ hl
      · have hr' : r < k := by omega
        exact (h3 r hr').touches (hf _) (h.ne_nil _ (Grouping.getD_mem (by omega))) ht
          (h.disjoint_getD hr' hk)
  obtain ⟨h1, h2, h3⟩ := key groups.length le_rfl t' ht'
  exact ⟨⟨hf, h, h1, hlen, hrep, h3⟩, h2⟩

namespace Assembled

variable {f : TreeFn} {n r s r' s' : ℕ} {t : EraTree} {groups : List (List ℕ)} {reps : List ℕ}
  {kids : ℕ → ℕ → List ℕ}

section

variable (h : Assembled f n t groups reps kids) (hr : r < groups.length)
include h hr

theorem par_head : t.par (groupNode n groups r 0) = groupNode n groups (f groups.length r).1 0 := by
  have hp := (h.links r hr).par_head
  rw [h.length] at hp
  exact hp.trans (h.rep _ (((h.builds _).par_le hr).trans_lt hr))

theorem par (h0 : 0 < s) (hs : s < groupSize groups r) :
    t.par (groupNode n groups r s) = groupNode n groups r (f (groupSize groups r) s).1 :=
  (h.links r hr).par s h0 hs

theorem par_lt (hs : s < groupSize groups r) (hne : ¬ (r = 0 ∧ s = 0)) :
    t.par (groupNode n groups r s) < groupNode n groups r s := by
  rcases Nat.eq_zero_or_pos s with rfl | h0
  · rw [h.par_head hr]
    exact h.grouping.head_lt_head ((h.builds _).par_lt r (by omega) hr) hr
  · rw [h.par hr h0 hs]
    exact h.grouping.groupNode_lt_groupNode hr ((h.builds _).par_lt s h0 hs) hs

end

def chain (n : ℕ) (groups : List (List ℕ)) (kids : ℕ → ℕ → List ℕ) (r s : ℕ) : List ℕ :=
  (kids (groupSize groups r) s).map (groupNode n groups r) ++
    if s = 0 then (kids groups.length r).map fun r' => groupNode n groups r' 0 else []

section

variable (h : Assembled f n t groups reps kids) (hr : r < groups.length)
  (hs : s < groupSize groups r)
include h hr hs

theorem mem_chain (hr' : r' < groups.length) (hs' : s' < groupSize groups r') :
    groupNode n groups r' s' ∈ chain n groups kids r s ↔
      t.par (groupNode n groups r' s') = groupNode n groups r s ∧ ¬ (r' = r ∧ s' = s) := by
  have hb := h.builds (groupSize groups r)
  have hR := h.builds groups.length
  have hin : groupNode n groups r' s' ∈ (kids (groupSize groups r) s).map (groupNode n groups r) ↔
      r' = r ∧ s' ∈ kids (groupSize groups r) s := by
    rw [mem_map]
    constructor
    · rintro ⟨c, hc, he⟩
      obtain ⟨rfl, rfl⟩ := (h.grouping.groupNode_inj hr (hb.kids_lt hs hc) hr' hs').1 he
      exact ⟨rfl, hc⟩
    · rintro ⟨rfl, hc⟩
      exact ⟨s', hc, rfl⟩
  have hout : groupNode n groups r' s' ∈
      (kids groups.length r).map (fun r' => groupNode n groups r' 0) ↔
      s' = 0 ∧ r' ∈ kids groups.length r := by
    rw [mem_map]
    constructor
    · rintro ⟨c, hc, he⟩
      have hcl := hR.kids_lt hr hc
      obtain ⟨rfl, rfl⟩ :=
        (h.grouping.groupNode_inj hcl (h.grouping.groupSize_pos hcl) hr' hs').1 he
      exact ⟨rfl, hc⟩
    · rintro ⟨rfl, hc⟩
      exact ⟨r', hc, rfl⟩
  rw [chain, mem_append, hin, hb.mem_kids s hs]
  rcases Nat.eq_zero_or_pos s' with rfl | h0
  · have hp : (f groups.length r').1 < groups.length := (hR.par_le hr').trans_lt hr'
    rw [h.par_head hr', h.grouping.groupNode_inj hp (h.grouping.groupSize_pos hp) hr hs,
      hb.par_zero]
    by_cases hs0 : s = 0
    · subst hs0
      rw [if_pos rfl, hout, hR.mem_kids r hr]
      tauto
    · rw [if_neg hs0]
      simp only [not_mem_nil, or_false]
      omega
  · have hp : (f (groupSize groups r') s').1 < groupSize groups r' :=
      ((h.builds _).par_le hs').trans_lt hs'
    rw [h.par hr' h0 hs', h.grouping.groupNode_inj hr' hp hr hs]
    have hno : groupNode n groups r' s' ∉
        if s = 0 then (kids groups.length r).map (fun r' => groupNode n groups r' 0) else [] := by
      split
      · rw [hout]
        omega
      · exact not_mem_nil
    simp only [hno, or_false]
    constructor
    · rintro ⟨rfl, -, h2, h3⟩
      exact ⟨⟨rfl, h2⟩, fun e => h3 e.2⟩
    · rintro ⟨⟨rfl, h2⟩, h3⟩
      exact ⟨rfl, hs', h2, fun e => h3 ⟨rfl, e⟩⟩

theorem segment_chain :
    Segment t.next (t.first (groupNode n groups r s)) (chain n groups kids r s) n := by
  rcases Nat.eq_zero_or_pos s with rfl | h0
  · have hR := h.builds groups.length
    rw [chain, if_pos rfl, Segment.append_iff]
    refine ⟨_, (h.links r hr).chain_head, ?_⟩
    rw [h.length]
    have hnext : ∀ y ∈ kids groups.length r,
        t.next (groupIndex n reps y) = groupIndex n reps (f groups.length y).2.2 := by
      intro y hy
      have hyl := hR.kids_lt hr hy
      have hn := (h.links y hyl).next_head
      rw [h.length] at hn
      rw [h.rep y hyl]
      exact hn
    have hseg := (hR.chain r hr).map hnext
    have hend : groupIndex n reps groups.length = n := h.length ▸ groupIndex_length n reps
    have hmap : (kids groups.length r).map (groupIndex n reps) =
        (kids groups.length r).map fun r' => groupNode n groups r' 0 :=
      map_congr_left fun y hy => h.rep y (hR.kids_lt hr hy)
    rwa [hend, hmap] at hseg
  · rw [chain, if_neg h0.ne', append_nil]
    exact (h.links r hr).chain s h0 hs

theorem nodup_chain : (chain n groups kids r s).Nodup := by
  have hb := h.builds (groupSize groups r)
  have hR := h.builds groups.length
  have hin : ((kids (groupSize groups r) s).map (groupNode n groups r)).Nodup := by
    refine (hb.nodup s hs).map_on fun x hx y hy he => ?_
    exact ((h.grouping.groupNode_inj hr (hb.kids_lt hs hx) hr (hb.kids_lt hs hy)).1 he).2
  rw [chain]
  split
  · refine hin.append ((hR.nodup r hr).map_on fun x hx y hy he => ?_) ?_
    · have hxl := hR.kids_lt hr hx
      have hyl := hR.kids_lt hr hy
      exact ((h.grouping.groupNode_inj hxl (h.grouping.groupSize_pos hxl) hyl
        (h.grouping.groupSize_pos hyl)).1 he).1
    · intro z hz hz'
      obtain ⟨x, hx, rfl⟩ := mem_map.1 hz
      obtain ⟨y, hy, he⟩ := mem_map.1 hz'
      have hyl := hR.kids_lt hr hy
      have h0 := ((h.grouping.groupNode_inj hyl (h.grouping.groupSize_pos hyl) hr
        (hb.kids_lt hs hx)).1 he).2
      exact hb.zero_notMem hs (h0 ▸ hx)
  · simpa using hin

end

theorem shape (h : Assembled f n t groups reps kids) :
    (∃ kids, Shape t (Finset.range n) kids) ∧ ∀ i, 0 < i → i < n → t.par i < i := by
  have hg := h.grouping
  have hfirst : 0 < n → 0 < groups.length ∧ groupNode n groups 0 0 = 0 := by
    intro hn
    obtain ⟨r, hr, s, hs, he⟩ := hg.exists_groupNode hn
    rcases Nat.eq_zero_or_pos s with rfl | h0
    · rcases Nat.eq_zero_or_pos r with rfl | hr0
      · exact ⟨hr, he.symm⟩
      · have := hg.head_lt_head hr0 hr
        omega
    · have := hg.groupNode_lt_groupNode hr h0 hs
      omega
  have hlt : ∀ i, 0 < i → i < n → t.par i < i := by
    intro i h0 hi
    obtain ⟨r, hr, s, hs, rfl⟩ := hg.exists_groupNode hi
    refine h.par_lt hr hs ?_
    rintro ⟨rfl, rfl⟩
    have := (hfirst (by omega)).2
    omega
  have hroot : 0 < n → t.par 0 = 0 ∧ t.next 0 = n := by
    intro hn
    obtain ⟨hR, he⟩ := hfirst hn
    have hb := h.builds groups.length
    have hp := h.par_head hR
    have hx := (h.links 0 hR).next_head
    rw [h.length, hb.root_next hR, ← h.length, groupIndex_length] at hx
    rw [hb.par_zero, he] at hp
    change t.next (groupNode n groups 0 0) = n at hx
    rw [he] at hx
    exact ⟨hp, hx⟩
  have hle : ∀ i < n, t.par i ≤ i := by
    intro i hi
    rcases Nat.eq_zero_or_pos i with rfl | h0
    · exact (hroot hi).1.le
    · exact (hlt i h0 hi).le
  have hkids : ∀ i < n, ∃ l, Segment t.next (t.first i) l n ∧
      (∀ c, c ∈ l ↔ c < n ∧ t.par c = i ∧ c ≠ i) ∧ l.Nodup := by
    intro i hi
    obtain ⟨r, hr, s, hs, rfl⟩ := hg.exists_groupNode hi
    refine ⟨chain n groups kids r s, h.segment_chain hr hs, fun c => ?_, h.nodup_chain hr hs⟩
    by_cases hc : c < n
    · obtain ⟨r', hr', s', hs', rfl⟩ := hg.exists_groupNode hc
      rw [h.mem_chain hr hs hr' hs', ne_eq, hg.groupNode_inj hr' hs' hr hs]
      exact (and_iff_right hc).symm
    · refine ⟨fun hm => absurd ?_ hc, fun hm => absurd hm.1 hc⟩
      rw [chain] at hm
      rcases mem_append.1 hm with hm | hm
      · obtain ⟨x, hx, rfl⟩ := mem_map.1 hm
        exact hg.groupNode_lt hr ((h.builds _).kids_lt hs hx)
      · split at hm
        · obtain ⟨x, hx, rfl⟩ := mem_map.1 hm
          have hxl := (h.builds groups.length).kids_lt hr hx
          exact hg.groupNode_lt hxl (hg.groupSize_pos hxl)
        · exact absurd hm not_mem_nil
  choose! k hk using hkids
  simp only [← Finset.mem_range] at hk hle
  refine ⟨⟨k, fun i hi => ?_, fun i hi => ?_, hle, fun i hi => ?_, fun i hi c => ?_,
    fun i hi => (hk i hi).2.2, fun i hi hp => ?_⟩, hlt⟩
  · rw [h.size]
    exact Finset.mem_range.1 hi
  · exact Finset.mem_range.2 ((hle i hi).trans_lt (Finset.mem_range.1 hi))
  · rw [h.size]
    exact (hk i hi).1
  · exact (hk i hi).2.1 c
  · rw [Finset.mem_range] at hi
    rw [h.size]
    rcases Nat.eq_zero_or_pos i with rfl | h0
    · exact (hroot hi).2
    · exact absurd hp (hlt i h0 hi).ne

end Assembled

/-! ### The result -/

section

variable (topology : Int) (daemon : ℕ → Option ℕ)
include topology daemon

theorem eraCallTreeFn_shape (ranks : List ℕ) :
    (∃ kids, Shape (eraCallTreeFn topology daemon ranks) (Finset.range ranks.length) kids) ∧
      (eraCallTreeFn topology daemon ranks).treeSize = ranks.length ∧
      (∀ i < ranks.length, (eraCallTreeFn topology daemon ranks).rank i = ranks[i]?) ∧
      ∀ i, 0 < i → i < ranks.length → (eraCallTreeFn topology daemon ranks).par i < i := by
  have hf := eraTreeFn_builds topology
  choose kids hkids using hf
  unfold eraCallTreeFn
  dsimp only
  split
  · obtain ⟨ha, hrank⟩ := linkGroups_assembled hkids
      (daemonGroups_grouping (fun r => (daemon r).getD 0) ranks)
      (t := ofRanks ranks) rfl rfl rfl
    obtain ⟨hshape, hlt⟩ := ha.shape
    exact ⟨hshape, ha.size, fun i _ => congrFun hrank i, hlt⟩
  · have hb := hkids ranks.length
    refine ⟨⟨_, fill_shape (ofRanks ranks) hb⟩, rfl, fun i hi => ?_, fun i h0 hi => ?_⟩
    · simp only [rank, fill, ofRanks, hi, if_true]
    · simp only [par, fill, ofRanks, hi, if_true]
      exact hb.par_lt i h0 hi

theorem eraCallTreeFn_treeInv {ranks : List ℕ} (hs : ranks.Pairwise (· < ·)) :
    ∃ T : RankTree, (∀ r, r ∈ T.mem ↔ r ∈ ranks) ∧
      TreeInv T ∅ (eraCallTreeFn topology daemon ranks) := by
  obtain ⟨⟨kids, hshape⟩, hsize, hrank, hlt⟩ := eraCallTreeFn_shape topology daemon ranks
  exact hshape.treeInv hsize hs hrank hlt

theorem eraBuildTreeStructure_treeInv {n : ℕ}
    {afr : List ℕ} (hs : afr.Pairwise (· < ·)) (hn : ∀ d ∈ afr, d < n) :
    ∃ T : RankTree, (∀ r, r ∈ T.mem ↔ r < n ∧ r ∉ afr) ∧
      TreeInv T ∅ (eraBuildTreeStructure topology daemon n afr) := by
  obtain ⟨h1, h2⟩ := treeRanks_spec hs hn
  obtain ⟨T, hT, ht⟩ := eraCallTreeFn_treeInv topology daemon h1
  exact ⟨T, fun r => (hT r).trans (h2 r), ht⟩

end

end Ulfm
