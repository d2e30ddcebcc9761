import Mathlib.Data.Finset.Basic

/-!
# Rooted trees on ranks

A `RankTree` is a forest on a finite set of natural numbers whose labels do not
increase towards the root. Removing a set `D` of nodes leaves every survivor
with one parent: its nearest surviving ancestor, or the smallest survivor when
no ancestor is left. Both rules are one rule: `T.above v` lists the candidates
of `v` in the order in which they are tried, and the parent of `v` is the first
candidate outside `D`.

The order of the candidates is static, so the parent depends on `D` alone and
not on the order in which the nodes of `D` were removed, and it changes only
when the parent itself is removed.
-/

namespace Ulfm

open List

/-- A forest on a finite set of ranks: a parent is a member, and it is smaller
than its child unless it is the child itself. -/
structure RankTree where
  mem : Finset ℕ
  parent : ℕ → ℕ
  parent_le : ∀ v, parent v ≤ v
  parent_mem : ∀ v ∈ mem, parent v ∈ mem

namespace RankTree

variable (T : RankTree)

/-- The proper ancestors of `v`, nearest first. -/
def ancestors (v : ℕ) : List ℕ :=
  if T.parent v < v then T.parent v :: ancestors (T.parent v) else []
termination_by v

/-- The members up to `v` in increasing order. -/
def upTo (v : ℕ) : List ℕ := (range (v + 1)).filter (· ∈ T.mem)

/-- The candidates for the parent of `v`, in the order in which they are tried. -/
def above (v : ℕ) : List ℕ := T.ancestors v ++ T.upTo v

/-- The candidates of `v` that are tried before `w`. -/
def before (v w : ℕ) : List ℕ := (T.above v).takeWhile (· ≠ w)

/-- `w` is the parent of `v` once the nodes of `D` are removed. -/
structure IsParent (D : Set ℕ) (v w : ℕ) : Prop where
  mem : w ∈ T.above v
  alive : w ∉ D
  skip : ∀ x ∈ T.before v w, x ∈ D

/-- `v` is the root once the nodes of `D` are removed. -/
def IsRoot (D : Set ℕ) (v : ℕ) : Prop := T.IsParent D v v

/-- `c` is `q` or one of its ancestors. -/
def Under (c q : ℕ) : Prop := c = q ∨ c ∈ T.ancestors q

/-- `c` is a child of `w` once the nodes of `D` are removed. -/
structure IsChild (D : Set ℕ) (w c : ℕ) : Prop where
  member : c ∈ T.mem
  alive : c ∉ D
  ne : c ≠ w
  parent : T.IsParent D c w

end RankTree

/-! ### Positions in a list -/

section TakeWhile

variable {α : Type*} [DecidableEq α]

theorem takeWhile_ne_append_of_notMem {l₁ l₂ : List α} {a : α} (h : a ∉ l₁) :
    (l₁ ++ l₂).takeWhile (· ≠ a) = l₁ ++ l₂.takeWhile (· ≠ a) := by
  apply takeWhile_append_of_pos
  intro b hb
  simpa using fun e : b = a => h (e ▸ hb)

theorem takeWhile_ne_append_of_mem {l₁ l₂ : List α} {a : α} (h : a ∈ l₁) :
    (l₁ ++ l₂).takeWhile (· ≠ a) = l₁.takeWhile (· ≠ a) := by
  obtain ⟨s, t, rfl, hs⟩ := eq_append_cons_of_mem h
  rw [append_assoc, takeWhile_ne_append_of_notMem hs, takeWhile_ne_append_of_notMem hs]
  simp

theorem mem_takeWhile_ne_or {l : List α} {a b : α} (ha : a ∈ l) (hb : b ∈ l) :
    a ∈ l.takeWhile (· ≠ b) ∨ a = b ∨ b ∈ l.takeWhile (· ≠ a) := by
  obtain ⟨s, t, rfl, hs⟩ := eq_append_cons_of_mem hb
  by_cases has : a ∈ s
  · left
    rw [takeWhile_ne_append_of_notMem hs]
    exact mem_append_left _ has
  · by_cases hab : a = b
    · exact .inr (.inl hab)
    · right; right
      rw [takeWhile_ne_append_of_notMem has, takeWhile_cons_of_pos (by simpa using Ne.symm hab)]
      simp

theorem notMem_takeWhile_ne (l : List α) (a : α) : a ∉ l.takeWhile (· ≠ a) := by
  by_cases h : a ∈ l
  · obtain ⟨s, t, rfl, hs⟩ := eq_append_cons_of_mem h
    rw [takeWhile_ne_append_of_notMem hs]
    simpa using hs
  · exact fun ha => h ((takeWhile_sublist _).subset ha)

theorem not_mem_takeWhile_ne_symm {l : List α} {a b : α}
    (ha : a ∈ l.takeWhile (· ≠ b)) : b ∉ l.takeWhile (· ≠ a) := by
  intro hb
  obtain ⟨s, t, rfl, hs⟩ := eq_append_cons_of_mem ((takeWhile_sublist _).subset ha)
  rw [takeWhile_ne_append_of_notMem hs] at hb
  have hbs : b ∈ s := by simpa using hb
  rw [takeWhile_ne_append_of_mem hbs] at ha
  exact hs ((takeWhile_sublist _).subset ha)

end TakeWhile

namespace RankTree

variable {T : RankTree} {D D' : Set ℕ} {v w x : ℕ}

/-! ### Candidates -/

theorem mem_upTo : x ∈ T.upTo v ↔ x ∈ T.mem ∧ x ≤ v := by
  rw [upTo, mem_filter, mem_range, decide_eq_true_iff, Nat.lt_succ_iff, and_comm]

theorem ancestors_lt (h : x ∈ T.ancestors v) : x < v := by
  induction v using Nat.strong_induction_on with
  | _ v ih =>
    rw [ancestors] at h
    split at h
    next hp =>
      rcases mem_cons.1 h with rfl | h
      · exact hp
      · exact lt_trans (ih _ hp h) hp
    next => simp at h

theorem ancestors_mem (hv : v ∈ T.mem) (h : x ∈ T.ancestors v) : x ∈ T.mem := by
  induction v using Nat.strong_induction_on with
  | _ v ih =>
    rw [ancestors] at h
    split at h
    next hp =>
      rcases mem_cons.1 h with rfl | h
      · exact T.parent_mem v hv
      · exact ih _ hp (T.parent_mem v hv) h
    next => simp at h

theorem ancestors_split (h : w ∈ T.ancestors v) :
    ∃ l, T.ancestors v = l ++ w :: T.ancestors w ∧ w ∉ l := by
  induction v using Nat.strong_induction_on with
  | _ v ih =>
    rw [ancestors] at h ⊢
    split at h
    next hp =>
      rw [if_pos hp]
      by_cases hw : w = T.parent v
      · exact ⟨[], by simp [hw], by simp⟩
      · obtain ⟨l, hl, hwl⟩ := ih _ hp ((mem_cons.1 h).resolve_left hw)
        exact ⟨T.parent v :: l, by simp [hl], by simp [hw, hwl]⟩
    next => simp at h

theorem mem_above : x ∈ T.above v ↔ x ∈ T.ancestors v ∨ x ∈ T.mem ∧ x ≤ v := by
  simp [above, mem_upTo]

theorem above_le (h : x ∈ T.above v) : x ≤ v := by
  rcases mem_above.1 h with h | h
  · exact (ancestors_lt h).le
  · exact h.2

theorem above_mem (hv : v ∈ T.mem) (h : x ∈ T.above v) : x ∈ T.mem := by
  rcases mem_above.1 h with h | h
  · exact ancestors_mem hv h
  · exact h.1

theorem self_mem_above (hv : v ∈ T.mem) : v ∈ T.above v := mem_above.2 (.inr ⟨hv, le_rfl⟩)

theorem before_or (hx : x ∈ T.above v) (hw : w ∈ T.above v) :
    x ∈ T.before v w ∨ x = w ∨ w ∈ T.before v x :=
  mem_takeWhile_ne_or hx hw

theorem mem_takeWhile_upTo (hw : w ∈ T.upTo v) :
    x ∈ (T.upTo v).takeWhile (· ≠ w) ↔ x ∈ T.mem ∧ x < w := by
  have hs : (T.upTo v).Pairwise (· < ·) := pairwise_lt_range.filter _
  have hle : w ≤ v := (mem_upTo.1 hw).2
  obtain ⟨s, t, hst, hws⟩ := eq_append_cons_of_mem hw
  rw [hst, takeWhile_ne_append_of_notMem hws]
  rw [hst, pairwise_append] at hs
  obtain ⟨_, ht, hlt⟩ := hs
  have hmem : x ∈ s ++ w :: t ↔ x ∈ T.mem ∧ x ≤ v := hst ▸ mem_upTo
  constructor
  · intro h
    have hxs : x ∈ s := by simpa using h
    exact ⟨(hmem.1 (mem_append_left _ hxs)).1, hlt x hxs w mem_cons_self⟩
  · rintro ⟨hx, hxw⟩
    rcases mem_append.1 (hmem.2 ⟨hx, by omega⟩) with h | h
    · simpa using h
    · rcases mem_cons.1 h with rfl | h
      · omega
      · have := (pairwise_cons.1 ht).1 x h
        omega

theorem mem_before_of_not_ancestor (hw : w ∈ T.above v) (hn : w ∉ T.ancestors v) :
    x ∈ T.before v w ↔ x ∈ T.ancestors v ∨ x ∈ T.mem ∧ x < w := by
  have hup : w ∈ T.upTo v := (mem_append.1 hw).resolve_left hn
  rw [before, above, takeWhile_ne_append_of_notMem hn, mem_append, mem_takeWhile_upTo hup]

theorem mem_before_self (hv : v ∈ T.mem) :
    x ∈ T.before v v ↔ x ∈ T.ancestors v ∨ x ∈ T.mem ∧ x < v :=
  mem_before_of_not_ancestor (self_mem_above hv)
    (fun h => lt_irrefl _ (ancestors_lt h))

theorem above_split (h : w ∈ T.ancestors v) :
    ∃ l r, T.above v = l ++ w :: (T.above w ++ r) ∧ w ∉ l := by
  obtain ⟨l, hl, hwl⟩ := ancestors_split h
  have hwv := ancestors_lt h
  have hrange : range (w + 1) <+: range (v + 1) := by
    have htake : (range (v + 1)).take (w + 1) = range (w + 1) := by
      rw [take_range, min_eq_left (by omega)]
    exact htake ▸ take_prefix _ _
  obtain ⟨r, hr⟩ : T.upTo w <+: T.upTo v := hrange.filter _
  exact ⟨l, r, by simp [above, hl, ← hr], hwl⟩

theorem above_subset_of_ancestor (h : w ∈ T.ancestors v) : T.above w ⊆ T.above v := by
  obtain ⟨l, r, hlr, -⟩ := above_split h
  intro x hx
  rw [hlr]
  simp [hx]

theorem before_split (h : w ∈ T.ancestors v) (hwx : w ∈ T.before v x) :
    ∃ l r, T.before v x = l ++ w :: (T.above w ++ r).takeWhile (· ≠ x) := by
  obtain ⟨l, r, hlr, hwl⟩ := above_split h
  have hxl : x ∉ l := by
    intro hxl
    rw [before, hlr, takeWhile_ne_append_of_mem hxl] at hwx
    exact hwl ((takeWhile_sublist _).subset hwx)
  have hxw : x ≠ w := by
    rintro rfl
    exact notMem_takeWhile_ne _ _ hwx
  refine ⟨l, r, ?_⟩
  rw [before, hlr, takeWhile_ne_append_of_notMem hxl,
    takeWhile_cons_of_pos (by simpa using hxw.symm)]

/-- A candidate of `v` that comes behind the ancestor `w` of `v` and is a
candidate of `w` has, in the list of `v`, everything before it that it has in
the list of `w`. -/
theorem before_subset_of_ancestor (h : w ∈ T.ancestors v) (hx : x ∈ T.above w)
    (hwx : w ∈ T.before v x) : T.before w x ⊆ T.before v x := by
  obtain ⟨l, r, hlr⟩ := before_split h hwx
  intro y hy
  rw [hlr, takeWhile_ne_append_of_mem hx]
  exact mem_append_right _ (mem_cons_of_mem _ hy)

theorem above_subset_before (h : w ∈ T.ancestors v) (hx : x ∉ T.above w)
    (hwx : w ∈ T.before v x) : T.above w ⊆ T.before v x := by
  obtain ⟨l, r, hlr⟩ := before_split h hwx
  intro y hy
  rw [hlr, takeWhile_ne_append_of_notMem hx]
  simp [hy]

/-! ### The parent after a removal -/

theorem IsParent.unique {w' : ℕ} (h : T.IsParent D v w) (h' : T.IsParent D v w') : w = w' := by
  rcases before_or h.mem h'.mem with hb | hb | hb
  · exact absurd (h'.skip _ hb) h.alive
  · exact hb
  · exact absurd (h.skip _ hb) h'.alive

theorem IsParent.mono (h : T.IsParent D v w) (hD : D ⊆ D') (hw : w ∉ D') : T.IsParent D' v w where
  mem := h.mem
  alive := hw
  skip x hx := hD (h.skip x hx)

theorem exists_isParent (hv : v ∈ T.mem) (hD : v ∉ D) : ∃ w, T.IsParent D v w := by
  classical
  have hex : ∃ x ∈ T.above v, x ∉ D := ⟨v, self_mem_above hv, hD⟩
  generalize hl : T.above v = l at hex
  have key : ∀ l : List ℕ, (∃ x ∈ l, x ∉ D) →
      ∃ w ∈ l, w ∉ D ∧ ∀ x ∈ l.takeWhile (· ≠ w), x ∈ D := by
    intro l
    induction l with
    | nil => simp
    | cons a l ih =>
      rintro ⟨x, hx, hxD⟩
      by_cases ha : a ∈ D
      · have hxl : x ∈ l := (mem_cons.1 hx).resolve_left (fun e => hxD (e ▸ ha))
        obtain ⟨w, hw, hwD, hskip⟩ := ih ⟨x, hxl, hxD⟩
        refine ⟨w, mem_cons_of_mem _ hw, hwD, ?_⟩
        have haw : a ≠ w := fun e => hwD (e ▸ ha)
        rw [takeWhile_cons_of_pos (by simpa using haw)]
        intro y hy
        rcases mem_cons.1 hy with rfl | hy
        · exact ha
        · exact hskip y hy
      · exact ⟨a, mem_cons_self, ha, by simp⟩
  obtain ⟨w, hw, hwD, hskip⟩ := key l hex
  exact ⟨w, hl ▸ hw, hwD, by rw [before, hl]; exact hskip⟩

theorem IsRoot.mem_of_lt (h : T.IsRoot D v) (hv : v ∈ T.mem) (hx : x ∈ T.mem)
    (hlt : x < v) : x ∈ D :=
  h.skip x ((mem_before_self hv).2 (.inr ⟨hx, hlt⟩))

theorem IsRoot.before_mem (h : T.IsRoot D v) (hv : v ∈ T.mem) (hx : x ∈ T.above v)
    (hne : x ≠ v) : x ∈ D :=
  h.mem_of_lt hv (above_mem hv hx) (lt_of_le_of_ne (above_le hx) hne)

theorem isRoot_of_forall_lt (hv : v ∈ T.mem) (hD : v ∉ D)
    (h : ∀ x ∈ T.mem, x < v → x ∈ D) : T.IsRoot D v where
  mem := self_mem_above hv
  alive := hD
  skip x hx := by
    rcases (mem_before_self hv).1 hx with hx | hx
    · exact h x (ancestors_mem hv hx) (ancestors_lt hx)
    · exact h x hx.1 hx.2

theorem IsParent.isRoot_of_not_ancestor (h : T.IsParent D v w) (hv : v ∈ T.mem)
    (hn : w ∉ T.ancestors v) : T.IsRoot D w :=
  isRoot_of_forall_lt (above_mem hv h.mem) h.alive fun x hx hlt =>
    h.skip x ((mem_before_of_not_ancestor h.mem hn).2 (.inr ⟨hx, hlt⟩))

theorem Under.le {c q : ℕ} (h : T.Under c q) : c ≤ q := by
  rcases h with rfl | h
  · exact le_rfl
  · exact (ancestors_lt h).le

theorem Under.trans_ancestor {c p q : ℕ} (h : T.Under c p) (hp : p ∈ T.ancestors q) :
    T.Under c q := by
  rcases h with rfl | h
  · exact .inr hp
  · obtain ⟨l, hl, -⟩ := ancestors_split hp
    exact .inr (by rw [hl]; simp [h])

theorem exists_child_of_ancestor {q : ℕ} (hq : q ∈ T.mem) (hqD : q ∉ D)
    (hw : w ∈ T.ancestors q) (hwD : w ∉ D) :
    ∃ c, T.IsChild D w c ∧ w ∈ T.ancestors c ∧ T.Under c q := by
  induction q using Nat.strong_induction_on with
  | _ q ih =>
    obtain ⟨p, hp⟩ := exists_isParent hq hqD
    by_cases hpw : p = w
    · subst hpw
      exact ⟨q, ⟨hq, hqD, (ancestors_lt hw).ne', hp⟩, hw, .inl rfl⟩
    · -- the parent comes before `w`, so it is an ancestor of `q` below `w`
      have hwa : w ∈ T.above q := mem_above.2 (.inl hw)
      have hpb : p ∈ T.before q w := by
        rcases before_or hp.mem hwa with h | h | h
        · exact h
        · exact absurd h hpw
        · exact absurd (hp.skip _ h) hwD
      obtain ⟨l, hl, hwl⟩ := ancestors_split hw
      have hpl : p ∈ l := by
        rw [before, above, hl, append_assoc, takeWhile_ne_append_of_notMem hwl] at hpb
        simpa using hpb
      have hpa : p ∈ T.ancestors q := by rw [hl]; simp [hpl]
      have hwp : w ∈ T.ancestors p := by
        obtain ⟨l', hl', hpl'⟩ := ancestors_split hpa
        have hmem : w ∈ l' ++ p :: T.ancestors p := hl' ▸ hw
        rcases mem_append.1 hmem with h | h
        · have hskip : w ∈ T.before q p := by
            rw [before, above, hl', append_assoc, takeWhile_ne_append_of_notMem hpl']
            simp [h]
          exact absurd (hp.skip _ hskip) hwD
        · exact (mem_cons.1 h).resolve_left (Ne.symm hpw)
      obtain ⟨c, hc, hwc, hcp⟩ := ih p (ancestors_lt hpa) (ancestors_mem hq hpa)
        hp.alive hwp
      exact ⟨c, hc, hwc, hcp.trans_ancestor hpa⟩

theorem exists_child_of_isRoot {q r : ℕ} (hr : T.IsRoot D r) (hrm : r ∈ T.mem)
    (hq : q ∈ T.mem) (hqD : q ∉ D) (hne : q ≠ r) :
    ∃ c, T.IsChild D r c ∧ T.Under c q := by
  induction q using Nat.strong_induction_on with
  | _ q ih =>
    obtain ⟨p, hp⟩ := exists_isParent hq hqD
    by_cases hpr : p = r
    · subst hpr
      exact ⟨q, ⟨hq, hqD, hne, hp⟩, .inl rfl⟩
    · have hpa : p ∈ T.ancestors q := by
        by_contra hpa
        have hroot := hp.isRoot_of_not_ancestor hq hpa
        have hpm := above_mem hq hp.mem
        rcases lt_trichotomy p r with h | h | h
        · exact hp.alive (hr.mem_of_lt hrm hpm h)
        · exact hpr h
        · exact hr.alive (hroot.mem_of_lt hpm hrm h)
      obtain ⟨c, hc, hcp⟩ := ih p (ancestors_lt hpa) (ancestors_mem hq hpa) hp.alive hpr
      exact ⟨c, hc, hcp.trans_ancestor hpa⟩

/-! ### Removing one node -/

theorem IsParent.remove {r p : ℕ} (h : T.IsParent D v r) (hv : v ∈ T.mem)
    (hr : T.IsParent D r p) (hpr : p ≠ r) : T.IsParent (insert r D) v p := by
  have hrm := above_mem hv h.mem
  have hlt : p < r := lt_of_le_of_ne (above_le hr.mem) hpr
  have hanc : r ∈ T.ancestors v := by
    by_contra hn
    exact hr.alive ((h.isRoot_of_not_ancestor hv hn).mem_of_lt hrm
      (above_mem hrm hr.mem) hlt)
  obtain ⟨l, s, hls, hrl⟩ := above_split hanc
  have hl : T.before v r = l := by
    rw [before, hls, takeWhile_ne_append_of_notMem hrl]
    simp
  have hpl : p ∉ l := fun hp => hr.alive (h.skip p (hl ▸ hp))
  refine ⟨above_subset_of_ancestor hanc hr.mem, by simp [hpr, hr.alive], ?_⟩
  intro x hx
  rw [before, hls, takeWhile_ne_append_of_notMem hpl,
    takeWhile_cons_of_pos (by simpa using hpr.symm),
    takeWhile_ne_append_of_mem hr.mem] at hx
  rcases mem_append.1 hx with hx | hx
  · exact .inr (h.skip x (hl ▸ hx))
  · rcases mem_cons.1 hx with rfl | hx
    · exact .inl rfl
    · exact .inr (hr.skip x hx)

theorem IsParent.remove_root {r m : ℕ} (h : T.IsParent D v r) (hv : v ∈ T.mem)
    (hr : T.IsRoot D r) (hvr : v ≠ r) (hvD : v ∉ D) (hm : T.IsChild D r m)
    (hmin : ∀ c, T.IsChild D r c → m ≤ c) : T.IsParent (insert r D) v m := by
  have hrm := above_mem hv h.mem
  have hanc : ∀ x ∈ T.ancestors v, x ∈ insert r D := by
    intro x hx
    by_cases hxr : x = r
    · exact .inl hxr
    right
    rcases lt_or_ge x r with hlt | hge
    · exact hr.mem_of_lt hrm (ancestors_mem hv hx) hlt
    · by_contra hxD
      -- a surviving ancestor above `r` would be tried before `r`
      rcases before_or (mem_above.2 (.inl hx)) h.mem with hb | hb | hb
      · exact hxD (h.skip x hb)
      · exact hxr hb
      · have hra : r ∈ T.ancestors v := by
          by_contra hn
          rcases (mem_before_of_not_ancestor h.mem hn (x := x)).2 (.inl hx) with hb'
          exact not_mem_takeWhile_ne_symm hb hb'
        obtain ⟨l, hl, hrl⟩ := ancestors_split hra
        rw [hl] at hx
        rcases mem_append.1 hx with hxl | hxl
        · refine hxD (h.skip x ?_)
          rw [before, above, hl, append_assoc, takeWhile_ne_append_of_notMem hrl]
          simp [hxl]
        · rcases mem_cons.1 hxl with e | hxl
          · exact hxr e
          · exact absurd (ancestors_lt hxl) (by omega)
  have hmv : m ≤ v := hmin v ⟨hv, hvD, hvr, h⟩
  have hma : m ∉ T.ancestors v := by
    intro ha
    rcases hanc m ha with e | e
    · exact hm.ne e
    · exact hm.alive e
  have hmem : m ∈ T.above v := mem_above.2 (.inr ⟨hm.member, hmv⟩)
  refine ⟨hmem, by simp [hm.ne, hm.alive], ?_⟩
  intro x hx
  rcases (mem_before_of_not_ancestor hmem hma).1 hx with hx | ⟨hxm, hlt⟩
  · exact hanc x hx
  · by_contra hxD
    have hxr : x ≠ r := fun e => hxD (.inl e)
    obtain ⟨c, hc, hcx⟩ := exists_child_of_isRoot hr hrm hxm (fun e => hxD (.inr e)) hxr
    exact absurd (hmin c hc) (by have := hcx.le; omega)

/-- A repaired tree need not have lost all of `F`: when the parent of `u` and
the children of `u` in the tree repaired for `D` survive `F`, these children are
all the children of `u` in the tree repaired for `F`. -/
theorem IsParent.of_children_alive {F : Set ℕ} {u : ℕ} (hDF : D ⊆ F) (hu : u ∈ T.mem)
    (huF : u ∉ F) (hpar : ∃ p, p ∉ F ∧ T.IsParent D u p)
    (hkids : ∀ z, T.IsChild D u z → z ∉ F) {z : ℕ} (hz : z ∈ T.mem) (hzD : z ∉ D)
    (hne : z ≠ u) (hmem : u ∈ T.above z) (hskip : ∀ x ∈ T.before z u, x ∈ F) :
    T.IsParent D z u := by
  induction z using Nat.strong_induction_on with
  | _ z ih =>
    obtain ⟨p, hp⟩ := exists_isParent hz hzD
    by_cases hpu : p = u
    · exact hpu ▸ hp
    exfalso
    have hpm := above_mem hz hp.mem
    have hpb : p ∈ T.before z u := by
      rcases before_or hp.mem hmem with h | h | h
      · exact h
      · exact absurd h hpu
      · exact absurd (hDF (hp.skip _ h)) huF
    -- if `u` is the root for `F`, it is the root for `D` already
    have hroot : (∀ x ∈ T.mem, x < u → x ∈ F) → ∀ x ∈ T.mem, x < u → x ∈ D := by
      intro hlt
      obtain ⟨q, hqF, hq⟩ := hpar
      have hqu : q = u := by
        by_contra hqu
        exact hqF (hlt q (above_mem hu hq.mem)
          (lt_of_le_of_ne (above_le hq.mem) hqu))
      subst hqu
      exact fun x hx hxu => IsRoot.mem_of_lt hq hu hx hxu
    have hpz : p < z := by
      refine lt_of_le_of_ne (above_le hp.mem) ?_
      rintro rfl
      have hup : u < p := lt_of_le_of_ne (above_le hmem) hne.symm
      exact huF (hDF (IsRoot.mem_of_lt hp hz hu hup))
    have hK : u ∈ T.above p ∧ ∀ x ∈ T.before p u, x ∈ F := by
      by_cases hua : u ∈ T.ancestors z
      · have hpa : p ∈ T.ancestors z := by
          by_contra hn
          have := (mem_before_of_not_ancestor hp.mem hn (x := u)).2 (.inl hua)
          exact huF (hDF (hp.skip _ this))
        have hup : u ∈ T.above p := by
          obtain ⟨l, hl, hpl⟩ := ancestors_split hpa
          have hmem' : u ∈ l ++ p :: T.ancestors p := hl ▸ hua
          rcases mem_append.1 hmem' with h | h
          · exfalso
            refine huF (hDF (hp.skip u ?_))
            rw [before, above, hl, append_assoc, takeWhile_ne_append_of_notMem hpl]
            simp [h]
          · exact mem_above.2 (.inl ((mem_cons.1 h).resolve_left (Ne.symm hpu)))
        exact ⟨hup, fun x hx => hskip x (before_subset_of_ancestor hpa hup hpb hx)⟩
      · have hlow : ∀ x ∈ T.mem, x < u → x ∈ F := fun x hx hlt =>
          hskip x ((mem_before_of_not_ancestor hmem hua).2 (.inr ⟨hx, hlt⟩))
        have hup : u ≤ p := by
          by_contra hlt
          exact hp.alive (hroot hlow p hpm (by omega))
        have hpa : p ∈ T.ancestors z := by
          by_contra hn
          have hu' : u < p := lt_of_le_of_ne hup (Ne.symm hpu)
          exact huF (hDF ((hp.isRoot_of_not_ancestor hz hn).mem_of_lt hpm hu hu'))
        have hmem' : u ∈ T.above p := mem_above.2 (.inr ⟨hu, hup⟩)
        exact ⟨hmem', fun x hx => hskip x (before_subset_of_ancestor hpa hmem' hpb hx)⟩
    have hchild := ih p hpz hpm hp.alive hpu hK.1 hK.2
    exact hkids p ⟨hpm, hp.alive, hpu, hchild⟩ (hskip p hpb)

end RankTree

end Ulfm
