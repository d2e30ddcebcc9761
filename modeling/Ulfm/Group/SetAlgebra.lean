import Ulfm.Comm.Split
import Ulfm.Group.Ranges

/-!
# The groups that are built

The union, the difference and the intersection of two groups stand for the lists of processes that
they should, and the comparison tells whether two lists of processes are equal. All groups without a
process are `MPI_GROUP_EMPTY`.
-/

namespace Ulfm

open List Option Ulfm.Group ProcGroup

variable {P : Type} [DecidableEq P]

namespace ProcGroup

end ProcGroup

/-- The group stands for the processes `m`, and is `MPI_GROUP_EMPTY` if there is none. -/
structure Stands (me : P) (g : Group P) (m : ProcGroup P) : Prop extends Denotes me g m where
  empty_iff : g.ptr = groupEmptyPtr ↔ m.procs = []

section Lookups

variable {me : P} {g g₁ g₂ : Group P} {m m₁ m₂ : ProcGroup P}

theorem stands_empty (me : P) : Stands me Group.empty ProcGroup.empty := by
  refine ⟨⟨rfl, fun {r p} h => ?_, rfl⟩, iff_of_true rfl rfl⟩
  cases h

section

variable (h : Denotes me g m)
include h

theorem Denotes.getProcPtr_of_lt {k : ℕ} (hk : k < m.procs.length) :
    g.getProcPtr k = some m.procs[k] :=
  h.lookup (getElem?_eq_getElem hk)

theorem Denotes.forProcs {σ : Type} (body : σ → P → Option σ) (st : σ) :
    g.forProcs (fun st _ p => body st p) st = m.procs.foldlM body st := by
  rw [← foldlM_getElem?, Group.forProcs, h.procCount]
  apply foldlM_congr
  intro st k hk
  rw [h.getProcPtr_of_lt (mem_range.1 hk), getElem?_eq_getElem (mem_range.1 hk)]
  rfl

theorem Denotes.matchOf (p : P) : g.matchOf p = some (m.peerLookupId p) := by
  have hsearch : ∀ d i, i + d = m.procs.length → g.search p (range' i d) =
      some (((m.procs.drop i).findIdx? (· = p)).map (· + i)) := by
    intro d
    induction d with
    | zero =>
      intro i hi
      rw [drop_of_length_le (by omega)]
      rfl
    | succ d ih =>
      intro i hi
      have hlt : i < m.procs.length := by omega
      rw [range'_succ, Group.search, h.getProcPtr_of_lt hlt, drop_eq_getElem_cons hlt,
        findIdx?_cons]
      change (if p = m.procs[i] then some (some i) else g.search p (range' (i + 1) d)) = _
      by_cases hp : p = m.procs[i]
      · rw [if_pos hp, if_pos (decide_eq_true hp.symm), map_some, Nat.zero_add]
      · have hne : ¬decide (m.procs[i] = p) = true := by
          rw [decide_eq_true_eq]
          exact fun heq => hp heq.symm
        rw [if_neg hp, if_neg hne, ih (i + 1) (by omega), Option.map_map]
        congr 2
        funext k
        exact (Nat.succ_add_eq_add_succ k i).symm
  have hall := hsearch m.procs.length 0 (Nat.zero_add _)
  rw [← range_eq_range', drop_zero] at hall
  rw [Group.matchOf, h.procCount]
  exact hall.trans (congrArg some Option.map_id')

theorem Denotes.isSome_matchOf (p : P) :
    ∃ found, g.matchOf p = some found ∧ (found.isSome = true ↔ p ∈ m.procs) :=
  ⟨_, h.matchOf p, peerLookupId_isSome m p⟩

theorem Denotes.myProc : g.myProc = some (if me ∈ m.procs then some me else none) := by
  rw [Group.myProc]
  by_cases hme : me ∈ m.procs
  · obtain ⟨r, hr, hrank⟩ := h.getProcPtr_myRank (ProcGroup.mem_def.2 hme)
    have hne : g.myRank ≠ mpiUndefined := by
      rw [h.myRank]
      exact rankOf_ne_mpiUndefined.2 hme
    rw [if_neg hne, if_pos hme, hrank, h.lookup hr, map_some]
  · rw [if_neg hme, h.myRank, rankOf_of_not_mem hme, if_pos rfl]

end

section

variable (h₁ : Denotes me g₁ m₁) (h₂ : Denotes me g₂ m₂)
  (hmem : ∀ p ∈ m.procs, p ∈ m₁.procs ∨ p ∈ m₂.procs)
include h₁ h₂ hmem

theorem Denotes.fill (ptr : ℕ) :
    g₁.fill g₂ m.procs.length m.procs ptr = some (.dense ptr m.procs (rankOf me m.procs)) := by
  have hsize : ¬m.procs.length ≠ m.procs.length := not_not.2 rfl
  rw [Group.fill, h₁.myProc]
  by_cases hme₁ : me ∈ m₁.procs
  · rw [if_pos hme₁]
    change (if m.procs.length ≠ m.procs.length then none
      else some (Group.dense ptr m.procs (Group.setGroupRank m.procs me))) = _
    rw [if_neg hsize, setGroupRank_eq m.nodup]
  · rw [if_neg hme₁]
    change (g₂.myProc).bind _ = _
    rw [h₂.myProc]
    by_cases hme₂ : me ∈ m₂.procs
    · rw [if_pos hme₂]
      change (if m.procs.length ≠ m.procs.length then none
        else some (Group.dense ptr m.procs (Group.setGroupRank m.procs me))) = _
      rw [if_neg hsize, setGroupRank_eq m.nodup]
    · rw [if_neg hme₂]
      change (if m.procs.length ≠ m.procs.length then none
        else some (Group.dense ptr m.procs mpiUndefined)) = _
      rw [if_neg hsize, rankOf_of_not_mem fun hin => (hmem me hin).elim hme₁ hme₂]

theorem Denotes.stands_fill {ptr : ℕ} (hptr : ptr ≠ groupEmptyPtr) :
    ∃ g', (if m.procs.length = 0 then some Group.empty
      else g₁.fill g₂ m.procs.length m.procs ptr) = some g' ∧ Stands me g' m := by
  by_cases hzero : m.procs.length = 0
  · rw [if_pos hzero]
    have hm : m = ProcGroup.empty := by
      obtain ⟨procs, hnodup⟩ := m
      obtain rfl := length_eq_zero_iff.1 hzero
      rfl
    rw [hm]
    exact ⟨_, rfl, stands_empty me⟩
  · rw [if_neg hzero, h₁.fill h₂ hmem]
    refine ⟨_, rfl, denotes_dense me ptr m, iff_of_false hptr fun hnil => hzero ?_⟩
    rw [hnil, length_nil]

end

end Lookups

section Operations

variable {me : P} {g g₁ g₂ : Group P} {m m₁ m₂ : ProcGroup P} {ptr : ℕ}

theorem Denotes.foldlM_count (h : Denotes me g m) {l : List P} {n : ℕ}
    (hint : n + (l.filter (· ∉ m.procs)).length < 2 ^ 31) :
    l.foldlM (fun size p => do
      let found ← g.matchOf p
      if found.isSome then some size else intSucc size) n =
        some (n + (l.filter (· ∉ m.procs)).length) := by
  rw [← countP_eq_length_filter] at hint ⊢
  apply Ulfm.foldlM_count
  · intro size p _
    obtain ⟨found, hfound, hiff⟩ := h.isSome_matchOf p
    rw [hfound]
    change (if found.isSome then some size else intSucc size) = _
    by_cases hp : p ∈ m.procs
    · rw [if_pos (hiff.2 hp), if_neg (by rw [decide_eq_true_eq]; exact not_not.2 hp)]
    · rw [if_neg fun hs => hp (hiff.1 hs), if_pos (decide_eq_true hp)]
  · exact hint

theorem Denotes.foldlM_collect (h : Denotes me g m) {l acc : List P} {capacity : ℕ}
    (hcapacity : acc.length + (l.filter (· ∉ m.procs)).length ≤ capacity) :
    l.foldlM (fun procs p => do
      let found ← g.matchOf p
      if found.isSome then some procs else push capacity procs p) acc =
        some (acc ++ l.filter (· ∉ m.procs)) := by
  have hfilter : l.filterMap (fun p => if p ∈ m.procs then none else some p) =
      l.filter (· ∉ m.procs) := by
    rw [← filterMap_eq_filter]
    apply filterMap_congr
    intro p _
    by_cases hp : p ∈ m.procs
    · rw [if_pos hp, Option.guard, if_neg (by simpa using hp)]
    · rw [if_neg hp, Option.guard, if_pos (by simpa using hp)]
  rw [← hfilter] at hcapacity ⊢
  refine Ulfm.foldlM_collect _ (fun acc p _ => ?_) hcapacity
  obtain ⟨found, hfound, hiff⟩ := h.isSome_matchOf p
  rw [hfound]
  change (if found.isSome then some acc else push capacity acc p) = _
  by_cases hp : p ∈ m.procs
  · rw [if_pos (hiff.2 hp), if_pos hp]
    rfl
  · rw [if_neg fun hs => hp (hiff.1 hs), if_neg hp]
    rfl

section

variable (h₁ : Denotes me g₁ m₁) (h₂ : Denotes me g₂ m₂) (hptr : ptr ≠ groupEmptyPtr)
include h₁ h₂ hptr

theorem Denotes.union (hint : (m₁.union m₂).size < 2 ^ 31) :
    ∃ g', g₁.union g₂ ptr = some g' ∧ Stands me g' (m₁.union m₂) := by
  have hlength : (m₁.union m₂).procs.length =
      m₁.procs.length + (m₂.procs.filter (· ∉ m₁.procs)).length := length_append
  have hfirst : g₁.forProcs (fun procs _ p => push (m₁.union m₂).procs.length procs p) [] =
      some m₁.procs := by
    rw [h₁.forProcs, Ulfm.foldlM_collect some]
    · rw [filterMap_some, nil_append]
    · exact fun acc p _ => rfl
    · rw [filterMap_some, length_nil]
      omega
  have hall : ∀ p ∈ (m₁.union m₂).procs, p ∈ m₁.procs ∨ p ∈ m₂.procs := fun p hp =>
    mem_union.1 (ProcGroup.mem_def.2 hp)
  obtain ⟨g', hg', hstands⟩ := h₁.stands_fill h₂ hall hptr
  refine ⟨g', ?_, hstands⟩
  rw [Group.union, h₂.forProcs, h₁.procCount, size, h₁.foldlM_count (hlength ▸ hint),
    ← hlength, ← hg']
  change (if (m₁.union m₂).procs.length = 0 then some Group.empty
    else (g₁.forProcs (fun procs _ p => push (m₁.union m₂).procs.length procs p) []).bind _) = _
  rw [hfirst]
  change (if (m₁.union m₂).procs.length = 0 then some Group.empty
    else (g₂.forProcs _ m₁.procs).bind _) = _
  rw [h₂.forProcs, h₁.foldlM_collect hlength.ge]
  rfl

end

theorem Stands.incl (h : Stands me g m) {ranks : List ℕ} (hnodup : ranks.Nodup)
    (hlt : ∀ r ∈ ranks, r < m.size) (hptr : ptr ≠ groupEmptyPtr)
    (hparent : ∀ s, g.sparse? = some s → s.1 ≠ ptr) {sparse : Bool}
    (hknown : sparse = true → me ∈ m) (before : ℤ) :
    ∃ g', g.incl sparse before ranks ptr = some g' ∧ Stands me g' (m.inclPlist ranks hnodup) := by
  by_cases hne : ranks = []
  · subst hne
    rw [Group.incl, if_pos rfl]
    exact ⟨_, rfl, stands_empty me⟩
  · have hpos : 0 < m.size := by
      obtain ⟨r, hr⟩ := exists_mem_of_ne_nil ranks hne
      exact Nat.zero_lt_of_lt (hlt r hr)
    have hg : g.ptr ≠ groupEmptyPtr := fun heq => by
      rw [size, h.empty_iff.1 heq] at hpos
      exact absurd hpos (lt_irrefl 0)
    have hcaller : CallerKnown me m (inclMethod sparse m.size before ranks) := by
      intro hbitmap
      cases sparse with
      | false => cases hbitmap
      | true => exact hknown rfl
    obtain ⟨g', hg', hptr', hdenotes, -⟩ := (h.toDenotes.inclBy hnodup hne hlt
      (applies_inclMethod sparse m.size before ranks) hg hptr hparent before).1 hcaller
    rw [Group.incl, if_neg hne, h.procCount]
    refine ⟨g', hg', hdenotes, iff_of_false (hptr' ▸ hptr) fun hnil => hne ?_⟩
    rw [← length_eq_zero_iff, ← size_inclPlist hnodup hlt, size, hnil,
      length_nil]

theorem length_commonRanks_le (m₁ m₂ : ProcGroup P) :
    (m₁.commonRanks m₂).length ≤ min m₁.size m₂.size := by
  have hlt : ∀ r ∈ m₁.commonRanks m₂, r < m₁.size := fun r hr =>
    mem_range.1 (mem_filter.1 hr).1
  have hsize := size_inclPlist (nodup_commonRanks m₁ m₂) hlt
  have hsubset : (m₁.intersection m₂).procs ⊆ m₂.procs := fun p hp =>
    (mem_intersection.1 (ProcGroup.mem_def.2 hp)).2
  apply Nat.le_min.2 ⟨?_, ?_⟩
  · calc (m₁.commonRanks m₂).length ≤ (range m₁.size).length := length_filter_le _ _
      _ = m₁.size := length_range
  · rw [← hsize]
    exact ((m₁.intersection m₂).nodup.subperm hsubset).length_le

theorem Stands.intersection (h₁ : Stands me g₁ m₁) (h₂ : Denotes me g₂ m₂)
    (hptr : ptr ≠ groupEmptyPtr) (hparent : ∀ s, g₁.sparse? = some s → s.1 ≠ ptr) {sparse : Bool}
    (hknown : sparse = true → me ∈ m₁) (before : ℤ) :
    ∃ g', g₁.intersection sparse before g₂ ptr = some g' ∧ Stands me g' (m₁.intersection m₂) := by
  have hmin : (if g₁.procCount > g₂.procCount then g₂.procCount else g₁.procCount) =
      min m₁.size m₂.size := by
    rw [h₁.procCount, h₂.procCount]
    split_ifs with hlt
    · exact (Nat.min_eq_right hlt.le).symm
    · exact (Nat.min_eq_left (not_lt.1 hlt)).symm
  set f : ℕ → Option ℕ := fun r =>
    if (m₁.peerLookup r).any (· ∈ m₂.procs) then some r else none with hf
  have hfilter : (range m₁.size).filterMap f = m₁.commonRanks m₂ := by
    rw [commonRanks, ← filterMap_eq_filter]
    rfl
  have hloop : g₁.forProcs (fun ranks rank proc1 => do
      let found ← g₂.matchOf proc1
      if found.isSome then push (min m₁.size m₂.size) ranks rank else some ranks) [] =
        some (m₁.commonRanks m₂) := by
    have hcapacity : ([] : List ℕ).length + ((range m₁.size).filterMap f).length ≤
        min m₁.size m₂.size := by
      rw [hfilter, length_nil, Nat.zero_add]
      exact length_commonRanks_le m₁ m₂
    rw [forProcs, h₁.procCount, ← hfilter]
    refine Ulfm.foldlM_collect f (fun acc r hr => ?_) hcapacity
    have hlt : r < m₁.procs.length := mem_range.1 hr
    obtain ⟨found, hfound, hiff⟩ := h₂.isSome_matchOf m₁.procs[r]
    rw [h₁.getProcPtr_of_lt hlt]
    change (g₂.matchOf m₁.procs[r]).bind _ = _
    rw [hfound, hf]
    change (if found.isSome then push (min m₁.size m₂.size) acc r else some acc) =
      (if (m₁.procs[r]?).any (· ∈ m₂.procs) then some r else none).elim _ _
    rw [getElem?_eq_getElem hlt, any_some]
    by_cases hmem : m₁.procs[r] ∈ m₂.procs
    · rw [if_pos (hiff.2 hmem), if_pos (decide_eq_true hmem)]
      rfl
    · rw [if_neg fun hs => hmem (hiff.1 hs), if_neg fun hs => hmem (of_decide_eq_true hs)]
      rfl
  rw [Group.intersection, hmin]
  change ∃ g', (g₁.forProcs _ []).bind _ = some g' ∧ _
  rw [hloop]
  exact h₁.incl (nodup_commonRanks m₁ m₂)
    (fun r hr => mem_range.1 (mem_filter.1 hr).1) hptr hparent hknown before

theorem Denotes.procs_unique (h₁ : Denotes me g m₁) (h₂ : Denotes me g m₂) :
    m₁.procs = m₂.procs := by
  have hsize : m₁.procs.length = m₂.procs.length := h₁.procCount.symm.trans h₂.procCount
  apply ext_getElem hsize
  intro k hk₁ hk₂
  exact Option.some.inj ((h₁.getProcPtr_of_lt hk₁).symm.trans (h₂.getProcPtr_of_lt hk₂))

theorem Denotes.compareLoop_eq (h₁ : Denotes me g₁ m₁) (h₂ : Denotes me g₂ m₂) {ks : List ℕ}
    (hlt : ∀ k ∈ ks, k < m₁.procs.length) (similar identical : Bool) :
    Group.compareLoop g₁ g₂ ks similar identical =
      some (if ∀ k ∈ ks, ∀ p, m₁.procs[k]? = some p → p ∈ m₂.procs then
        (similar, identical && decide (∀ k ∈ ks, m₁.procs[k]? = m₂.procs[k]?))
      else (false, false)) := by
  classical
  induction ks generalizing similar identical with
  | nil =>
    rw [compareLoop, if_pos fun k hk => absurd hk not_mem_nil,
      decide_eq_true fun k hk => absurd hk not_mem_nil, Bool.and_true]
  | cons k ks ih =>
    have hk : k < m₁.procs.length := hlt k mem_cons_self
    have hget : m₁.procs[k]? = some m₁.procs[k] := getElem?_eq_getElem hk
    have hrest := ih fun j hj => hlt j (mem_cons_of_mem k hj)
    rw [compareLoop, h₁.getProcPtr_of_lt hk]
    change (g₂.matchOf m₁.procs[k]).bind _ = _
    rw [h₂.matchOf]
    cases hfound : m₂.peerLookupId m₁.procs[k] with
    | none =>
      have hnot : m₁.procs[k] ∉ m₂.procs := (peerLookupId_eq_none m₂ _).1 hfound
      rw [if_neg fun hall => hnot (hall k mem_cons_self _ hget)]
      rfl
    | some k' =>
      have hlookup : m₂.procs[k']? = some m₁.procs[k] := peerLookup_of_peerLookupId hfound
      have hmem : m₁.procs[k] ∈ m₂.procs := mem_of_getElem? hlookup
      have hsame : k = k' ↔ m₁.procs[k]? = m₂.procs[k]? := by
        rw [hget]
        constructor
        · rintro rfl
          exact hlookup.symm
        · intro heq
          exact peerLookup_inj (g := m₂) heq.symm hlookup
      change compareLoop g₁ g₂ ks similar (if k ≠ k' then false else identical) = _
      rw [hrest]
      have hall : (∀ j ∈ k :: ks, ∀ p, m₁.procs[j]? = some p → p ∈ m₂.procs) ↔
          ∀ j ∈ ks, ∀ p, m₁.procs[j]? = some p → p ∈ m₂.procs := by
        rw [forall_mem_cons]
        apply and_iff_right
        intro p hp
        rw [hget] at hp
        exact Option.some.inj hp ▸ hmem
      have hidentical : (identical && decide (∀ j ∈ k :: ks, m₁.procs[j]? = m₂.procs[j]?)) =
          ((if k ≠ k' then false else identical) &&
            decide (∀ j ∈ ks, m₁.procs[j]? = m₂.procs[j]?)) := by
        simp only [forall_mem_cons, ← hsame, Bool.decide_and]
        by_cases hkk : k = k'
        · rw [decide_eq_true hkk, if_neg (not_not.2 hkk), Bool.true_and]
        · rw [decide_eq_false hkk, if_pos hkk, Bool.false_and, Bool.and_false]
      simp only [hall, hidentical]

theorem Stands.compare (h₁ : Stands me g₁ m₁) (h₂ : Stands me g₂ m₂)
    (hsame : g₁.ptr = g₂.ptr → g₁ = g₂) :
    g₁.compare g₂ = some (if m₁.procs = m₂.procs then .ident
      else if m₁.procs.Perm m₂.procs then .similar else .unequal) := by
  rw [Group.compare]
  by_cases hptr : g₁.ptr = g₂.ptr
  · obtain rfl := hsame hptr
    rw [if_pos rfl, if_pos (h₁.procs_unique h₂.toDenotes)]
  · rw [if_neg hptr]
    by_cases hempty : groupEmptyPtr = g₁.ptr ∨ groupEmptyPtr = g₂.ptr
    · have hone : ¬m₁.procs.Perm m₂.procs := by
        intro hperm
        have hiff : m₁.procs = [] ↔ m₂.procs = [] := by
          constructor
          · intro hnil
            rw [hnil] at hperm
            exact hperm.nil_eq.symm
          · intro hnil
            rw [hnil] at hperm
            exact hperm.eq_nil
        rw [← h₁.empty_iff, ← h₂.empty_iff] at hiff
        rcases hempty with heq | heq
        · exact hptr (heq.symm.trans (hiff.1 heq.symm).symm)
        · exact hptr ((hiff.2 heq.symm).trans heq)
      rw [if_pos hempty, if_neg fun heq => hone (List.Perm.of_eq heq), if_neg hone]
    · rw [if_neg hempty, h₁.procCount, h₂.procCount]
      by_cases hsize : m₁.size = m₂.size
      · have hloop := h₁.compareLoop_eq h₂.toDenotes
          (fun k (hk : k ∈ range m₁.size) => mem_range.1 hk) true true
        have hsimilar : (∀ k ∈ range m₁.size, ∀ p, m₁.procs[k]? = some p → p ∈ m₂.procs) ↔
            m₁.procs.Perm m₂.procs := by
          constructor
          · intro hall
            have hsubset : m₁.procs ⊆ m₂.procs := by
              intro p hp
              obtain ⟨k, hk⟩ := mem_iff_getElem?.1 hp
              exact hall k (mem_range.2 (List.getElem?_eq_some_iff.1 hk).1) p hk
            exact (m₁.nodup.subperm hsubset).perm_of_length_le hsize.ge
          · intro hperm k _ p hp
            exact hperm.mem_iff.1 (mem_of_getElem? hp)
        have hidentical : (∀ k ∈ range m₁.size, m₁.procs[k]? = m₂.procs[k]?) ↔
            m₁.procs = m₂.procs := by
          constructor
          · intro hall
            apply ext_getElem? fun k => ?_
            rcases Nat.lt_or_ge k m₁.size with hk | hk
            · exact hall k (mem_range.2 hk)
            · rw [getElem?_eq_none hk, getElem?_eq_none (hsize.ge.trans hk)]
          · intro heq k _
            rw [heq]
        rw [if_neg (not_not.2 hsize), hloop]
        simp only [hsimilar, hidentical, Bool.true_and]
        by_cases hperm : m₁.procs.Perm m₂.procs
        · rw [if_pos hperm, if_pos hperm]
          change (if decide (m₁.procs = m₂.procs) = true then some CompareResult.ident
            else if true = true then some .similar else some .unequal) = _
          by_cases heq : m₁.procs = m₂.procs
          · rw [if_pos heq, if_pos (decide_eq_true heq)]
          · rw [if_neg heq, if_neg fun hd => heq (of_decide_eq_true hd), if_pos rfl]
        · rw [if_neg hperm, if_neg fun heq => hperm (List.Perm.of_eq heq), if_neg hperm]
          rfl
      · have hne : ¬m₁.procs.Perm m₂.procs := fun hperm => hsize hperm.length_eq
        rw [if_pos hsize, if_neg fun heq => hne (List.Perm.of_eq heq), if_neg hne]

end Operations

section Examples

end Examples

end Ulfm
