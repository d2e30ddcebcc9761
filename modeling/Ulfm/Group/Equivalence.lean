import Ulfm.Foundation.Outcome
import Ulfm.Foundation.Trace
import Ulfm.Group.Formats

/-!
# Sparse and dense groups agree

The groups of a process stand for groups of processes: `GroupsDenote` relates the two,
and what the code tells of a group (its size, its members, the rank of the caller, the
rank translations) can be read off the group of processes. `ompi_group_incl` keeps the
relation with each format, except that the bitmap translates the rank of the caller
without looking whether it has one.
-/

namespace Ulfm

open List Option ProcGroup Ulfm.Group SparseData

variable {P : Type} [DecidableEq P]

namespace ProcGroup

omit [DecidableEq P] in
theorem peerLookup_eq_some_of_lt {m : ProcGroup P} {r : Nat} (h : r < m.size) :
    ∃ p, m.peerLookup r = some p :=
  ⟨_, getElem?_eq_getElem h⟩

omit [DecidableEq P] in
theorem lt_size_of_peerLookup {m : ProcGroup P} {r : Nat} {p : P} (h : m.peerLookup r = some p) :
    r < m.size :=
  (List.getElem?_eq_some_iff.1 h).1

omit [DecidableEq P] in
theorem peerLookup_inclPlist {m : ProcGroup P} {ranks : List Nat} (h : ranks.Nodup)
    (hlt : ∀ r ∈ ranks, r < m.size) (k : Nat) :
    (m.inclPlist ranks h).peerLookup k = ranks[k]?.bind m.peerLookup := by
  change (ranks.filterMap m.peerLookup)[k]? = _
  clear h
  induction ranks generalizing k with
  | nil => rfl
  | cons r ranks ih =>
    obtain ⟨p, hp⟩ := peerLookup_eq_some_of_lt (hlt r mem_cons_self)
    have hrest := fun k => ih (fun s hs => hlt s (mem_cons_of_mem r hs)) k
    rw [filterMap_cons_some hp]
    cases k with
    | zero => simp [hp]
    | succ k => simp [hrest]

omit [DecidableEq P] in
theorem size_inclPlist {m : ProcGroup P} {ranks : List Nat} (h : ranks.Nodup)
    (hlt : ∀ r ∈ ranks, r < m.size) : (m.inclPlist ranks h).size = ranks.length := by
  change (ranks.filterMap m.peerLookup).length = _
  clear h
  induction ranks with
  | nil => rfl
  | cons r ranks ih =>
    obtain ⟨p, hp⟩ := peerLookup_eq_some_of_lt (hlt r mem_cons_self)
    rw [filterMap_cons_some hp, length_cons, length_cons,
      ih fun s hs => hlt s (mem_cons_of_mem r hs)]

theorem rankOf_eq_of_peerLookup {m : ProcGroup P} {r : Nat} {p : P} (h : m.peerLookup r = some p) :
    rankOf p m.procs = r :=
  rankOf_of_getElem? m.nodup h

theorem rankOf_inclPlist {m : ProcGroup P} {ranks : List Nat} (h : ranks.Nodup)
    (hlt : ∀ r ∈ ranks, r < m.size) {r : Nat} {p : P} (hp : m.peerLookup r = some p) :
    rankOf p (m.inclPlist ranks h).procs = rankOf r ranks := by
  by_cases hmem : r ∈ ranks
  · obtain ⟨k, hk⟩ := mem_iff_getElem?.1 hmem
    rw [rankOf_of_getElem? h hk]
    refine rankOf_eq_of_peerLookup ?_
    rw [peerLookup_inclPlist h hlt, hk]
    exact hp
  · rw [rankOf_of_not_mem hmem, rankOf_of_not_mem]
    intro hin
    obtain ⟨s, hs, hsp⟩ := mem_inclPlist.1 (mem_def.2 hin)
    exact hmem (peerLookup_inj hsp hp ▸ hs)

theorem rankOf_inclPlist_of_not_mem {m : ProcGroup P} {ranks : List Nat} (h : ranks.Nodup) {p : P}
    (hp : p ∉ m) : rankOf p (m.inclPlist ranks h).procs = mpiUndefined := by
  refine rankOf_of_not_mem fun hin => hp ?_
  obtain ⟨s, -, hsp⟩ := mem_inclPlist.1 (mem_def.2 hin)
  exact mem_iff_peerLookup.2 ⟨s, hsp⟩

end ProcGroup

/-- The group stands for the processes `m`, at the process `me`. -/
structure Denotes (me : P) (g : Group P) (m : ProcGroup P) : Prop where
  procCount : g.procCount = m.size
  lookup : ∀ {r : Nat} {p : P}, m.peerLookup r = some p → g.getProcPtr r = some p
  myRank : g.myRank = rankOf me m.procs

/-- What `ompi_group_translate_ranks` should give. -/
def translateMembers (m₁ m₂ : ProcGroup P) (rank : ℤ) : ℤ :=
  if rank = mpiProcNull then mpiProcNull
  else match m₁.peerLookup rank.toNat with
    | some p => rankOf p m₂.procs
    | none => mpiUndefined

theorem translateMembers_natCast {m₁ m₂ : ProcGroup P} {r : Nat} {p : P}
    (h : m₁.peerLookup r = some p) : translateMembers m₁ m₂ r = rankOf p m₂.procs := by
  rw [translateMembers, if_neg (natCast_ne_mpiProcNull r), Int.toNat_natCast, h]

section Translate

variable {me : P} {g g₁ g₂ : Group P} {m m₁ m₂ : ProcGroup P}

theorem Denotes.findProc (h : Denotes me g m) (p : P) : g.findProc p = rankOf p m.procs := by
  have hlookup : ∀ k : Nat, k ∈ List.range g.procCount →
      (g.getProcPtr k = some p ↔ m.peerLookup k = some p) := by
    intro k hk
    rw [mem_range, h.procCount] at hk
    obtain ⟨q, hq⟩ := peerLookup_eq_some_of_lt hk
    rw [h.lookup hq, hq]
  rw [Group.findProc]
  cases hfind : (List.range g.procCount).find? (fun k : Nat => g.getProcPtr k = some p) with
  | some k =>
    have hk := mem_of_find?_eq_some hfind
    have hp := find?_some hfind
    rw [decide_eq_true_eq, hlookup k hk] at hp
    exact (rankOf_eq_of_peerLookup hp).symm
  | none =>
    refine (rankOf_of_not_mem fun hin => ?_).symm
    obtain ⟨k, hk⟩ := mem_iff_peerLookup.1 (ProcGroup.mem_def.2 hin)
    have hrange : k ∈ List.range g.procCount := by
      rw [mem_range, h.procCount]
      exact lt_size_of_peerLookup hk
    have hnone := find?_eq_none.1 hfind k hrange
    rw [decide_eq_true_eq, hlookup k hrange] at hnone
    exact hnone hk

def ValidRank (size : Nat) (rank : ℤ) : Prop := rank = mpiProcNull ∨ ∃ r : Nat, r < size ∧ rank = r

theorem Denotes.loop (h₁ : Denotes me g₁ m₁) (h₂ : Denotes me g₂ m₂) {rank : ℤ}
    (hrank : ValidRank m₁.size rank) :
    Group.translateRank.loop g₁ g₂ rank = some (translateMembers m₁ m₂ rank) := by
  rw [translateRank.loop]
  rcases hrank with rfl | ⟨r, hr, rfl⟩
  · rw [if_pos rfl, translateMembers, if_pos rfl]
  · obtain ⟨p, hp⟩ := peerLookup_eq_some_of_lt hr
    rw [if_neg (natCast_ne_mpiProcNull r), h₁.lookup hp, translateMembers_natCast hp,
      map_some, h₂.findProc]

section

variable {data : SparseData} {ranks : List Nat} (h : data.Codes ranks m.size) (hnodup : ranks.Nodup)
  (hlt : ∀ r ∈ ranks, r < m.size) {rank : ℤ}
include h hnodup hlt

theorem SparseData.Codes.translateReverse_eq
    (hrank : ValidRank (m.inclPlist ranks hnodup).size rank) :
    data.translateReverse rank = some (translateMembers (m.inclPlist ranks hnodup) m rank) := by
  rcases hrank with rfl | ⟨k, hk, rfl⟩
  · rw [translateMembers, if_pos rfl, translateReverse.eq_def, if_pos rfl]
  · obtain ⟨p, hp⟩ := peerLookup_eq_some_of_lt hk
    rw [translateMembers_natCast hp]
    rw [peerLookup_inclPlist hnodup hlt] at hp
    obtain ⟨r, hr, hrp⟩ := bind_eq_some_iff.1 hp
    rw [h.reverse hr, rankOf_eq_of_peerLookup hrp]

theorem SparseData.Codes.translate_eq (hrank : ValidRank m.size rank) :
    data.translate rank = some (translateMembers m (m.inclPlist ranks hnodup) rank) := by
  rcases hrank with rfl | ⟨r, hr, rfl⟩
  · rw [translateMembers, if_pos rfl, SparseData.translate.eq_def, if_pos rfl]
  · obtain ⟨p, hp⟩ := peerLookup_eq_some_of_lt hr
    rw [translateMembers_natCast hp, h.forward hr, rankOf_inclPlist hnodup hlt hp]

end

end Translate

/-- The groups of the process `me` stand for the groups of processes `ms`. -/
structure GroupsDenote (me : P) (gs : List (Group P)) (ms : List (ProcGroup P)) : Prop where
  length : gs.length = ms.length
  ptr : ∀ {i : Nat} {g : Group P}, gs[i]? = some g → g.ptr = i
  denotes : ∀ {i : Nat} {g : Group P} {m : ProcGroup P},
    gs[i]? = some g → ms[i]? = some m → Denotes me g m
  empty : ms[0]? = some ProcGroup.empty
  parent : ∀ {i ptr : Nat} {q : Group P} {data : SparseData} {n : Nat} {r : ℤ},
    gs[i]? = some (.sparse ptr q data n r) → gs[q.ptr]? = some q ∧
      ∃ (m : ProcGroup P) (ranks : List Nat) (hnodup : ranks.Nodup),
        ms[q.ptr]? = some m ∧ (∀ r ∈ ranks, r < m.size) ∧ data.Codes ranks m.size ∧
          ms[i]? = some (m.inclPlist ranks hnodup)

section Translate

variable {me : P} {gs : List (Group P)} {ms : List (ProcGroup P)}

theorem GroupsDenote.parent_of_ptr (h : GroupsDenote me gs ms) {i j : Nat} {g g' : Group P}
    {m m' : ProcGroup P} (hg : gs[i]? = some g) (hm : ms[i]? = some m) (hm' : ms[j]? = some m')
    (hg' : gs[j]? = some g') {data : SparseData} (hsparse : g.sparse? = some (g'.ptr, data)) :
    ∃ (ranks : List Nat) (hnodup : ranks.Nodup), (∀ r ∈ ranks, r < m'.size) ∧
      data.Codes ranks m'.size ∧ m = m'.inclPlist ranks hnodup := by
  cases g with
  | dense ptr procs r => cases hsparse
  | sparse ptr q data' n r =>
    obtain ⟨hq, rfl⟩ : q.ptr = g'.ptr ∧ data' = data := by simpa [sparse?] using hsparse
    obtain ⟨-, mq, ranks, hnodup, hmq, hlt, hcodes, hi⟩ := h.parent hg
    rw [hq, h.ptr hg', hm'] at hmq
    obtain rfl := Option.some.inj hmq
    exact ⟨ranks, hnodup, hlt, hcodes, Option.some.inj (hm.symm.trans hi)⟩

theorem GroupsDenote.translateRank (h : GroupsDenote me gs ms) {i j : Nat} {g₁ g₂ : Group P}
    {m₁ m₂ : ProcGroup P} (hg₁ : gs[i]? = some g₁) (hg₂ : gs[j]? = some g₂)
    (hm₁ : ms[i]? = some m₁) (hm₂ : ms[j]? = some m₂) {rank : ℤ}
    (hrank : ValidRank m₁.size rank) :
    g₁.translateRank g₂ rank = some (if i = groupEmptyPtr ∨ j = groupEmptyPtr then mpiUndefined
      else translateMembers m₁ m₂ rank) := by
  have hloop := (h.denotes hg₁ hm₁).loop (h.denotes hg₂ hm₂) hrank
  have hreverse : ∀ data, g₁.sparse? = some (g₂.ptr, data) →
      data.translateReverse rank = some (translateMembers m₁ m₂ rank) := by
    intro data hsparse
    obtain ⟨ranks, hnodup, hlt, hcodes, rfl⟩ := h.parent_of_ptr hg₁ hm₁ hm₂ hg₂ hsparse
    exact hcodes.translateReverse_eq hnodup hlt hrank
  have hforward : ∀ data, g₂.sparse? = some (g₁.ptr, data) →
      data.translate rank = some (translateMembers m₁ m₂ rank) := by
    intro data hsparse
    obtain ⟨ranks, hnodup, hlt, hcodes, rfl⟩ := h.parent_of_ptr hg₂ hm₂ hm₁ hg₁ hsparse
    exact hcodes.translate_eq hnodup hlt hrank
  rw [Group.translateRank, h.ptr hg₁, h.ptr hg₂]
  rw [h.ptr hg₁] at hforward
  rw [h.ptr hg₂] at hreverse
  by_cases hempty : i = groupEmptyPtr ∨ j = groupEmptyPtr
  · rw [if_pos hempty, if_pos hempty]
  · rw [if_neg hempty, if_neg hempty]
    cases hs₁ : g₁.sparse? with
    | none =>
      cases hs₂ : g₂.sparse? with
      | none => exact hloop
      | some s₂ =>
        simp only
        split_ifs with hparent
        · exact hforward _ (by rw [hs₂, ← hparent])
        · exact hloop
    | some s₁ =>
      cases hs₂ : g₂.sparse? with
      | none =>
        simp only
        split_ifs with hparent
        · exact hreverse _ (by rw [hs₁, ← hparent])
        · exact hloop
      | some s₂ =>
        simp only
        split_ifs with hparent hparent'
        · exact hreverse _ (by rw [hs₁, ← hparent])
        · exact hforward _ (by rw [hs₂, ← hparent'])
        · exact hloop

end Translate

section Incl

variable {me : P} {g : Group P} {m : ProcGroup P} {ranks : List Nat}

theorem rankOf_ne_mpiUndefined {p : P} {l : List P} : rankOf p l ≠ mpiUndefined ↔ p ∈ l := by
  by_cases hp : p ∈ l
  · rw [rankOf, if_pos hp, mpiUndefined]
    exact ⟨fun _ => hp, fun _ => by omega⟩
  · rw [rankOf_of_not_mem hp]
    exact ⟨fun h => absurd rfl h, fun h => absurd h hp⟩

theorem setGroupRank_eq {procs : List P} (hnodup : procs.Nodup) (p : P) :
    Group.setGroupRank procs p = rankOf p procs := by
  by_cases hp : p ∈ procs
  · obtain ⟨k, hk⟩ := mem_iff_getElem?.1 hp
    -- the loop writes the rank once, at `k`
    have hfold : ∀ n, k < n → (range n).foldl (fun (rank : ℤ) (j : Nat) =>
        if procs[j]? = some p then (j : ℤ) else rank) mpiUndefined = k := by
      intro n hn
      induction n with
      | zero => omega
      | succ n ih =>
        rw [range_succ, foldl_append, foldl_cons, foldl_nil]
        by_cases hnk : procs[n]? = some p
        · have hlt := (List.getElem?_eq_some_iff.1 hnk).1
          rw [if_pos hnk, (getElem?_inj hlt hnodup).1 (hnk.trans hk.symm)]
        · rw [if_neg hnk]
          refine ih (lt_of_le_of_ne (Nat.lt_succ_iff.1 hn) ?_)
          rintro rfl
          exact hnk hk
    rw [setGroupRank, hfold _ (List.getElem?_eq_some_iff.1 hk).1, rankOf_of_getElem? hnodup hk]
  · have hfold : ∀ ks : List Nat, ks.foldl (fun (rank : ℤ) (j : Nat) =>
        if procs[j]? = some p then (j : ℤ) else rank) mpiUndefined = mpiUndefined := by
      intro ks
      induction ks with
      | nil => rfl
      | cons k ks ih =>
        rw [foldl_cons, if_neg fun hk => hp (mem_of_getElem? hk)]
        exact ih
    rw [setGroupRank, hfold, rankOf_of_not_mem hp]

theorem Denotes.getProcPtr_myRank (h : Denotes me g m) (hme : me ∈ m) :
    ∃ r : Nat, m.peerLookup r = some me ∧ g.myRank = r := by
  obtain ⟨r, hr⟩ := mem_iff_peerLookup.1 hme
  exact ⟨r, hr, h.myRank.trans (rankOf_eq_of_peerLookup hr)⟩

theorem Denotes.inclPlist (h : Denotes me g m) (hnodup : ranks.Nodup)
    (hlt : ∀ r ∈ ranks, r < m.size) (ptr : Nat) :
    ∃ g', g.inclPlist ranks ptr = some g' ∧ g'.ptr = ptr ∧ g'.sparse? = none ∧
      Denotes me g' (m.inclPlist ranks hnodup) := by
  have hprocs : (ranks.mapM fun r : Nat => g.getProcPtr r) =
      some (m.inclPlist ranks hnodup).procs := by
    change _ = some (ranks.filterMap m.peerLookup)
    clear hnodup
    induction ranks with
    | nil => rfl
    | cons r ranks ih =>
      obtain ⟨p, hp⟩ := peerLookup_eq_some_of_lt (hlt r mem_cons_self)
      rw [mapM_cons, h.lookup hp, ih fun s hs => hlt s (mem_cons_of_mem r hs),
        filterMap_cons_some hp]
      rfl
  have hdense : Denotes me (.dense ptr (m.inclPlist ranks hnodup).procs
      (rankOf me (m.inclPlist ranks hnodup).procs)) (m.inclPlist ranks hnodup) := by
    refine ⟨rfl, fun {r p} hp => ?_, rfl⟩
    rw [getProcPtr, if_neg (by omega), Int.toNat_natCast]
    exact hp
  refine ⟨_, ?_, rfl, rfl, hdense⟩
  rw [Group.inclPlist, hprocs]
  by_cases hme : me ∈ m
  · obtain ⟨r, hr, hrank⟩ := h.getProcPtr_myRank hme
    have hne : g.myRank ≠ mpiUndefined := by
      rw [h.myRank]
      exact rankOf_ne_mpiUndefined.2 hme
    simp only [bind_eq_bind, bind_some, hne, ne_eq, not_false_eq_true, if_true]
    rw [hrank, h.lookup hr, bind_some, setGroupRank_eq (m.inclPlist ranks hnodup).nodup]
  · have hundefined : g.myRank = mpiUndefined := by
      rw [h.myRank]
      exact rankOf_of_not_mem hme
    simp only [bind_eq_bind, bind_some, hundefined, ne_eq, not_true_eq_false, if_false]
    rw [rankOf_inclPlist_of_not_mem hnodup hme]

theorem translateRank_child (g : Group P) {data : SparseData} {n ptr : Nat}
    (hg : g.ptr ≠ groupEmptyPtr) (hptr : ptr ≠ groupEmptyPtr)
    (hsparse : ∀ s, g.sparse? = some s → s.1 ≠ ptr) (rank : ℤ) :
    g.translateRank (.sparse ptr g data n mpiUndefined) rank = data.translate rank := by
  have hempty : ¬(g.ptr = groupEmptyPtr ∨
      (Group.sparse ptr g data n mpiUndefined).ptr = groupEmptyPtr) := not_or.2 ⟨hg, hptr⟩
  have hchild : (Group.sparse ptr g data n mpiUndefined).sparse? = some (g.ptr, data) := rfl
  rw [translateRank, if_neg hempty, hchild]
  cases hs : g.sparse? with
  | none => exact if_pos rfl
  | some s =>
    have hne : ¬s.1 = (Group.sparse ptr g data n mpiUndefined).ptr := hsparse s hs
    simp only [hne, if_false, if_true]

theorem Denotes.inclSparse (h : Denotes me g m) (hnodup : ranks.Nodup)
    (hlt : ∀ r ∈ ranks, r < m.size) {data : SparseData} (hcodes : data.Codes ranks m.size)
    {ptr : Nat} (hg : g.ptr ≠ groupEmptyPtr) (hptr : ptr ≠ groupEmptyPtr)
    (hsparse : ∀ s, g.sparse? = some s → s.1 ≠ ptr)
    (hme : me ∉ m → data.translate mpiUndefined = some mpiUndefined) :
    ∃ r, g.inclSparse data ranks.length ptr = some (.sparse ptr g data ranks.length r) ∧
      Denotes me (.sparse ptr g data ranks.length r) (m.inclPlist ranks hnodup) := by
  refine ⟨rankOf me (m.inclPlist ranks hnodup).procs, ?_, ?_⟩
  · rw [Group.inclSparse, translateRank_child g hg hptr hsparse]
    by_cases hmem : me ∈ m
    · obtain ⟨r, hr, hrank⟩ := h.getProcPtr_myRank hmem
      rw [hrank, hcodes.forward (lt_size_of_peerLookup hr), map_some,
        rankOf_inclPlist hnodup hlt hr]
    · rw [h.myRank, rankOf_of_not_mem hmem, hme hmem, map_some,
        rankOf_inclPlist_of_not_mem hnodup hmem]
  · refine ⟨(size_inclPlist hnodup hlt).symm, fun {k p} hp => ?_, rfl⟩
    rw [peerLookup_inclPlist hnodup hlt] at hp
    obtain ⟨r, hr, hrp⟩ := bind_eq_some_iff.1 hp
    rw [Group.getProcPtr, hcodes.reverse hr, bind_some, h.lookup hrp]

theorem translate_mpiUndefined_strided (s last : ℤ) (offset : Nat) :
    (SparseData.strided s offset last).translate mpiUndefined = some mpiUndefined := by
  rw [SparseData.translate, if_neg (by decide)]
  simp only [translateStrided]
  rw [if_pos (by rw [mpiUndefined]; omega)]

theorem translate_mpiUndefined_sporadic (list : List (Nat × Nat)) :
    (SparseData.sporadic list).translate mpiUndefined = some mpiUndefined := by
  have hloop : ∀ count, translateSporadic mpiUndefined count list = mpiUndefined := by
    induction list with
    | nil => exact fun _ => rfl
    | cons e list ih =>
      intro count
      rw [translateSporadic, if_neg (by rw [mpiUndefined]; omega)]
      exact ih _
  rw [SparseData.translate, if_neg (by decide)]
  exact congrArg some (hloop 0)

theorem translate_mpiUndefined_bitmap (array : List Nat) :
    (SparseData.bitmap array).translate mpiUndefined = none := by
  rw [SparseData.translate, if_neg (by decide)]
  rfl

/-- When a call of `ompi_group_incl` with a format is defined. -/
def CallerKnown (me : P) (m : ProcGroup P) (method : GroupMethod) : Prop :=
  method = .bitmap → me ∈ m

theorem Denotes.inclBy (h : Denotes me g m) (hnodup : ranks.Nodup) (hne : ranks ≠ [])
    (hlt : ∀ r ∈ ranks, r < m.size) {method : GroupMethod} (happlies : method.Applies ranks)
    {ptr : Nat} (hg : g.ptr ≠ groupEmptyPtr) (hptr : ptr ≠ groupEmptyPtr)
    (hsparse : ∀ s, g.sparse? = some s → s.1 ≠ ptr) (before : ℤ) :
    (CallerKnown me m method → ∃ g', g.inclBy method before ranks ptr = some g' ∧ g'.ptr = ptr ∧
      Denotes me g' (m.inclPlist ranks hnodup) ∧
      ∀ {ptr' : Nat} {q : Group P} {data : SparseData} {n : Nat} {r : ℤ},
        g' = .sparse ptr' q data n r → q = g ∧ data.Codes ranks m.size) ∧
    (¬CallerKnown me m method → g.inclBy method before ranks ptr = none) := by
  have hbuilt : ∀ {data : SparseData}, data.Codes ranks m.size →
      (me ∉ m → data.translate mpiUndefined = some mpiUndefined) →
      ∃ g', g.inclSparse data ranks.length ptr = some g' ∧ g'.ptr = ptr ∧
        Denotes me g' (m.inclPlist ranks hnodup) ∧
        ∀ {ptr' : Nat} {q : Group P} {data : SparseData} {n : Nat} {r : ℤ},
          g' = .sparse ptr' q data n r → q = g ∧ data.Codes ranks m.size := by
    intro data hcodes hme
    obtain ⟨r, heq, hdenotes⟩ := h.inclSparse hnodup hlt hcodes hg hptr hsparse hme
    refine ⟨_, heq, rfl, hdenotes, fun {ptr' q data' n r'} hg' => ?_⟩
    obtain ⟨-, rfl, rfl, -⟩ := Group.sparse.inj hg'
    exact ⟨rfl, hcodes⟩
  cases method with
  | plist =>
    refine ⟨fun _ => ?_, fun hc => absurd (fun hm => (nomatch hm)) hc⟩
    obtain ⟨g', heq, hptr', hnone, hdenotes⟩ := h.inclPlist hnodup hlt ptr
    refine ⟨g', heq, hptr', hdenotes, fun {ptr' q data n r} hg' => ?_⟩
    rw [hg'] at hnone
    cases hnone
  | strided =>
    refine ⟨fun _ => ?_, fun hc => absurd (fun hm => (nomatch hm)) hc⟩
    exact hbuilt (strided_codes hne hnodup happlies m.size)
      fun _ => translate_mpiUndefined_strided _ _ _
  | sporadic =>
    refine ⟨fun _ => ?_, fun hc => absurd (fun hm => (nomatch hm)) hc⟩
    rw [Group.inclBy, if_neg (by rw [length_sporadicList before]; exact lt_irrefl _),
      sum_sporadicList, sporadicRanks_sporadicList]
    exact hbuilt (sporadic_codes hnodup m.size) fun _ => translate_mpiUndefined_sporadic _
  | bitmap =>
    rw [Group.inclBy, h.procCount]
    have hcodes := bitmap_codes happlies hnodup hlt
    constructor
    · intro hknown
      exact hbuilt hcodes fun hme => absurd (hknown rfl) hme
    · intro hunknown
      have hme : me ∉ m := fun hmem => hunknown fun _ => hmem
      rw [Group.inclSparse, translateRank_child g hg hptr hsparse, h.myRank,
        rankOf_of_not_mem hme, translate_mpiUndefined_bitmap, map_none]

end Incl

section Runs

variable {me : P} {gs : List (Group P)} {ms : List (ProcGroup P)}

/-- The groups of processes after one more call. -/
def memberStep (ms : List (ProcGroup P)) (step : InclStep) : List (ProcGroup P) :=
  if step.ranks = [] then ms
  else ms ++ [(ms.getD step.parent ProcGroup.empty).inclPlist step.ranks step.nodup]

/-- A call on an existing group, with ranks of that group and a format that applies. -/
structure ValidStep (ms : List (ProcGroup P)) (step : InclStep) : Prop where
  parent : step.parent < ms.length
  ranks : ∀ r ∈ step.ranks, r < (ms.getD step.parent ProcGroup.empty).size
  method : step.method.Applies step.ranks

/-- The caller is a member of the parent of a bitmap. -/
def StepKnown (me : P) (ms : List (ProcGroup P)) (step : InclStep) : Prop :=
  step.ranks ≠ [] → CallerKnown me (ms.getD step.parent ProcGroup.empty) step.method

theorem GroupsDenote.inclGroup (h : GroupsDenote me gs ms) {step : InclStep}
    (hvalid : ValidStep ms step) :
    (StepKnown me ms step → ∃ gs', inclGroup gs step = some gs' ∧
      GroupsDenote me gs' (memberStep ms step)) ∧
    (¬StepKnown me ms step → Ulfm.inclGroup gs step = none) := by
  rw [Ulfm.inclGroup, memberStep]
  by_cases hnil : step.ranks = []
  · rw [if_pos hnil, if_pos hnil]
    exact ⟨fun _ => ⟨gs, rfl, h⟩, fun hc => absurd (fun hne => absurd hnil hne) hc⟩
  rw [if_neg hnil, if_neg hnil]
  have hm : ms[step.parent]? = some (ms.getD step.parent ProcGroup.empty) := by
    rw [getD_eq_getElem?_getD, getElem?_eq_getElem hvalid.parent]
    rfl
  have hranks := hvalid.ranks
  unfold StepKnown
  generalize ms.getD step.parent ProcGroup.empty = m at hm hranks ⊢
  obtain ⟨g, hg⟩ : ∃ g, gs[step.parent]? = some g :=
    ⟨_, getElem?_eq_getElem (h.length ▸ hvalid.parent)⟩
  have hdenotes := h.denotes hg hm
  have hgempty : g.ptr ≠ groupEmptyPtr := by
    rw [h.ptr hg]
    intro hzero
    rw [hzero, show groupEmptyPtr = 0 from rfl, h.empty] at hm
    obtain ⟨r, hr⟩ := exists_mem_of_ne_nil _ hnil
    have hlt := hranks r hr
    rw [← Option.some.inj hm] at hlt
    exact absurd hlt (Nat.not_lt_zero r)
  have hlen : gs.length ≠ groupEmptyPtr := by
    have hlt := (List.getElem?_eq_some_iff.1 hg).1
    rw [show groupEmptyPtr = 0 from rfl]
    omega
  have hsparse : ∀ s, g.sparse? = some s → s.1 ≠ gs.length := by
    intro s hs
    cases g with
    | dense ptr procs r => cases hs
    | sparse ptr q data n r =>
      obtain ⟨hq, -⟩ := h.parent hg
      have hlt := (List.getElem?_eq_some_iff.1 hq).1
      rw [← Option.some.inj hs]
      exact hlt.ne
  obtain ⟨hknown, hunknown⟩ := hdenotes.inclBy step.nodup hnil hranks hvalid.method hgempty hlen
    hsparse step.before
  rw [hg]
  constructor
  · intro hc
    obtain ⟨g', heq, hptr', hdenotes', hparent'⟩ := hknown (hc hnil)
    refine ⟨gs ++ [g'], by rw [bind_eq_bind, bind_some, heq]; rfl, ?_⟩
    have hlast : ∀ {i : Nat} {g : Group P}, (gs ++ [g'])[i]? = some g →
        gs[i]? = some g ∨ i = gs.length ∧ g = g' := by
      intro i g hi
      rcases lt_or_ge i gs.length with hlt | hge
      · rw [getElem?_append_left hlt] at hi
        exact Or.inl hi
      · rw [getElem?_append_right hge] at hi
        obtain ⟨hlt', heq'⟩ := List.getElem?_eq_some_iff.1 hi
        rw [length_singleton] at hlt'
        refine Or.inr ⟨by omega, ?_⟩
        rw [← heq', getElem_singleton]
    have hms : ∀ {i : Nat}, i < gs.length →
        (ms ++ [m.inclPlist step.ranks step.nodup])[i]? = ms[i]? :=
      fun hlt => getElem?_append_left (h.length ▸ hlt)
    have hmslast : (ms ++ [m.inclPlist step.ranks step.nodup])[gs.length]? =
        some (m.inclPlist step.ranks step.nodup) := by
      rw [h.length]
      exact getElem?_concat_length
    have hgs : ∀ {i : Nat} {g : Group P}, gs[i]? = some g → (gs ++ [g'])[i]? = some g :=
      fun hi => by rw [getElem?_append_left (List.getElem?_eq_some_iff.1 hi).1, hi]
    refine ⟨by simp [h.length], fun {i g} hi => ?_, fun {i g m'} hi hm' => ?_, ?_,
      fun {i ptr q data n r} hi => ?_⟩
    · rcases hlast hi with hi | ⟨rfl, rfl⟩
      · exact h.ptr hi
      · exact hptr'
    · rcases hlast hi with hi | ⟨rfl, rfl⟩
      · rw [hms (List.getElem?_eq_some_iff.1 hi).1] at hm'
        exact h.denotes hi hm'
      · rw [hmslast] at hm'
        exact Option.some.inj hm' ▸ hdenotes'
    · rw [hms (by rw [show groupEmptyPtr = 0 from rfl] at hlen; omega)]
      exact h.empty
    · rcases hlast hi with hi | ⟨rfl, hg'⟩
      · obtain ⟨hq, m', ranks, hnodup, hm', hlt, hcodes, hchild⟩ := h.parent hi
        refine ⟨hgs hq, m', ranks, hnodup, ?_, hlt, hcodes, ?_⟩
        · rw [hms (List.getElem?_eq_some_iff.1 hq).1]
          exact hm'
        · rw [hms (List.getElem?_eq_some_iff.1 hi).1]
          exact hchild
      · obtain ⟨rfl, hcodes⟩ := hparent' hg'.symm
        refine ⟨hgs (h.ptr hg ▸ hg), m, step.ranks, step.nodup, ?_, hranks, hcodes, hmslast⟩
        rw [h.ptr hg, hms (List.getElem?_eq_some_iff.1 hg).1]
        exact hm
  · intro hc
    have hnone := hunknown fun hk => hc fun _ => hk
    rw [bind_eq_bind, bind_some, hnone]
    rfl

theorem GroupsDenote.inclGroups (h : GroupsDenote me gs ms) {steps : List InclStep}
    (hvalid : Along memberStep ValidStep ms steps) :
    (Along memberStep (StepKnown me) ms steps → ∃ gs', inclGroups gs steps = some gs' ∧
      GroupsDenote me gs' (steps.foldl memberStep ms)) ∧
    (¬Along memberStep (StepKnown me) ms steps → Ulfm.inclGroups gs steps = none) := by
  induction steps generalizing gs ms with
  | nil => exact ⟨fun _ => ⟨gs, rfl, h⟩, fun hc => absurd trivial hc⟩
  | cons step steps ih =>
    obtain ⟨hstep, hrest⟩ := hvalid
    obtain ⟨hknown, hunknown⟩ := h.inclGroup hstep
    rw [Ulfm.inclGroups]
    by_cases hc : StepKnown me ms step
    · obtain ⟨gs', heq, hgs'⟩ := hknown hc
      obtain ⟨hall, hnone⟩ := ih hgs' hrest
      rw [heq, bind_some]
      exact ⟨fun hk => hall hk.2, fun hk => hnone fun hk' => hk ⟨hc, hk'⟩⟩
    · rw [hunknown hc]
      exact ⟨fun hk => absurd hk.1 hc, fun _ => rfl⟩

theorem groupsDenote_initial (me : P) (bases : List (ProcGroup P)) :
    GroupsDenote me (initialGroups me bases) (ProcGroup.empty :: bases) := by
  have hbase : ∀ {i : Nat} {g : Group P}, (bases.zipIdx.map fun b : ProcGroup P × Nat =>
        Group.dense (b.2 + 1) b.1.procs (rankOf me b.1.procs))[i]? = some g →
      ∃ m, bases[i]? = some m ∧ g = .dense (i + 1) m.procs (rankOf me m.procs) := by
    intro i g hi
    rw [getElem?_map, getElem?_zipIdx] at hi
    cases hm : bases[i]? with
    | none => simp [hm] at hi
    | some m =>
      refine ⟨m, rfl, ?_⟩
      simpa [hm] using hi.symm
  have hdense : ∀ (ptr : Nat) (m : ProcGroup P),
      Denotes me (.dense ptr m.procs (rankOf me m.procs)) m := by
    refine fun ptr m => ⟨rfl, fun {r p} hp => ?_, rfl⟩
    rw [getProcPtr, if_neg (by omega), Int.toNat_natCast]
    exact hp
  refine ⟨by simp [initialGroups], fun {i g} hi => ?_, fun {i g m} hi hm => ?_, rfl,
    fun {i ptr q data n r} hi => ?_⟩
  · cases i with
    | zero => rw [← Option.some.inj hi]; rfl
    | succ i =>
      obtain ⟨m, -, rfl⟩ := hbase hi
      rfl
  · cases i with
    | zero =>
      rw [← Option.some.inj hi, ← Option.some.inj hm]
      exact hdense _ ProcGroup.empty
    | succ i =>
      obtain ⟨m', hm', rfl⟩ := hbase hi
      have hm : bases[i]? = some m := hm
      rw [hm] at hm'
      rw [← Option.some.inj hm']
      exact hdense _ m
  · cases i with
    | zero => cases hi
    | succ i =>
      obtain ⟨m, -, hg⟩ := hbase hi
      cases hg

end Runs

theorem applies_groupMinloc (parentCount : Nat) (before : ℤ) (ranks : List Nat) :
    (groupMinloc (groupCalc parentCount before ranks)).Applies ranks := by
  have happlies : ∀ method : GroupMethod, groupCalc parentCount before ranks method ≠ -1 →
      method.Applies ranks := by
    intro method hlen
    cases method with
    | plist => exact trivial
    | strided => exact fun hstride => hlen (if_pos hstride)
    | sporadic => exact trivial
    | bitmap =>
      by_contra hranks
      exact hlen (if_neg hranks)
  have hfold : ∀ (methods : List GroupMethod) (best : ℤ × GroupMethod), best.2.Applies ranks →
      (methods.foldl (fun best m => if best.1 > groupCalc parentCount before ranks m ∧
          groupCalc parentCount before ranks m ≠ -1 then (groupCalc parentCount before ranks m, m)
        else best) best).2.Applies ranks := by
    intro methods
    induction methods with
    | nil => exact fun _ h => h
    | cons m methods ih =>
      intro best hbest
      rw [foldl_cons]
      split_ifs with hm
      · exact ih _ (happlies m hm.2)
      · exact ih _ hbest
  exact hfold _ _ trivial

/-- Two lists of groups that the code cannot tell apart. -/
structure SameGroups (gs ds : List (Group P)) : Prop where
  length : gs.length = ds.length
  procCount : ∀ {i : Nat} {g d : Group P}, gs[i]? = some g → ds[i]? = some d →
    g.procCount = d.procCount
  myRank : ∀ {i : Nat} {g d : Group P}, gs[i]? = some g → ds[i]? = some d → g.myRank = d.myRank
  lookup : ∀ {i : Nat} {g d : Group P}, gs[i]? = some g → ds[i]? = some d →
    ∀ r : Nat, r < d.procCount → ∃ p, g.getProcPtr r = some p ∧ d.getProcPtr r = some p
  translate : ∀ {i j : Nat} {g g' d d' : Group P}, gs[i]? = some g → ds[i]? = some d →
    gs[j]? = some g' → ds[j]? = some d' → ∀ ranks : List ℤ,
      (∀ rank ∈ ranks, ValidRank d.procCount rank) →
        ∃ ranks', g.translateRanks g' ranks = some ranks' ∧ d.translateRanks d' ranks = some ranks'

theorem GroupsDenote.same {me : P} {gs ds : List (Group P)} {ms : List (ProcGroup P)}
    (hg : GroupsDenote me gs ms) (hd : GroupsDenote me ds ms) : SameGroups gs ds := by
  have hmember : ∀ {i : Nat} {g : Group P}, gs[i]? = some g → ∃ m, ms[i]? = some m := by
    intro i g hi
    exact ⟨_, getElem?_eq_getElem (hg.length ▸ (List.getElem?_eq_some_iff.1 hi).1)⟩
  refine ⟨hg.length.trans hd.length.symm, fun {i g d} hi hi' => ?_, fun {i g d} hi hi' => ?_,
    fun {i g d} hi hi' r hr => ?_, fun {i j g g' d d'} hi hi' hj hj' ranks hranks => ?_⟩
  · obtain ⟨m, hm⟩ := hmember hi
    exact (hg.denotes hi hm).procCount.trans (hd.denotes hi' hm).procCount.symm
  · obtain ⟨m, hm⟩ := hmember hi
    exact (hg.denotes hi hm).myRank.trans (hd.denotes hi' hm).myRank.symm
  · obtain ⟨m, hm⟩ := hmember hi
    rw [(hd.denotes hi' hm).procCount] at hr
    obtain ⟨p, hp⟩ := peerLookup_eq_some_of_lt hr
    exact ⟨p, (hg.denotes hi hm).lookup hp, (hd.denotes hi' hm).lookup hp⟩
  · obtain ⟨m, hm⟩ := hmember hi
    obtain ⟨m', hm'⟩ := hmember hj
    rw [(hd.denotes hi' hm).procCount] at hranks
    exact ⟨_, mapM_eq_some_map fun rank hrank => hg.translateRank hi hj hm hm' (hranks rank hrank),
      mapM_eq_some_map fun rank hrank => hd.translateRank hi' hj' hm hm' (hranks rank hrank)⟩

def InclStep.plist (step : InclStep) : InclStep := { step with method := .plist }

omit [DecidableEq P] in
theorem along_plist (me : P) {ms : List (ProcGroup P)} {steps : List InclStep}
    (h : Along memberStep ValidStep ms steps) :
    Along memberStep ValidStep ms (steps.map InclStep.plist) ∧
      Along memberStep (StepKnown me) ms (steps.map InclStep.plist) ∧
      (steps.map InclStep.plist).foldl memberStep ms = steps.foldl memberStep ms := by
  induction steps generalizing ms with
  | nil => exact ⟨trivial, trivial, rfl⟩
  | cons step steps ih =>
    obtain ⟨hvalid, hknown, hfold⟩ := ih h.2
    exact ⟨⟨⟨h.1.parent, h.1.ranks, trivial⟩, hvalid⟩,
      ⟨fun _ hmethod => (nomatch hmethod), hknown⟩, hfold⟩

/-- Sparse and dense groups agree: whatever groups are built by calls of `ompi_group_incl`
with any formats, they are those of the same calls with the dense format, exactly when no
call builds a bitmap at a process that is not in the parent group. -/
theorem sparse_groups_agree (me : P) (bases : List (ProcGroup P)) (steps : List InclStep)
    (hvalid : Along memberStep ValidStep (ProcGroup.empty :: bases) steps) :
    ∃ ds, inclGroups (initialGroups me bases) (steps.map InclStep.plist) = some ds ∧
      ((∃ gs, inclGroups (initialGroups me bases) steps = some gs ∧ SameGroups gs ds) ↔
        Along memberStep (StepKnown me) (ProcGroup.empty :: bases) steps) := by
  have hinit := groupsDenote_initial me bases
  obtain ⟨hvalid', hknown', hfold⟩ := along_plist me hvalid
  obtain ⟨ds, hds, hdenotes⟩ := (hinit.inclGroups hvalid').1 hknown'
  rw [hfold] at hdenotes
  obtain ⟨hdefined, hundefined⟩ := hinit.inclGroups hvalid
  refine ⟨ds, hds, fun hsame => ?_, fun hknown => ?_⟩
  · by_contra hunknown
    obtain ⟨gs, hgs, -⟩ := hsame
    rw [hundefined hunknown] at hgs
    cases hgs
  · obtain ⟨gs, hgs, hgsdenotes⟩ := hdefined hknown
    exact ⟨gs, hgs, hgsdenotes.same hdenotes⟩

section Example

def tenProcs : ProcGroup Nat := ⟨range 10, nodup_range⟩

/-- The bitmap is the shortest format for these ranks. -/
def bitmapStep : InclStep := ⟨1, [0, 2, 3, 9], by decide, .bitmap, 0⟩

theorem valid_bitmapStep :
    Along memberStep ValidStep (ProcGroup.empty :: [tenProcs]) [bitmapStep] :=
  ⟨⟨by decide, by decide, by decide⟩, trivial⟩

/-- At the process 3, which is in the group, the groups are the same. -/
theorem sparse_groups_agree_member :
    Along memberStep ValidStep (ProcGroup.empty :: [tenProcs]) [bitmapStep] ∧
      ∃ gs ds, inclGroups (initialGroups 3 [tenProcs]) [bitmapStep] = some gs ∧
        inclGroups (initialGroups 3 [tenProcs]) [bitmapStep.plist] = some ds ∧
          SameGroups gs ds := by
  refine ⟨valid_bitmapStep, ?_⟩
  obtain ⟨ds, hds, hiff⟩ := sparse_groups_agree 3 [tenProcs] [bitmapStep] valid_bitmapStep
  obtain ⟨gs, hgs, hsame⟩ := hiff.2 ⟨fun _ _ => by decide, trivial⟩
  exact ⟨gs, ds, hgs, hds, hsame⟩

/-- At the process 10, which is not, the bitmap has no result: the dense group does not
have the caller, and the translation of its rank shifts by a negative count. -/
theorem bitmap_without_caller :
    Along memberStep ValidStep (ProcGroup.empty :: [tenProcs]) [bitmapStep] ∧
      groupMinloc (groupCalc 10 0 [0, 2, 3, 9]) = .bitmap ∧
      inclGroups (initialGroups 10 [tenProcs]) [bitmapStep] = none ∧
      (inclGroups (initialGroups 10 [tenProcs]) [bitmapStep.plist]).map
        (fun ds => ds.map Group.myRank) =
        some [mpiUndefined, mpiUndefined, mpiUndefined] := by
  refine ⟨valid_bitmapStep, ?_, ?_, ?_⟩
  · decide
  · decide
  · decide

end Example

end Ulfm
