import Ulfm.Cid.Redux
import Ulfm.Failure.Notification

/-!
# Reserving and releasing slots

The slots of one process. As long as at most one call is in the middle of a round,
the array `cid_lCIDs` is that call's own, and every slot that is taken belongs to a
live communicator or is a candidate of the call.
-/

namespace Ulfm

open List Function FtProcess Option Nat

namespace Cid

section Slots

variable {comm : ℕ} {epochs : ℕ → ℕ} {table : List (Option ℕ)}

theorem slot_setSlot (table : List (Option ℕ)) (i j : ℕ) (v : Option ℕ) :
    slot (FtProcess.setSlot table i v) j = if j = i then v else slot table j :=
  FtProcess.slot_setSlot table i j v

theorem slot_release (table : List (Option ℕ)) (elems : List Elem) (j : ℕ) :
    slot (release table elems) j = if j ∈ elems.map (·.cid) then none else slot table j := by
  induction elems generalizing table with
  | nil => rfl
  | cons e elems ih =>
    have hcons : release table (e :: elems) = release (setSlot table e.cid none) elems := rfl
    rw [hcons, ih, slot_setSlot]
    by_cases hj : j = e.cid
    · simp [hj]
    · simp [hj]

/-- What the reservation of candidates does. -/
structure Reserved (comm : ℕ) (epochs : ℕ → ℕ) (table : List (Option ℕ))
    (result : List (Option ℕ) × List Elem × ℕ) : Prop where
  nodup : (result.2.1.map (·.cid)).Nodup
  free : ∀ e ∈ result.2.1, slot table e.cid = none
  epoch : ∀ e ∈ result.2.1, e.epoch = epochs e.cid
  other : ∀ j ∉ result.2.1.map (·.cid), slot result.1 j = slot table j

theorem reserve_ge (comm : ℕ) (epochs : ℕ → ℕ) (rounds i need : ℕ) (table : List (Option ℕ)) :
    ∀ e ∈ (reserve comm epochs rounds i need table).2.1, i ≤ e.cid := by
  induction rounds generalizing i need table with
  | zero => simp [reserve]
  | succ rounds ih =>
    intro e he
    rw [reserve] at he
    cases hslot : slot table i with
    | some c =>
      rw [hslot] at he
      exact (le_succ i).trans (ih _ _ _ e he)
    | none =>
      rw [hslot] at he
      simp only at he
      split_ifs at he
      · rw [mem_singleton.mp he]
      · rcases mem_cons.mp he with rfl | he
        · exact le_rfl
        · exact (le_succ i).trans (ih _ _ _ e he)

theorem reserved_reserve (comm : ℕ) (epochs : ℕ → ℕ) (rounds i need : ℕ) (table : List (Option ℕ)) :
    Reserved comm epochs table (reserve comm epochs rounds i need table) := by
  induction rounds generalizing i need table with
  | zero => exact ⟨nodup_nil, by simp [reserve], by simp [reserve], fun _ _ => rfl⟩
  | succ rounds ih =>
    rw [reserve]
    cases hslot : slot table i with
    | some c => exact ih (i + 1) need table
    | none =>
      simp only
      split_ifs with hneed
      · refine ⟨nodup_singleton i, ?_, ?_, fun j hj => ?_⟩
        · intro e he
          rw [mem_singleton.mp he]
          exact hslot
        · intro e he
          rw [mem_singleton.mp he]
        · rw [slot_setSlot, if_neg (by simpa using hj)]
      · have hrest := ih (i + 1) (need - 1) (setSlot table i (some comm))
        have hge := reserve_ge comm epochs rounds (i + 1) (need - 1)
          (setSlot table i (some comm))
        refine ⟨nodup_cons.mpr ⟨fun hmem => ?_, hrest.nodup⟩, ?_, ?_, fun j hj => ?_⟩
        · obtain ⟨e, he, hcid⟩ := mem_map.mp hmem
          have hle := hge e he
          have hcid' : e.cid = i := hcid
          omega
        · intro e he
          rcases mem_cons.mp he with rfl | he
          · exact hslot
          · have hfree := hrest.free e he
            have hle := hge e he
            rwa [slot_setSlot, if_neg (by omega)] at hfree
        · intro e he
          rcases mem_cons.mp he with rfl | he
          · rfl
          · exact hrest.epoch e he
        · rw [map_cons, mem_cons, not_or] at hj
          rw [hrest.other j hj.2, slot_setSlot, if_neg hj.1]

end Slots

section Invariant

variable {G : Type}

/-- The call of a phase in which one is in progress. -/
def Phase.call? : Phase → Option Call
  | .waiting call _ _ | .entered call _ | .sent call _ | .reduced call _ _ => some call
  | .idle | .done _ _ => none

/-- The candidates of the round that a process is in the middle of. -/
structure OwnCandidates (s : Proc G) : Prop where
  nodup : s.lCIDs.cids.Nodup
  unused : ∀ i ∈ s.lCIDs.cids, ∀ c, s.contextId c ≠ some i
  epoch : ∀ e ∈ s.lCIDs.avail, e.epoch = s.epochs e.cid ∧ e.epoch < 2 ^ 32 - 1

structure ProcInv (s : Proc G) : Prop where
  live : ∀ c i, s.contextId c = some i → slot s.table i = some c
  taken : ∀ i c, slot s.table i = some c → s.contextId c = some i ∨
    i ∈ s.lCIDs.cids ∧ ∃ g, (s.calls g).midRound
  candidates : ∀ g, (s.calls g).midRound → OwnCandidates s
  exclusive : ∀ g g', (s.calls g).midRound → (s.calls g').midRound → g = g'
  newcomm : ∀ g call, (s.calls g).call? = some call →
    s.contextId call.newcomm = none ∧ call.newcomm < s.nextAddress
  newcomm_inj : ∀ g g' call call', (s.calls g).call? = some call →
    (s.calls g').call? = some call' → call.newcomm = call'.newcomm → g = g'
  address : ∀ c i, s.contextId c = some i → c < s.nextAddress
  granted_le : ∀ e ∈ s.granted, e.epoch ≤ s.epochs e.cid
  increasing : s.granted.Pairwise fun later earlier =>
    later.cid = earlier.cid → earlier.epoch < later.epoch

variable {s : Proc G} {g : G}

theorem ProcInv.slot_none (h : ProcInv s) {i : ℕ} (hnone : slot s.table i = none) (c : ℕ) :
    s.contextId c ≠ some i := by
  intro hc
  rw [h.live c i hc] at hnone
  cases hnone

theorem ProcInv.setGCIDs (h : ProcInv s) (result : CidArray) :
    ProcInv { s with gCIDs := result } where
  live := h.live
  taken := h.taken
  candidates g hg :=
    ⟨(h.candidates g hg).nodup, (h.candidates g hg).unused, (h.candidates g hg).epoch⟩
  exclusive := h.exclusive
  newcomm := h.newcomm
  newcomm_inj := h.newcomm_inj
  address := h.address
  granted_le := h.granted_le
  increasing := h.increasing

theorem ProcInv.free (h : ProcInv s) (comm : ℕ) : ProcInv (s.free comm) := by
  rw [Proc.free]
  cases hcid : s.contextId comm with
  | none => exact h
  | some cid =>
    have hkeep : ∀ c i, Function.update s.contextId comm none c = some i ↔
        c ≠ comm ∧ s.contextId c = some i := by
      intro c i
      by_cases hc : c = comm
      · simp [hc]
      · simp [hc]
    refine ⟨?_, ?_, ?_, h.exclusive, ?_, h.newcomm_inj, ?_, h.granted_le, h.increasing⟩
    · intro c i hc
      obtain ⟨hne, hc⟩ := (hkeep c i).mp hc
      have hslot := h.live c i hc
      rw [slot_setSlot, if_neg, hslot]
      rintro rfl
      rw [h.live comm i hcid] at hslot
      exact hne (Option.some.inj hslot).symm
    · intro i c hslot
      rw [slot_setSlot] at hslot
      split_ifs at hslot with hi
      rcases h.taken i c hslot with hc | hmid
      · refine .inl ((hkeep c i).mpr ⟨?_, hc⟩)
        rintro rfl
        exact hi (Option.some.inj (hc.symm.trans hcid))
      · exact .inr hmid
    · intro g hg
      refine ⟨(h.candidates g hg).nodup, fun i hi c hc => ?_, (h.candidates g hg).epoch⟩
      exact (h.candidates g hg).unused i hi c ((hkeep c i).mp hc).2
    · intro g call hg
      obtain ⟨hnone, hlt⟩ := h.newcomm g call hg
      refine ⟨?_, hlt⟩
      by_contra hsome
      obtain ⟨i, hi⟩ := ne_none_iff_exists'.mp hsome
      rw [((hkeep _ i).mp hi).2] at hnone
      cases hnone
    · exact fun c i hc => h.address c i ((hkeep c i).mp hc).2

variable [DecidableEq G]

theorem calls_setCall (s : Proc G) (g g' : G) (phase : Phase) :
    (s.setCall g phase).calls g' = if g' = g then phase else s.calls g' :=
  update_apply s.calls g phase g'

theorem ProcInv.setCall (h : ProcInv s) {phase : Phase}
    (hmid : phase.midRound = (s.calls g).midRound) (hcall : phase.call? = (s.calls g).call?) :
    ProcInv (s.setCall g phase) := by
  have hmid' : ∀ g', ((s.setCall g phase).calls g').midRound = (s.calls g').midRound := by
    intro g'
    rw [calls_setCall]
    split_ifs with hg
    · rw [hg, hmid]
    · rfl
  have hcall' : ∀ g', ((s.setCall g phase).calls g').call? = (s.calls g').call? := by
    intro g'
    rw [calls_setCall]
    split_ifs with hg
    · rw [hg, hcall]
    · rfl
  refine ⟨h.live, ?_, ?_, ?_, ?_, ?_, h.address, h.granted_le, h.increasing⟩
  · intro i c hslot
    simp only [hmid']
    exact h.taken i c hslot
  · intro g' hg'
    rw [hmid'] at hg'
    exact ⟨(h.candidates g' hg').nodup, (h.candidates g' hg').unused, (h.candidates g' hg').epoch⟩
  · intro g' g'' hg' hg''
    rw [hmid'] at hg' hg''
    exact h.exclusive g' g'' hg' hg''
  · intro g' call hg'
    rw [hcall'] at hg'
    exact h.newcomm g' call hg'
  · intro g' g'' call call' hg' hg''
    rw [hcall'] at hg' hg''
    exact h.newcomm_inj g' g'' call call' hg' hg''

theorem ProcInv.beginCall (h : ProcInv s) (g : G) (comm : ℕ) : ProcInv (s.beginCall g comm) := by
  rw [Proc.beginCall]
  split
  swap
  · exact h
  rename_i cid hidle hcid
  split
  · exact h
  rename_i registered _
  have hfresh : s.contextId s.nextAddress = none := by
    by_contra hsome
    obtain ⟨i, hi⟩ := ne_none_iff_exists'.mp hsome
    exact Nat.lt_irrefl _ (h.address _ i hi)
  have hmid : ∀ g' phase,
      phase = (.waiting ⟨comm, cid, s.nextAddress⟩ (highestTaken s.table + 1) 0) →
      (if g' = g then phase else s.calls g').midRound = (s.calls g').midRound := by
    rintro g' _ rfl
    split_ifs with hg
    · rw [hg, hidle]
      rfl
    · rfl
  refine ⟨h.live, ?_, ?_, ?_, ?_, ?_, ?_, h.granted_le, h.increasing⟩
  · intro i c hslot
    simp only [calls_setCall, hmid _ _ rfl]
    exact h.taken i c hslot
  · intro g' hg'
    rw [calls_setCall, hmid _ _ rfl] at hg'
    exact ⟨(h.candidates g' hg').nodup, (h.candidates g' hg').unused, (h.candidates g' hg').epoch⟩
  · intro g' g'' hg' hg''
    rw [calls_setCall, hmid _ _ rfl] at hg' hg''
    exact h.exclusive g' g'' hg' hg''
  · intro g' call hg'
    rw [calls_setCall] at hg'
    split_ifs at hg'
    · obtain rfl := some.inj hg'
      exact ⟨hfresh, lt_succ_self _⟩
    · obtain ⟨hnone, hlt⟩ := h.newcomm g' call hg'
      exact ⟨hnone, hlt.trans (lt_succ_self _)⟩
  · intro g' g'' call call' hg' hg'' heq
    rw [calls_setCall] at hg' hg''
    split_ifs at hg' hg'' with h' h'' h''
    · exact h'.trans h''.symm
    · obtain rfl := some.inj hg'
      exact absurd heq.symm (h.newcomm g'' call' hg'').2.ne
    · obtain rfl := some.inj hg''
      exact absurd heq (h.newcomm g' call hg').2.ne
    · exact h.newcomm_inj g' g'' call call' hg' hg'' heq
  · exact fun c i hc => (h.address c i hc).trans (lt_succ_self _)

theorem ProcInv.enter (h : ProcInv s) (hexcl : ∀ g', ¬ (s.calls g').midRound)
    (hepochs : ∀ i, s.epochs i < 2 ^ 32 - 1) (reduxSize maxContextid : ℕ) (g : G) :
    ProcInv (s.enter reduxSize maxContextid g) := by
  rw [Proc.enter]
  split
  swap
  · exact h
  rename_i call start round hwait
  split_ifs
  swap
  · exact h
  have hres := reserved_reserve call.comm s.epochs (maxContextid - start) start (reduxSize - 1)
    s.table
  generalize reserve call.comm s.epochs (maxContextid - start) start (reduxSize - 1) s.table =
    result at hres ⊢
  have hmid : ∀ g', (if g' = g then Phase.entered call round else s.calls g').midRound →
      g' = g := by
    intro g' hg'
    split_ifs at hg' with heq
    · exact heq
    · exact absurd hg' (hexcl g')
  have hcall : ∀ g', (if g' = g then Phase.entered call round else s.calls g').call? =
      (s.calls g').call? := by
    intro g'
    split_ifs with heq
    · rw [heq, hwait]
      rfl
    · rfl
  refine ⟨?_, ?_, ?_, ?_, ?_, ?_, h.address, h.granted_le, h.increasing⟩
  · intro c i hc
    have hslot := h.live c i hc
    refine (hres.other i fun hmem => ?_).trans hslot
    obtain ⟨e, he, rfl⟩ := mem_map.mp hmem
    rw [hres.free e he] at hslot
    cases hslot
  · intro i c hslot
    by_cases hmem : i ∈ result.2.1.map (·.cid)
    · exact .inr ⟨hmem, g, by rw [calls_setCall, if_pos rfl]; rfl⟩
    · rcases h.taken i c ((hres.other i hmem).symm.trans hslot) with hc | ⟨-, g', hg'⟩
      · exact .inl hc
      · exact absurd hg' (hexcl g')
  · intro g' _
    refine ⟨hres.nodup, ?_, fun e he => ?_⟩
    · intro i hi
      obtain ⟨e, he, rfl⟩ := mem_map.mp hi
      exact h.slot_none (hres.free e he)
    · rw [hres.epoch e he]
      exact ⟨rfl, hepochs e.cid⟩
  · intro g' g'' hg' hg''
    rw [calls_setCall] at hg' hg''
    exact (hmid g' hg').trans (hmid g'' hg'').symm
  · intro g' call' hg'
    rw [calls_setCall, hcall] at hg'
    exact h.newcomm g' call' hg'
  · intro g' g'' call' call'' hg' hg''
    rw [calls_setCall, hcall] at hg' hg''
    exact h.newcomm_inj g' g'' call' call'' hg' hg''

section Finish

variable {call : Call} {round : ℕ} {ok : Bool}

theorem ProcInv.release (h : ProcInv s) (hred : s.calls g = .reduced call round ok)
    {phase : Phase} (hmid : phase.midRound = false)
    (hcall : phase.call? = none ∨ phase.call? = some call) (registered : List ℕ) :
    ProcInv ({ s with
      table := Cid.release s.table s.lCIDs.avail
      registered := registered }.setCall g phase) := by
  have hg : (s.calls g).midRound := by rw [hred]; rfl
  have hown := h.candidates g hg
  have hnone : ∀ g', ¬ (if g' = g then phase else s.calls g').midRound := by
    intro g' hg'
    split_ifs at hg' with heq
    · rw [hmid] at hg'
      cases hg'
    · exact heq (h.exclusive g' g hg' hg)
  have hcalls : ∀ g' call', (if g' = g then phase else s.calls g').call? = some call' →
      (s.calls g').call? = some call' := by
    intro g' call' hg'
    split_ifs at hg' with heq
    · rcases hcall with hcall | hcall
      · rw [hcall] at hg'
        cases hg'
      · rw [heq, hred]
        exact hcall.symm.trans hg'
    · exact hg'
  refine ⟨?_, ?_, ?_, ?_, ?_, ?_, h.address, h.granted_le, h.increasing⟩
  · intro c i hc
    refine (slot_release s.table _ i).trans ?_
    refine (if_neg fun hi => hown.unused i hi c hc).trans ?_
    exact h.live c i hc
  · intro i c hslot
    have hslot' := (slot_release s.table s.lCIDs.avail i).symm.trans hslot
    split_ifs at hslot' with hi
    exact .inl ((h.taken i c hslot').resolve_right fun hcand => hi hcand.1)
  · intro g' hg'
    rw [calls_setCall] at hg'
    exact absurd hg' (hnone g')
  · intro g' g'' hg' _
    rw [calls_setCall] at hg'
    exact absurd hg' (hnone g')
  · intro g' call' hg'
    rw [calls_setCall] at hg'
    exact h.newcomm g' call' (hcalls g' call' hg')
  · intro g' g'' call' call'' hg' hg''
    rw [calls_setCall] at hg' hg''
    exact h.newcomm_inj g' g'' call' call'' (hcalls g' call' hg') (hcalls g'' call'' hg'')

theorem ProcInv.grant (h : ProcInv s) (hred : s.calls g = .reduced call round ok)
    {cid epoch : ℕ} (hcid : cid ∈ s.lCIDs.cids) (hepoch : s.epochs cid < epoch)
    (registered : List ℕ) :
    ProcInv ({ s with
      table := FtProcess.setSlot (Cid.release s.table (s.lCIDs.avail.filter (·.cid ≠ cid))) cid
        (some call.newcomm)
      contextId := update s.contextId call.newcomm (some cid)
      epochs := update s.epochs cid epoch
      registered := registered
      granted := ⟨cid, epoch⟩ :: s.granted }.setCall g (.done round (some ⟨cid, epoch⟩))) := by
  have hg : (s.calls g).midRound := by rw [hred]; rfl
  have hown := h.candidates g hg
  have hcallg : (s.calls g).call? = some call := by rw [hred]; rfl
  obtain ⟨hnew, hnewlt⟩ := h.newcomm g call hcallg
  have hnone : ∀ g', ¬ (if g' = g then Phase.done round (some ⟨cid, epoch⟩)
      else s.calls g').midRound := by
    intro g' hg'
    split_ifs at hg' with heq
    · cases hg'
    · exact heq (h.exclusive g' g hg' hg)
  have hcalls : ∀ g' call', (if g' = g then Phase.done round (some ⟨cid, epoch⟩)
      else s.calls g').call? = some call' → g' ≠ g ∧ (s.calls g').call? = some call' := by
    intro g' call' hg'
    split_ifs at hg' with heq
    · cases hg'
    · exact ⟨heq, hg'⟩
  have hslots : ∀ i, slot (setSlot
      (Cid.release s.table (s.lCIDs.avail.filter (·.cid ≠ cid))) cid (some call.newcomm)) i =
      if i = cid then some call.newcomm else if i ∈ s.lCIDs.cids then none
        else slot s.table i := by
    intro i
    rw [slot_setSlot]
    split_ifs with hi hmem
    · rfl
    · rw [slot_release, if_pos]
      obtain ⟨e, he, rfl⟩ := mem_map.mp hmem
      exact mem_map.mpr ⟨e, mem_filter.mpr ⟨he, by simpa using hi⟩, rfl⟩
    · rw [slot_release, if_neg]
      intro hmem'
      obtain ⟨e, he, rfl⟩ := mem_map.mp hmem'
      exact hmem (mem_map_of_mem (mem_filter.mp he).1)
  refine ⟨?_, ?_, ?_, ?_, ?_, ?_, ?_, ?_, ?_⟩
  · intro c i hc
    refine (hslots i).trans ?_
    by_cases hcn : c = call.newcomm
    · subst hcn
      have hi : cid = i := by simpa [Proc.setCall] using hc
      rw [if_pos hi.symm]
    · have hc' : s.contextId c = some i := by simpa [Proc.setCall, hcn] using hc
      rw [if_neg, if_neg fun hi => hown.unused i hi c hc']
      · exact h.live c i hc'
      · rintro rfl
        exact hown.unused i hcid c hc'
  · intro i c hslot
    have hslot' := (hslots i).symm.trans hslot
    refine .inl ?_
    split_ifs at hslot' with hi hmem
    · obtain rfl := Option.some.inj hslot'
      simp [Proc.setCall, hi]
    · have hc := (h.taken i c hslot').resolve_right fun hcand => hmem hcand.1
      have hcn : c ≠ call.newcomm := by
        rintro rfl
        rw [hnew] at hc
        cases hc
      simpa [Proc.setCall, hcn] using hc
  · intro g' hg'
    rw [calls_setCall] at hg'
    exact absurd hg' (hnone g')
  · intro g' g'' hg' _
    rw [calls_setCall] at hg'
    exact absurd hg' (hnone g')
  · intro g' call' hg'
    rw [calls_setCall] at hg'
    obtain ⟨hne, hg'⟩ := hcalls g' call' hg'
    have hcn : call'.newcomm ≠ call.newcomm :=
      fun heq => hne (h.newcomm_inj g' g call' call hg' hcallg heq)
    simpa [Proc.setCall, hcn] using h.newcomm g' call' hg'
  · intro g' g'' call' call'' hg' hg''
    rw [calls_setCall] at hg' hg''
    exact h.newcomm_inj g' g'' call' call'' (hcalls g' call' hg').2 (hcalls g'' call'' hg'').2
  · intro c i hc
    by_cases hcn : c = call.newcomm
    · rw [hcn]
      exact hnewlt
    · exact h.address c i (by simpa [Proc.setCall, hcn] using hc)
  · intro e he
    rcases mem_cons.mp he with rfl | he
    · simp [Proc.setCall]
    · have hle := h.granted_le e he
      by_cases heq : e.cid = cid
      · rw [heq] at hle
        simpa [Proc.setCall, heq] using hle.trans hepoch.le
      · simpa [Proc.setCall, heq] using hle
  · refine pairwise_cons.mpr ⟨fun e he heq => ?_, h.increasing⟩
    have hcid' : cid = e.cid := heq
    have hle := h.granted_le e he
    rw [← hcid'] at hle
    exact hle.trans_lt hepoch

end Finish

end Invariant

end Cid

end Ulfm
