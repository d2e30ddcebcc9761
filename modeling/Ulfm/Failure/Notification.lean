import Ulfm.Failure.Definitions

/-!
# The scan of a failure notification

`ompi_errmgr_mark_failed_peer` applies a failure to the communicator of every
slot of the table, so a communicator is notified once for each slot it occupies
(`scan_comms`), and the failed process enters the group of all failed processes
when some slot holds a communicator of which it is a member (`scan_group`).
The invariant `Consistent` ties the table to the communicator objects.
-/

namespace Ulfm

open List Function ProcGroup Communicator

variable {P : Type}

namespace Communicator

variable [DecidableEq P]

theorem lookup_isSome (comm : Communicator P) (p : P) : (comm.lookup p).isSome ↔ p ∈ comm := by
  rw [lookup, mem_def]
  cases hl : comm.localGroup.peerLookupId p with
  | some rank =>
    have hmem : p ∈ comm.localGroup := by
      rw [← peerLookupId_isSome, hl]
      rfl
    simp [hmem]
  | none =>
    have hmem : p ∉ comm.localGroup := by rwa [← peerLookupId_eq_none]
    cases hi : comm.isInter with
    | true => simp [hmem, peerLookupId_isSome]
    | false => simp [hmem, comm.remote_eq_local hi]

theorem lookup_eq_none (comm : Communicator P) (p : P) : comm.lookup p = none ↔ p ∉ comm := by
  rw [← lookup_isSome]
  cases comm.lookup p <;> simp

section

variable {comm : Communicator P} {p : P}

theorem lookup_remote {rank : Nat} {remote : Bool} (h : comm.lookup p = some (rank, remote)) :
    (remote = false ∧ p ∈ comm.localGroup) ∨
      (remote = true ∧ p ∉ comm.localGroup ∧ comm.isInter = true ∧ p ∈ comm.remoteGroup) := by
  rw [lookup] at h
  cases hl : comm.localGroup.peerLookupId p with
  | some r =>
    rw [hl] at h
    simp only [Option.some.injEq, Prod.mk.injEq] at h
    refine .inl ⟨h.2.symm, ?_⟩
    rw [← peerLookupId_isSome, hl]
    rfl
  | none =>
    rw [hl] at h
    simp only at h
    split at h
    · rename_i hi
      obtain ⟨r, hr, heq⟩ := Option.map_eq_some_iff.mp h
      simp only [Prod.mk.injEq] at heq
      refine .inr ⟨heq.2.symm, by rwa [← peerLookupId_eq_none], hi, ?_⟩
      rw [← peerLookupId_isSome, hr]
      rfl
    · cases h

theorem notify_of_not_mem (h : p ∉ comm) : comm.notify p = comm := by
  rw [notify, (lookup_eq_none comm p).mpr h]

theorem notify_of_mem_local (h : p ∈ comm.localGroup) :
    comm.notify p = comm.setRankFailed false := by
  cases hl : comm.lookup p with
  | none => exact absurd (.inl h) ((lookup_eq_none comm p).mp hl)
  | some found =>
    obtain ⟨rank, remote⟩ := found
    rcases lookup_remote hl with ⟨rfl, -⟩ | ⟨-, hn, -⟩
    · rw [notify, hl]
    · exact absurd h hn

theorem notify_of_mem_remote (hl : p ∉ comm.localGroup)
    (hr : p ∈ comm.remoteGroup) : comm.notify p = comm.setRankFailed true := by
  cases h : comm.lookup p with
  | none => exact absurd (.inr hr) ((lookup_eq_none comm p).mp h)
  | some found =>
    obtain ⟨rank, remote⟩ := found
    rcases lookup_remote h with ⟨-, hmem⟩ | ⟨rfl, -⟩
    · exact absurd hmem hl
    · rw [notify, h]

end

section Frame

variable (comm : Communicator P) (p : P)

@[simp] theorem notify_groups : (comm.notify p).toCommGroups = comm.toCommGroups := by
  rw [notify]
  split <;> rfl

@[simp] theorem notify_contextId : (comm.notify p).contextId = comm.contextId := by
  rw [notify]
  split <;> rfl

@[simp] theorem notify_allocated : (comm.notify p).allocated = comm.allocated := by
  rw [notify]
  split <;> rfl

@[simp] theorem notify_anySourceOffset :
    (comm.notify p).anySourceOffset = comm.anySourceOffset := by
  rw [notify]
  split <;> rfl

end Frame

/-- A communicator after the notifications of one failure through `n` slots. -/
def notifyTimes (comm : Communicator P) (p : P) (n : Nat) : Communicator P :=
  (fun k => k.notify p)^[n] comm

@[simp] theorem notifyTimes_zero (comm : Communicator P) (p : P) : comm.notifyTimes p 0 = comm :=
  rfl

theorem notifyTimes_succ (comm : Communicator P) (p : P) (n : Nat) :
    comm.notifyTimes p (n + 1) = (comm.notify p).notifyTimes p n := rfl

section Frame

variable (comm : Communicator P) (p : P) (n : Nat)

theorem notifyTimes_congr {α : Type*} {f : Communicator P → α}
    (h : ∀ comm, f (comm.notify p) = f comm) : f (comm.notifyTimes p n) = f comm := by
  induction n generalizing comm with
  | zero => rfl
  | succ n ih => rw [notifyTimes_succ, ih, h]

@[simp] theorem notifyTimes_groups : (comm.notifyTimes p n).toCommGroups = comm.toCommGroups :=
  notifyTimes_congr comm p n fun comm => notify_groups comm p

@[simp] theorem notifyTimes_contextId : (comm.notifyTimes p n).contextId = comm.contextId :=
  notifyTimes_congr comm p n fun comm => notify_contextId comm p

@[simp] theorem notifyTimes_allocated : (comm.notifyTimes p n).allocated = comm.allocated :=
  notifyTimes_congr comm p n fun comm => notify_allocated comm p

@[simp] theorem notifyTimes_anySourceOffset :
    (comm.notifyTimes p n).anySourceOffset = comm.anySourceOffset :=
  notifyTimes_congr comm p n fun comm => notify_anySourceOffset comm p

end Frame

section

variable {comm : Communicator P}

theorem notifyTimes_of_not_mem {p : P} (h : p ∉ comm) (n : Nat) : comm.notifyTimes p n = comm := by
  induction n with
  | zero => rfl
  | succ n ih => rw [notifyTimes_succ, notify_of_not_mem h, ih]

theorem notifyTimes_local {p : P} (h : p ∈ comm.localGroup) (n : Nat) :
    (comm.notifyTimes p n).numActiveLocal = comm.numActiveLocal - n ∧
      (comm.notifyTimes p n).numActiveRemote = comm.numActiveRemote := by
  induction n generalizing comm with
  | zero => simp
  | succ n ih =>
    have hgroups := notify_groups comm p
    have hmem : p ∈ (comm.notify p).localGroup := by rw [hgroups]; exact h
    obtain ⟨hlocal, hremote⟩ := ih hmem
    rw [notifyTimes_succ, hlocal, hremote, notify_of_mem_local h]
    refine ⟨?_, rfl⟩
    change comm.numActiveLocal - 1 - n = _
    omega

theorem notifyTimes_remote {p : P} (hl : p ∉ comm.localGroup)
    (hr : p ∈ comm.remoteGroup) (n : Nat) :
    (comm.notifyTimes p n).numActiveLocal = comm.numActiveLocal ∧
      (comm.notifyTimes p n).numActiveRemote = comm.numActiveRemote - n := by
  induction n generalizing comm with
  | zero => simp
  | succ n ih =>
    have hgroups := notify_groups comm p
    have hl' : p ∉ (comm.notify p).localGroup := by rw [hgroups]; exact hl
    have hr' : p ∈ (comm.notify p).remoteGroup := by rw [hgroups]; exact hr
    obtain ⟨hlocal, hremote⟩ := ih hl' hr'
    rw [notifyTimes_succ, hlocal, hremote, notify_of_mem_remote hl hr]
    refine ⟨rfl, ?_⟩
    change comm.numActiveRemote - 1 - n = _
    omega

theorem mem_failedGroup {p q : P} {group : ProcGroup P}
    (h : comm.failedGroup p = some group) : q ∈ group ↔ q = p := by
  obtain ⟨⟨rank, remote⟩, hl, rfl⟩ := Option.map_eq_some_iff.mp h
  have hfound : (if remote then comm.remoteGroup else comm.localGroup).peerLookup rank =
      some p := by
    rw [lookup] at hl
    cases hloc : comm.localGroup.peerLookupId p with
    | some r =>
      rw [hloc] at hl
      simp only [Option.some.injEq, Prod.mk.injEq] at hl
      rw [← hl.1, ← hl.2]
      exact peerLookup_of_peerLookupId hloc
    | none =>
      rw [hloc] at hl
      simp only at hl
      split at hl
      · obtain ⟨r, hr, heq⟩ := Option.map_eq_some_iff.mp hl
        simp only [Prod.mk.injEq] at heq
        rw [← heq.1, ← heq.2]
        exact peerLookup_of_peerLookupId hr
      · cases hl
  simp [mem_inclPlist, hfound, eq_comm]

end

theorem failedGroup_isSome (comm : Communicator P) (p : P) :
    (comm.failedGroup p).isSome ↔ p ∈ comm := by
  rw [failedGroup, Option.isSome_map, lookup_isSome]

end Communicator

namespace FtProcess

section Table

theorem slot_setSlot (table : List (Option Nat)) (i j : Nat) (v : Option Nat) :
    (setSlot table i v)[j]?.join = if j = i then v else table[j]?.join := by
  have hlen : i < (table ++ replicate (i + 1 - table.length) none).length := by
    simp only [length_append, length_replicate]
    omega
  rw [setSlot, getElem?_set]
  by_cases hij : i = j
  · subst hij
    rw [if_pos rfl, if_pos hlen, if_pos rfl]
    rfl
  · have hji : ¬ j = i := fun h => hij h.symm
    simp only [hij, hji, if_false]
    by_cases hj : j < table.length
    · rw [getElem?_append_left hj]
    · rw [getElem?_append_right (not_lt.mp hj), getElem?_eq_none (not_lt.mp hj), getElem?_replicate]
      split <;> rfl

theorem mem_table_iff {w : FtProcess P} {c : Nat} : some c ∈ w.table ↔ ∃ i, w.slot i = some c := by
  rw [mem_iff_getElem?]
  simp only [slot, Option.join_eq_some_iff]

theorem count_setSlot (table : List (Option Nat)) (i c : Nat) (v : Option Nat) :
    (setSlot table i v).count (some c) + (if table[i]?.join = some c then 1 else 0) =
      table.count (some c) + (if v = some c then 1 else 0) := by
  have hlen : i < (table ++ replicate (i + 1 - table.length) none).length := by
    simp only [length_append, length_replicate]
    omega
  have hcount : (table ++ replicate (i + 1 - table.length) none).count (some c) =
      table.count (some c) := by
    simp [count_append, count_replicate]
  have hold : ((table ++ replicate (i + 1 - table.length) none)[i] == some c) =
      decide (table[i]?.join = some c) := by
    by_cases hi : i < table.length
    · rw [getElem_append_left hi, getElem?_eq_getElem hi, Option.join_some]
      exact beq_eq_decide _ _
    · rw [getElem_append_right (not_lt.mp hi), getElem?_eq_none (not_lt.mp hi)]
      simp
  rw [setSlot, count_set hlen, hcount, hold]
  by_cases hin : table[i]?.join = some c
  · have hpos : 0 < table.count (some c) := by
      rw [count_pos_iff, mem_iff_getElem?]
      exact ⟨i, Option.join_eq_some_iff.mp hin⟩
    simp only [hin, decide_true, if_true, beq_iff_eq]
    omega
  · simp only [hin, decide_false, Bool.false_eq_true, if_false, beq_iff_eq]
    omega

end Table

section Scan

variable [DecidableEq P] (p : P)

theorem scan_comms (table : List (Option Nat)) (comms : Nat → Option (Communicator P))
    (group : Option (ProcGroup P)) (c : Nat) :
    (table.foldl (scanSlot p) (comms, group)).1 c =
      (comms c).map fun comm => comm.notifyTimes p (table.count (some c)) := by
  induction table generalizing comms group with
  | nil =>
    change comms c = _
    cases comms c <;> rfl
  | cons entry table ih =>
    rw [foldl_cons]
    cases entry with
    | none => rw [scanSlot, ih, count_cons_of_ne (by simp)]
    | some d =>
      cases hd : comms d with
      | none =>
        simp only [scanSlot, hd]
        rw [ih]
        by_cases hcd : d = c
        · subst hcd
          simp [hd]
        · rw [count_cons_of_ne (by simpa using hcd)]
      | some comm =>
        simp only [scanSlot, hd]
        rw [ih]
        by_cases hcd : d = c
        · subst hcd
          rw [update_self, hd, count_cons_self]
          rfl
        · have hne : c ≠ d := fun h => hcd h.symm
          rw [update_of_ne hne, count_cons_of_ne (by simpa using hcd)]

/-- Some slot of the table holds a communicator with the process as a member. -/
def Tabled (w : FtProcess P) (p : P) : Prop :=
  ∃ c comm, some c ∈ w.table ∧ w.comms c = some comm ∧ p ∈ comm

section

variable (table : List (Option Nat)) (comms : Nat → Option (Communicator P))
  (group : Option (ProcGroup P))
include table comms group

theorem scan_group_isSome : (table.foldl (scanSlot p) (comms, group)).2.isSome ↔
      group.isSome ∨ ∃ c comm, some c ∈ table ∧ comms c = some comm ∧ p ∈ comm := by
  induction table generalizing comms group with
  | nil => simp
  | cons entry table ih =>
    rw [foldl_cons]
    cases entry with
    | none =>
      simp only [scanSlot]
      rw [ih]
      simp
    | some d =>
      cases hd : comms d with
      | none =>
        simp only [scanSlot, hd]
        rw [ih]
        refine or_congr_right ⟨?_, ?_⟩
        · rintro ⟨c, comm, hc, hcomm, hp⟩
          exact ⟨c, comm, mem_cons_of_mem _ hc, hcomm, hp⟩
        · rintro ⟨c, comm, hc, hcomm, hp⟩
          rcases mem_cons.mp hc with heq | hmem
          · rw [Option.some.inj heq, hd] at hcomm
            cases hcomm
          · exact ⟨c, comm, hmem, hcomm, hp⟩
      | some k =>
        simp only [scanSlot, hd]
        rw [ih, Option.isSome_or, Bool.or_eq_true, failedGroup_isSome, or_assoc]
        refine or_congr_right ⟨?_, ?_⟩
        · rintro (hp | ⟨c, comm, hc, hcomm, hp⟩)
          · exact ⟨d, k, mem_cons_self, hd, hp⟩
          · by_cases hcd : c = d
            · subst hcd
              rw [update_self] at hcomm
              cases hcomm
              rw [Communicator.mem_def, notify_groups] at hp
              exact ⟨c, k, mem_cons_self, hd, hp⟩
            · rw [update_of_ne hcd] at hcomm
              exact ⟨c, comm, mem_cons_of_mem _ hc, hcomm, hp⟩
        · rintro ⟨c, comm, hc, hcomm, hp⟩
          by_cases hcd : c = d
          · subst hcd
            rw [hd] at hcomm
            cases hcomm
            exact .inl hp
          · rcases mem_cons.mp hc with heq | hmem
            · exact absurd (Option.some.inj heq) hcd
            · refine .inr ⟨c, comm, hmem, ?_, hp⟩
              rw [update_of_ne hcd, hcomm]

theorem scan_group_mem (hgroup : ∀ g, group = some g → ∀ q, q ∈ g ↔ q = p) :
    ∀ g, (table.foldl (scanSlot p) (comms, group)).2 = some g → ∀ q, q ∈ g ↔ q = p := by
  induction table generalizing comms group with
  | nil => exact hgroup
  | cons entry table ih =>
    rw [foldl_cons]
    cases entry with
    | none => exact ih comms group hgroup
    | some d =>
      cases hd : comms d with
      | none =>
        simp only [scanSlot, hd]
        exact ih comms group hgroup
      | some k =>
        simp only [scanSlot, hd]
        refine ih _ _ ?_
        intro g hg q
        rcases Option.or_eq_some_iff.mp hg with hfirst | ⟨-, hthen⟩
        · exact hgroup g hfirst q
        · exact mem_failedGroup hthen

end

end Scan

section MarkFailed

variable [DecidableEq P] {w : FtProcess P} {p : P}

theorem markFailedPeer_of_inactive (h : w.active p = false) : w.markFailedPeer p = w := by
  rw [markFailedPeer, h]
  rfl

theorem markFailedPeer_active (h : w.active p = true) :
    (w.markFailedPeer p).active = update w.active p false := by
  rw [markFailedPeer, if_pos h]

@[simp] theorem markFailedPeer_table : (w.markFailedPeer p).table = w.table := by
  rw [markFailedPeer]
  split <;> rfl

theorem markFailedPeer_comms (h : w.active p = true) (c : Nat) : (w.markFailedPeer p).comms c =
      (w.comms c).map fun comm => comm.notifyTimes p (w.table.count (some c)) := by
  rw [markFailedPeer, if_pos h]
  exact scan_comms p w.table w.comms none c

theorem markFailedPeer_allFailed (h : w.active p = true) (hnew : p ∉ w.allFailed)
    (ht : w.Tabled p) :
    (w.markFailedPeer p).allFailed.procs = w.allFailed.procs ++ [p] := by
  obtain ⟨g, hg⟩ := Option.isSome_iff_exists.mp
    ((scan_group_isSome p w.table w.comms none).mpr (.inr ht))
  have hmem := scan_group_mem p w.table w.comms none (fun _ hnone => nomatch hnone) g hg
  have hprocs : g.procs = [p] := by
    refine perm_singleton.mp ((perm_ext_iff_of_nodup g.nodup
      (nodup_singleton p)).mpr fun q => ?_)
    rw [mem_singleton]
    exact hmem q
  rw [markFailedPeer, if_pos h]
  simp only [hg]
  rw [procs_union, hprocs, filter_singleton]
  have hnot : p ∉ w.allFailed.procs := hnew
  simp [hnot]

theorem markFailedPeer_allFailed_of_not_tabled (h : w.active p = true) (ht : ¬ w.Tabled p) :
    (w.markFailedPeer p).allFailed = w.allFailed := by
  have hnone : (w.table.foldl (scanSlot p) (w.comms, none)).2 = none := by
    rw [← Option.not_isSome_iff_eq_none, scan_group_isSome]
    rintro (hsome | hfound)
    · cases hsome
    · exact ht hfound
  rw [markFailedPeer, if_pos h]
  simp only [hnone]

end MarkFailed

/-! ## What one operation does -/

section Steps

variable [DecidableEq P]

/-- The operations as a relation, one constructor for each of them. -/
inductive Stepped (w : FtProcess P) : FtAction P → FtProcess P → Prop where
  | commSet {c : Nat} {groups : CommGroups P} (hnew : w.comms c = none) :
      Stepped w (.commSet c groups) { w with
        comms := update w.comms c (some (.new groups groups.localGroup.size)) }
  | topoCreate {c parent : Nat} {topo : ProcGroup P} {comm : Communicator P}
      (hnew : w.comms c = none) (hparent : w.comms parent = some comm)
      (hsub : topo.procs ⊆ comm.localGroup.procs) :
      Stepped w (.topoCreate c parent topo) { w with
        comms := update w.comms c (some (.new (.intra topo) comm.localGroup.size)) }
  | reserve {parent i : Nat} {comm : Communicator P} (hparent : w.comms parent = some comm)
      (hid : comm.contextId.isSome) (hfree : w.slot i = none) :
      Stepped w (.reserve parent i) { w with table := setSlot w.table i (some parent) }
  | release {i parent : Nat} {comm : Communicator P} (hslot : w.slot i = some parent)
      (hparent : w.comms parent = some comm) (hother : comm.contextId ≠ some i) :
      Stepped w (.release i) { w with table := setSlot w.table i none }
  | register {c i parent : Nat} {comm pcomm : Communicator P} (hcomm : w.comms c = some comm)
      (hid : comm.contextId = none) (hslot : w.slot i = some parent)
      (hparent : w.comms parent = some pcomm) (hother : pcomm.contextId ≠ some i) :
      Stepped w (.register c i) { w with
        table := setSlot w.table i (some c)
        comms := update w.comms c (some { comm with contextId := some i }) }
  | freePending {c : Nat} {comm : Communicator P} (hcomm : w.comms c = some comm)
      (hid : comm.contextId = none) :
      Stepped w (.free c) { w with comms := update w.comms c none }
  | free {c i : Nat} {comm : Communicator P} (hcomm : w.comms c = some comm)
      (hid : comm.contextId = some i) (hcount : w.table.count (some c) = 1) :
      Stepped w (.free c) { w with
        comms := update w.comms c none
        table := setSlot w.table i none }
  | fail {p : P} : Stepped w (.fail p) (w.markFailedPeer p)
  | ack {c : Nat} {comm : Communicator P} (hcomm : w.comms c = some comm) :
      Stepped w (.ack c) { w with
        comms := update w.comms c (some (comm.failureAck w.allFailed)) }

omit [DecidableEq P] in
theorem reservedBy_eq_some {w : FtProcess P} {i c : Nat} (h : w.reservedBy i = some c) :
    ∃ comm, w.slot i = some c ∧ w.comms c = some comm ∧ comm.contextId ≠ some i := by
  rw [reservedBy] at h
  split at h
  · cases h
  · rename_i d hd
    split at h
    · cases h
    · rename_i comm hcomm
      split at h
      · cases h
      · rename_i hother
        cases h
        exact ⟨comm, hd, hcomm, hother⟩

theorem stepped_of_step {w w' : FtProcess P} {a : FtAction P} (h : w.step a = some w') :
    Stepped w a w' := by
  cases a with
  | commSet c groups =>
    simp only [step] at h
    split at h
    · rename_i hnew
      cases h
      exact .commSet (Option.isNone_iff_eq_none.mp hnew)
    · cases h
  | topoCreate c parent topo =>
    simp only [step] at h
    split at h
    · cases h
    · rename_i comm hparent
      split at h
      · rename_i hcond
        cases h
        exact .topoCreate (Option.isNone_iff_eq_none.mp hcond.1) hparent hcond.2
      · cases h
  | reserve parent i =>
    simp only [step] at h
    split at h
    · cases h
    · rename_i comm hparent
      split at h
      · rename_i hcond
        cases h
        exact .reserve hparent hcond.1 hcond.2
      · cases h
  | release i =>
    simp only [step] at h
    split at h
    · rename_i hres
      cases h
      obtain ⟨c, hc⟩ := Option.isSome_iff_exists.mp hres
      obtain ⟨comm, hslot, hcomm, hother⟩ := reservedBy_eq_some hc
      exact .release hslot hcomm hother
    · cases h
  | register c i =>
    simp only [step] at h
    split at h
    · cases h
    · rename_i comm hcomm
      split at h
      · rename_i hcond
        cases h
        obtain ⟨d, hd⟩ := Option.isSome_iff_exists.mp hcond.2
        obtain ⟨pcomm, hslot, hpcomm, hother⟩ := reservedBy_eq_some hd
        exact .register hcomm hcond.1 hslot hpcomm hother
      · cases h
  | free c =>
    simp only [step] at h
    split at h
    · cases h
    · rename_i comm hcomm
      split at h
      · rename_i hid
        cases h
        exact .freePending hcomm hid
      · rename_i i hid
        split at h
        · rename_i hcount
          cases h
          exact .free hcomm hid hcount
        · cases h
  | fail p =>
    cases h
    exact .fail
  | ack c =>
    simp only [step] at h
    split at h
    · cases h
    · rename_i comm hcomm
      cases h
      exact .ack hcomm

/-! ## Table and objects -/

/-- The table and the communicator objects fit together: a communicator with a
context id stands in its slot, every slot holds a communicator with a context
id, and a communicator without one still has the counters of its creation. -/
structure Consistent (w : FtProcess P) : Prop where
  slot_of_contextId : ∀ {c comm i}, w.comms c = some comm → comm.contextId = some i →
    w.slot i = some c
  comm_of_slot : ∀ {i c}, w.slot i = some c → ∃ comm, w.comms c = some comm ∧ comm.contextId.isSome
  allocated : ∀ {c comm}, w.comms c = some comm → comm.localGroup.size ≤ comm.allocated ∧
    (comm.isInter = true → comm.allocated = comm.localGroup.size)
  pending : ∀ {c comm}, w.comms c = some comm → comm.contextId = none →
    comm.numActiveLocal = comm.allocated ∧
      comm.numActiveRemote = (if comm.isInter then comm.remoteGroup.size else comm.allocated : Nat)

theorem update_eq_some {α : Type} {f : Nat → Option α} {c d : Nat} {v : Option α} {x : α}
    (h : update f c v d = some x) : (d = c ∧ v = some x) ∨ (d ≠ c ∧ f d = some x) := by
  by_cases hd : d = c
  · subst hd
    rw [update_self] at h
    exact .inl ⟨rfl, h⟩
  · rw [update_of_ne hd] at h
    exact .inr ⟨hd, h⟩

omit [DecidableEq P] in
theorem size_le_of_subset {g h : ProcGroup P} (hsub : g.procs ⊆ h.procs) : g.size ≤ h.size :=
  (subperm_of_subset g.nodup hsub).length_le

omit [DecidableEq P] in
theorem Consistent.new {w : FtProcess P} (hw : Consistent w) {c : Nat} (hnew : w.comms c = none)
    {groups : CommGroups P} {n : Nat} (hn : groups.localGroup.size ≤ n)
    (hinter : groups.isInter = true → n = groups.localGroup.size) :
    Consistent { w with comms := update w.comms c (some (.new groups n)) } := by
  refine ⟨?_, ?_, ?_, ?_⟩
  · intro d comm i hcomm hid
    rcases update_eq_some hcomm with ⟨rfl, hv⟩ | ⟨-, hold⟩
    · cases hv
      cases hid
    · exact hw.slot_of_contextId hold hid
  · intro i d hslot
    obtain ⟨comm, hcomm, hid⟩ := hw.comm_of_slot hslot
    have hd : d ≠ c := by
      rintro rfl
      rw [hnew] at hcomm
      cases hcomm
    exact ⟨comm, (update_of_ne hd ..).trans hcomm, hid⟩
  · intro d comm hcomm
    rcases update_eq_some hcomm with ⟨rfl, hv⟩ | ⟨-, hold⟩
    · cases hv
      exact ⟨hn, hinter⟩
    · exact hw.allocated hold
  · intro d comm hcomm hid
    rcases update_eq_some hcomm with ⟨rfl, hv⟩ | ⟨-, hold⟩
    · cases hv
      refine ⟨rfl, ?_⟩
      rw [Communicator.new]
      split <;> rfl
    · exact hw.pending hold hid

omit [DecidableEq P] in
/-- An update of the communicator objects that keeps the groups, the context ids
and the counters of the pending communicators. -/
theorem Consistent.map_comms {w w' : FtProcess P} (hw : Consistent w) (htable : w'.table = w.table)
    (hcomms : ∀ {c comm'}, w'.comms c = some comm' → ∃ comm, w.comms c = some comm ∧
      comm'.toCommGroups = comm.toCommGroups ∧ comm'.contextId = comm.contextId ∧
      comm'.allocated = comm.allocated ∧ (comm.contextId = none →
        comm'.numActiveLocal = comm.numActiveLocal ∧ comm'.numActiveRemote = comm.numActiveRemote))
    (hback : ∀ {c comm}, w.comms c = some comm → ∃ comm', w'.comms c = some comm') :
    Consistent w' := by
  have hslot : ∀ i, w'.slot i = w.slot i := by
    intro i
    rw [slot, htable, slot]
  refine ⟨?_, ?_, ?_, ?_⟩
  · intro c comm' i hcomm' hid
    obtain ⟨comm, hcomm, -, hcid, -, -⟩ := hcomms hcomm'
    rw [hslot]
    exact hw.slot_of_contextId hcomm (hcid ▸ hid)
  · intro i c hi
    obtain ⟨comm, hcomm, hid⟩ := hw.comm_of_slot ((hslot i) ▸ hi)
    obtain ⟨comm', hcomm'⟩ := hback hcomm
    obtain ⟨comm₂, hcomm₂, -, hcid, -, -⟩ := hcomms hcomm'
    rw [hcomm] at hcomm₂
    cases hcomm₂
    exact ⟨comm', hcomm', by rw [hcid]; exact hid⟩
  · intro c comm' hcomm'
    obtain ⟨comm, hcomm, hgroups, -, halloc, -⟩ := hcomms hcomm'
    rw [hgroups, halloc]
    exact hw.allocated hcomm
  · intro c comm' hcomm' hid
    obtain ⟨comm, hcomm, hgroups, hcid, halloc, hcount⟩ := hcomms hcomm'
    have hnone : comm.contextId = none := hcid ▸ hid
    obtain ⟨hl, hr⟩ := hcount hnone
    rw [hl, hr, hgroups, halloc]
    exact hw.pending hcomm hnone

theorem Consistent.step {w w' : FtProcess P} {a : FtAction P} (hw : Consistent w)
    (h : Stepped w a w') : Consistent w' := by
  have hslot : ∀ i v j, ({ w with table := setSlot w.table i v } : FtProcess P).slot j =
      if j = i then v else w.slot j := fun i v j => slot_setSlot w.table i j v
  cases h with
  | commSet hnew => exact hw.new hnew le_rfl fun _ => rfl
  | topoCreate hnew hparent hsub =>
    exact hw.new hnew (size_le_of_subset hsub) fun h => nomatch h
  | @reserve parent i comm hparent hid hfree =>
    refine ⟨?_, ?_, hw.allocated, hw.pending⟩
    · intro c k j hcomm hcid
      have hold := hw.slot_of_contextId hcomm hcid
      have hne : j ≠ i := by
        rintro rfl
        rw [hfree] at hold
        cases hold
      rw [hslot, if_neg hne, hold]
    · intro j c hj
      rw [hslot] at hj
      split at hj
      · cases hj
        exact ⟨comm, hparent, hid⟩
      · exact hw.comm_of_slot hj
  | @release i parent comm hs hparent hother =>
    refine ⟨?_, ?_, hw.allocated, hw.pending⟩
    · intro c k j hcomm hcid
      have hold := hw.slot_of_contextId hcomm hcid
      have hne : j ≠ i := by
        rintro rfl
        rw [hs] at hold
        cases hold
        rw [hparent] at hcomm
        cases hcomm
        exact hother hcid
      rw [hslot, if_neg hne, hold]
    · intro j c hj
      rw [hslot] at hj
      split at hj
      · cases hj
      · exact hw.comm_of_slot hj
  | @register c i parent comm pcomm hcomm hid hs hparent hother =>
    have hslot' : ∀ j, (setSlot w.table i (some c))[j]?.join =
        if j = i then some c else w.slot j := fun j => slot_setSlot w.table i j (some c)
    refine ⟨?_, ?_, ?_, ?_⟩
    · intro d k j hk hcid
      rcases update_eq_some hk with ⟨rfl, hv⟩ | ⟨-, hkw⟩
      · cases hv
        cases hcid
        exact (hslot' i).trans (if_pos rfl)
      · have hold := hw.slot_of_contextId hkw hcid
        have hne : j ≠ i := by
          rintro rfl
          rw [hs] at hold
          cases hold
          rw [hparent] at hkw
          cases hkw
          exact hother hcid
        exact (hslot' j).trans ((if_neg hne).trans hold)
    · intro j d hj
      change (setSlot w.table i (some c))[j]?.join = some d at hj
      rw [hslot'] at hj
      split at hj
      · cases hj
        exact ⟨_, update_self .., rfl⟩
      · obtain ⟨k, hk, hkid⟩ := hw.comm_of_slot hj
        by_cases hd : d = c
        · subst hd
          exact ⟨_, update_self .., rfl⟩
        · exact ⟨k, (update_of_ne hd ..).trans hk, hkid⟩
    · intro d k hk
      rcases update_eq_some hk with ⟨rfl, hv⟩ | ⟨hd, hk⟩
      · cases hv
        exact ⟨(hw.allocated hcomm).1, (hw.allocated hcomm).2⟩
      · exact hw.allocated hk
    · intro d k hk hkid
      rcases update_eq_some hk with ⟨rfl, hv⟩ | ⟨hd, hk⟩
      · cases hv
        cases hkid
      · exact hw.pending hk hkid
  | @freePending c comm hcomm hid =>
    refine ⟨?_, ?_, ?_, ?_⟩
    · intro d k j hk hcid
      rcases update_eq_some hk with ⟨rfl, hv⟩ | ⟨hd, hk⟩
      · cases hv
      · exact hw.slot_of_contextId hk hcid
    · intro j d hj
      obtain ⟨k, hk, hkid⟩ := hw.comm_of_slot hj
      have hd : d ≠ c := by
        rintro rfl
        rw [hcomm] at hk
        cases hk
        rw [hid] at hkid
        cases hkid
      exact ⟨k, (update_of_ne hd ..).trans hk, hkid⟩
    · intro d k hk
      rcases update_eq_some hk with ⟨rfl, hv⟩ | ⟨hd, hk⟩
      · cases hv
      · exact hw.allocated hk
    · intro d k hk hkid
      rcases update_eq_some hk with ⟨rfl, hv⟩ | ⟨hd, hk⟩
      · cases hv
      · exact hw.pending hk hkid
  | @free c i comm hcomm hid hcount =>
    have hslot' : ∀ j, (setSlot w.table i none)[j]?.join =
        if j = i then none else w.slot j := fun j => slot_setSlot w.table i j none
    refine ⟨?_, ?_, ?_, ?_⟩
    · intro d k j hk hcid
      rcases update_eq_some hk with ⟨rfl, hv⟩ | ⟨hd, hk⟩
      · cases hv
      · have hold := hw.slot_of_contextId hk hcid
        have hne : j ≠ i := by
          rintro rfl
          rw [hw.slot_of_contextId hcomm hid] at hold
          exact hd (Option.some.inj hold).symm
        exact (hslot' j).trans ((if_neg hne).trans hold)
    · intro j d hj
      change (setSlot w.table i none)[j]?.join = some d at hj
      have hd : d ≠ c := by
        rintro rfl
        -- the only slot of the freed communicator is the one that is emptied
        have hzero := count_setSlot w.table i d none
        have hown : w.table[i]?.join = some d := hw.slot_of_contextId hcomm hid
        rw [hcount, if_pos hown, if_neg (by simp)] at hzero
        have hmem : some d ∈ setSlot w.table i none := by
          rw [mem_iff_getElem?]
          exact ⟨j, Option.join_eq_some_iff.mp hj⟩
        have hpos := count_pos_iff.mpr hmem
        omega
      rw [hslot'] at hj
      split at hj
      · cases hj
      · obtain ⟨k, hk, hkid⟩ := hw.comm_of_slot hj
        exact ⟨k, (update_of_ne hd ..).trans hk, hkid⟩
    · intro d k hk
      rcases update_eq_some hk with ⟨rfl, hv⟩ | ⟨hd, hk⟩
      · cases hv
      · exact hw.allocated hk
    · intro d k hk hkid
      rcases update_eq_some hk with ⟨rfl, hv⟩ | ⟨hd, hk⟩
      · cases hv
      · exact hw.pending hk hkid
  | @fail p =>
    cases hp : w.active p with
    | false => rwa [markFailedPeer_of_inactive hp]
    | true =>
      refine hw.map_comms markFailedPeer_table ?_ ?_
      · intro c comm' hcomm'
        rw [markFailedPeer_comms hp] at hcomm'
        obtain ⟨comm, hcomm, rfl⟩ := Option.map_eq_some_iff.mp hcomm'
        refine ⟨comm, hcomm, by simp, by simp, by simp, ?_⟩
        intro hnone
        -- a pending communicator has no slot, so the scan does not reach it
        have hzero : w.table.count (some c) = 0 := by
          rw [count_eq_zero]
          intro hmem
          obtain ⟨i, hi⟩ := mem_table_iff.mp hmem
          obtain ⟨k, hk, hkid⟩ := hw.comm_of_slot hi
          rw [hcomm] at hk
          cases hk
          rw [hnone] at hkid
          cases hkid
        rw [hzero]
        exact ⟨rfl, rfl⟩
      · intro c comm hcomm
        rw [markFailedPeer_comms hp, hcomm]
        exact ⟨_, rfl⟩
  | @ack c comm hcomm =>
    refine hw.map_comms rfl ?_ ?_
    · intro d k hk
      rcases update_eq_some hk with ⟨rfl, hv⟩ | ⟨hd, hk⟩
      · cases hv
        exact ⟨comm, hcomm, rfl, rfl, rfl, fun _ => ⟨rfl, rfl⟩⟩
      · exact ⟨k, hk, rfl, rfl, rfl, fun _ => ⟨rfl, rfl⟩⟩
    · intro d k hk
      by_cases hd : d = c
      · subst hd
        exact ⟨_, update_self ..⟩
      · exact ⟨k, (update_of_ne hd ..).trans hk⟩

omit [DecidableEq P] in
theorem consistent_init (world self : ProcGroup P) : Consistent (init world self) := by
  have hcases : ∀ {c comm}, (init world self).comms c = some comm →
      (c = 0 ∧ comm = { new (.intra world) world.size with contextId := some 0 }) ∨
        (c = 1 ∧ comm = { new (.intra self) self.size with contextId := some 1 }) ∨
        (c = 2 ∧ comm = { new (.intra empty) 0 with contextId := some 2 }) := by
    intro c comm h
    match c with
    | 0 => exact .inl ⟨rfl, (Option.some.inj h).symm⟩
    | 1 => exact .inr (.inl ⟨rfl, (Option.some.inj h).symm⟩)
    | 2 => exact .inr (.inr ⟨rfl, (Option.some.inj h).symm⟩)
    | _ + 3 => cases h
  refine ⟨?_, ?_, ?_, ?_⟩
  · intro c comm i hcomm hid
    rcases hcases hcomm with ⟨rfl, rfl⟩ | ⟨rfl, rfl⟩ | ⟨rfl, rfl⟩ <;> cases hid <;> rfl
  · intro i c hslot
    match i with
    | 0 =>
      cases hslot
      exact ⟨_, rfl, rfl⟩
    | 1 =>
      cases hslot
      exact ⟨_, rfl, rfl⟩
    | 2 =>
      cases hslot
      exact ⟨_, rfl, rfl⟩
    | _ + 3 => cases hslot
  · intro c comm hcomm
    rcases hcases hcomm with ⟨rfl, rfl⟩ | ⟨rfl, rfl⟩ | ⟨rfl, rfl⟩
    · exact ⟨le_rfl, fun h => nomatch h⟩
    · exact ⟨le_rfl, fun h => nomatch h⟩
    · exact ⟨le_rfl, fun h => nomatch h⟩
  · intro c comm hcomm hid
    rcases hcases hcomm with ⟨rfl, rfl⟩ | ⟨rfl, rfl⟩ | ⟨rfl, rfl⟩ <;> cases hid

theorem exec_append (w : FtProcess P) (as bs : List (FtAction P)) :
    w.exec (as ++ bs) = (w.exec as).bind fun w' => w'.exec bs := by
  induction as generalizing w with
  | nil => rfl
  | cons a as ih =>
    rw [cons_append, exec, exec, Option.bind_assoc]
    congr 1
    funext w'
    exact ih w'

theorem exec_concat {w w' : FtProcess P} {as : List (FtAction P)} {a : FtAction P} :
    w.exec (as ++ [a]) = some w' ↔ ∃ v, w.exec as = some v ∧ v.step a = some w' := by
  rw [exec_append, Option.bind_eq_some_iff]
  simp [exec]

theorem consistent_exec {w w' : FtProcess P} (hw : Consistent w) {as : List (FtAction P)}
    (h : w.exec as = some w') : Consistent w' := by
  induction as generalizing w with
  | nil =>
    cases h
    exact hw
  | cons a as ih =>
    obtain ⟨v, hv, hrest⟩ := Option.bind_eq_some_iff.mp h
    exact ih (hw.step (stepped_of_step hv)) hrest

end Steps

end FtProcess

end Ulfm
