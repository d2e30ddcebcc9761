import Ulfm.Failure.Notification

/-!
# The counters of active members

`num_active_local` and `num_active_remote` start from the size of the groups and
go down by one for each slot of the table through which a failure is notified.
They are exact as long as every failure meets the communicator in one slot, as
one of two groups, and no communicator enters the table with members that have
failed or with counters set from a larger group. One step out of such a state
keeps the counters exact just when it meets this condition
(`countersExact_step_iff`).
-/

namespace Ulfm

open Communicator ProcGroup Function

variable {P : Type} [DecidableEq P]

namespace FtProcess

/-- The counters of every communicator of the table are the numbers of active
processes of its groups. -/
def CountersExact (w : FtProcess P) : Prop :=
  ∀ c comm, w.comms c = some comm → comm.contextId.isSome →
    comm.numActiveLocal = comm.localGroup.count w.active ∧
      comm.numActiveRemote = comm.remoteGroup.count w.active

/-- The operations that count as they should: a failure of a process all of whose
communicators are inter-communicators that occupy one slot, and the registration
of a communicator whose members are all active and whose counters were set from
its own group. -/
def CountedOnce (w : FtProcess P) : FtAction P → Prop
  | .fail p => w.active p = true → ∀ c comm, w.comms c = some comm → comm.contextId.isSome →
      p ∈ comm → comm.isInter = true ∧ w.table.count (some c) = 1
  | .register c _ => ∀ comm, w.comms c = some comm →
      comm.allocated = comm.localGroup.size ∧ ∀ p ∈ comm, w.active p = true
  | _ => True

/-- A failure through `n` slots keeps the counters of a communicator exact just
when the communicator is an inter-communicator in one slot. -/
theorem notifyTimes_exact_iff {comm : Communicator P} {active : P → Bool} {p : P} {n : Nat}
    (hp : active p = true) (hmem : p ∈ comm)
    (hl : comm.numActiveLocal = comm.localGroup.count active)
    (hr : comm.numActiveRemote = comm.remoteGroup.count active) :
    ((comm.notifyTimes p n).numActiveLocal = comm.localGroup.count (update active p false) ∧
      (comm.notifyTimes p n).numActiveRemote = comm.remoteGroup.count (update active p false)) ↔
      comm.isInter = true ∧ n = 1 := by
  by_cases hlocal : p ∈ comm.localGroup
  · obtain ⟨hnl, hnr⟩ := notifyTimes_local hlocal n
    have hdown := count_update_of_mem hlocal hp
    rw [hnl, hnr, hl, hr]
    cases hinter : comm.isInter with
    | false =>
      -- the one group is also the remote group, whose counter stays
      rw [comm.remote_eq_local hinter]
      simp only [Bool.false_eq_true, false_and, iff_false, not_and]
      intro _
      omega
    | true =>
      have hremote := comm.disjoint hinter p hlocal
      rw [count_update_of_not_mem hremote]
      simp only [true_and, and_true]
      omega
  · have hremote : p ∈ comm.remoteGroup := hmem.resolve_left hlocal
    have hinter : comm.isInter = true := by
      cases hi : comm.isInter with
      | true => rfl
      | false =>
        rw [comm.remote_eq_local hi] at hremote
        exact absurd hremote hlocal
    obtain ⟨hnl, hnr⟩ := notifyTimes_remote hlocal hremote n
    have hdown := count_update_of_mem hremote hp
    rw [hnl, hnr, hl, hr, count_update_of_not_mem hlocal]
    simp only [hinter, true_and]
    omega

omit [DecidableEq P] in
/-- The counters of a new communicator are exact just when they were set from its
own group and all its members are active. -/
theorem pending_exact_iff {w : FtProcess P} (hw : Consistent w) {c : Nat} {comm : Communicator P}
    (hcomm : w.comms c = some comm) (hid : comm.contextId = none) :
    (comm.numActiveLocal = comm.localGroup.count w.active ∧
      comm.numActiveRemote = comm.remoteGroup.count w.active) ↔
      comm.allocated = comm.localGroup.size ∧ ∀ p ∈ comm, w.active p = true := by
  obtain ⟨hl, hr⟩ := hw.pending hcomm hid
  obtain ⟨hle, hinterSize⟩ := hw.allocated hcomm
  have hcount := comm.localGroup.count_le_size w.active
  rw [hl, hr]
  cases hinter : comm.isInter with
  | false =>
    rw [comm.remote_eq_local hinter]
    simp only [Bool.false_eq_true, if_false, and_self, Int.natCast_inj]
    constructor
    · intro heq
      have hall : comm.localGroup.count w.active = comm.localGroup.size := by omega
      refine ⟨by omega, ?_⟩
      intro p hp
      rw [Communicator.mem_def, comm.remote_eq_local hinter, or_self] at hp
      exact count_eq_size_iff.mp hall p hp
    · rintro ⟨hsize, hactive⟩
      rw [hsize]
      exact (count_eq_size_iff.mpr fun p hp => hactive p (.inl hp)).symm
  | true =>
    rw [hinterSize hinter]
    simp only [if_true, Int.natCast_inj, true_and]
    rw [eq_comm, count_eq_size_iff, eq_comm, count_eq_size_iff]
    constructor
    · rintro ⟨hlocal, hremote⟩ p (hp | hp)
      · exact hlocal p hp
      · exact hremote p hp
    · intro hactive
      exact ⟨fun p hp => hactive p (.inl hp), fun p hp => hactive p (.inr hp)⟩

omit [DecidableEq P] in
/-- An update of the objects and the table that neither brings a communicator into
the table nor changes a group, a context id or a counter. -/
theorem CountersExact.of_same {w w' : FtProcess P} (hex : CountersExact w)
    (hactive : w'.active = w.active)
    (h : ∀ {c comm'}, w'.comms c = some comm' → comm'.contextId.isSome → ∃ comm,
      w.comms c = some comm ∧ comm.contextId.isSome ∧ comm'.toCommGroups = comm.toCommGroups ∧
        comm'.numActiveLocal = comm.numActiveLocal ∧
        comm'.numActiveRemote = comm.numActiveRemote) :
    CountersExact w' := by
  intro c comm' hcomm' hid
  obtain ⟨comm, hcomm, hcid, hgroups, hl, hr⟩ := h hcomm' hid
  rw [hl, hr, hgroups, hactive]
  exact hex c comm hcomm hcid

theorem countersExact_step_iff {w w' : FtProcess P} {a : FtAction P} (hw : Consistent w)
    (hex : CountersExact w) (h : Stepped w a w') : CountersExact w' ↔ CountedOnce w a := by
  cases h with
  | commSet hnew | topoCreate hnew _ _ =>
    refine iff_of_true (hex.of_same rfl ?_) trivial
    intro d comm' hcomm' hid
    rcases update_eq_some hcomm' with ⟨rfl, hv⟩ | ⟨-, hold⟩
    · cases hv
      cases hid
    · exact ⟨comm', hold, hid, rfl, rfl, rfl⟩
  | reserve _ _ _ | release _ _ _ =>
    refine iff_of_true (hex.of_same rfl ?_) trivial
    intro d comm' hcomm' hid
    exact ⟨comm', hcomm', hid, rfl, rfl, rfl⟩
  | freePending _ _ | free _ _ _ =>
    refine iff_of_true (hex.of_same rfl ?_) trivial
    intro d comm' hcomm' hid
    rcases update_eq_some hcomm' with ⟨rfl, hv⟩ | ⟨-, hold⟩
    · cases hv
    · exact ⟨comm', hold, hid, rfl, rfl, rfl⟩
  | @ack c comm hcomm =>
    refine iff_of_true (hex.of_same rfl ?_) trivial
    intro d comm' hcomm' hid
    rcases update_eq_some hcomm' with ⟨rfl, hv⟩ | ⟨-, hold⟩
    · cases hv
      exact ⟨comm, hcomm, hid, rfl, rfl, rfl⟩
    · exact ⟨comm', hold, hid, rfl, rfl, rfl⟩
  | @register c i parent comm pcomm hcomm hid hslot hparent hother =>
    constructor
    · intro hex' k hk
      rw [hcomm] at hk
      cases hk
      exact (pending_exact_iff hw hcomm hid).mp
        (hex' c { comm with contextId := some i } (Function.update_self ..) rfl)
    · intro hok d k hk hkid
      rcases update_eq_some hk with ⟨rfl, hv⟩ | ⟨-, hold⟩
      · cases hv
        exact (pending_exact_iff hw hcomm hid).mpr (hok comm hcomm)
      · exact hex d k hold hkid
  | @fail p =>
    cases hp : w.active p with
    | false =>
      rw [markFailedPeer_of_inactive hp]
      refine iff_of_true hex ?_
      intro htrue
      rw [hp] at htrue
      cases htrue
    | true =>
      constructor
      · intro hex' _ c comm hcomm hid hmem
        obtain ⟨hl, hr⟩ := hex c comm hcomm hid
        have hafter := hex' c (comm.notifyTimes p (w.table.count (some c)))
          (by rw [markFailedPeer_comms hp, hcomm]; rfl) (by simpa using hid)
        rw [notifyTimes_groups, markFailedPeer_active hp] at hafter
        exact (notifyTimes_exact_iff hp hmem hl hr).mp hafter
      · intro hok c comm' hcomm' hid
        rw [markFailedPeer_comms hp] at hcomm'
        obtain ⟨comm, hcomm, rfl⟩ := Option.map_eq_some_iff.mp hcomm'
        rw [notifyTimes_contextId] at hid
        obtain ⟨hl, hr⟩ := hex c comm hcomm hid
        rw [notifyTimes_groups, markFailedPeer_active hp]
        by_cases hmem : p ∈ comm
        · exact (notifyTimes_exact_iff hp hmem hl hr).mpr (hok hp c comm hcomm hid hmem)
        · rw [notifyTimes_of_not_mem hmem, count_update_of_not_mem fun hp' => hmem (.inl hp'),
            count_update_of_not_mem fun hp' => hmem (.inr hp')]
          exact ⟨hl, hr⟩

omit [DecidableEq P] in
theorem countersExact_init (world self : ProcGroup P) : CountersExact (init world self) := by
  have hall : ∀ g : ProcGroup P, g.count (fun _ => true) = g.size := fun g =>
    count_eq_size_iff.mpr fun _ _ => rfl
  intro c comm hcomm _
  match c with
  | 0 =>
    cases hcomm
    exact ⟨congrArg Nat.cast (hall world).symm, congrArg Nat.cast (hall world).symm⟩
  | 1 =>
    cases hcomm
    exact ⟨congrArg Nat.cast (hall self).symm, congrArg Nat.cast (hall self).symm⟩
  | 2 =>
    cases hcomm
    exact ⟨rfl, rfl⟩
  | _ + 3 => cases hcomm

/-- Along a run from `MPI_Init`, the counters are exact in every state if and only
if every operation of the run counts as it should. -/
theorem countersExact_iff (world self : ProcGroup P) (as : List (FtAction P)) :
    (∀ pre v, pre <+: as → (init world self).exec pre = some v → CountersExact v) ↔
      ∀ pre a v v', pre ++ [a] <+: as → (init world self).exec pre = some v →
        v.step a = some v' → CountedOnce v a := by
  constructor
  · intro hall pre a v v' hpre hv hstep
    have hexact := hall pre v ((List.prefix_append pre [a]).trans hpre) hv
    have hexact' := hall (pre ++ [a]) v' hpre (exec_concat.mpr ⟨v, hv, hstep⟩)
    exact (countersExact_step_iff (consistent_exec (consistent_init world self) hv) hexact
      (stepped_of_step hstep)).mp hexact'
  · intro hok pre
    induction pre using List.reverseRecOn with
    | nil =>
      intro v _ hv
      cases hv
      exact countersExact_init world self
    | append_singleton pre a ih =>
      intro v' hpre hv'
      obtain ⟨v, hv, hstep⟩ := exec_concat.mp hv'
      have hexact := ih v ((List.prefix_append pre [a]).trans hpre) hv
      exact (countersExact_step_iff (consistent_exec (consistent_init world self) hv) hexact
        (stepped_of_step hstep)).mpr (hok pre a v v' hpre hv hstep)

/-- Process 2 fails while `MPI_COMM_WORLD` is being duplicated: the three candidate
slots hold `MPI_COMM_WORLD` too, and its local counter goes from 3 to -1. -/
theorem countersExact_fails_during_nextcid :
    ¬ ∀ pre v, pre <+: [.reserve 0 3, .reserve 0 4, .reserve 0 5, .fail 2] →
      (init (⟨[0, 1, 2], by decide⟩ : ProcGroup Nat) ⟨[0], by decide⟩).exec pre = some v →
      CountersExact v := by
  intro hall
  have hexact := hall _ _ List.prefix_rfl rfl 0 _ rfl rfl
  exact absurd hexact.1 (by decide)

end FtProcess

end Ulfm
