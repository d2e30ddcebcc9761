import Ulfm.Osc.Fence
import Ulfm.Osc.LockEpoch

/-!
# What a fence guarantees

Runs in which the processes issue operations and call `module_fence`. As long as every
operation can be sent, and a reduction that fails at a process has no operations for it,
a fence returns when what was issued for the window before it is applied, and nothing
else. A request that does not fit into an eager buffer ends the fence with an error while
its operations are still on the way.
-/

namespace Ulfm.Osc

open List Finset Osc.World

variable {P : Type} [DecidableEq P] {z : Sizes} {w : World P}

/-- The calls of a program that synchronises with fences. -/
def FenceCall (w : World P) : Event P → Prop
  | .issue p _ => w.call p = .idle
  | .deliver _ _ | .landed _ _ | .replyLanded _ _ | .sent _ _ | .fence _ | .fenceFailed _
  | .reduced _ _ | .counted _ | .fenced _ => True
  | .grant _ | .start _ _ | .complete _ _ | .completed _ | .post _ _ | .waited _ | .lock _ _ _
  | .unlock _ _ _ | .unlocked _ => False

instance (w : World P) (e : Event P) : Decidable (FenceCall w e) :=
  match e with
  | .issue p _ => inferInstanceAs (Decidable (w.call p = .idle))
  | .deliver _ _ | .landed _ _ | .replyLanded _ _ | .sent _ _ | .fence _ | .fenceFailed _
  | .reduced _ _ | .counted _ | .fenced _ => isTrue trivial
  | .grant _ | .start _ _ | .complete _ _ | .completed _ | .post _ _ | .waited _ | .lock _ _ _
  | .unlock _ _ _ | .unlocked _ => isFalse id

/-- Where the reduction of a fence fails, no process at which it succeeds has operations
for the one at which it has failed. -/
def FailsUnsent (w : World P) : Event P → Prop
  | .fenceFailed p => ∀ q, w.fences p ∈ w.succeeded q → w.contribution (w.fences p) q p = 0
  | .reduced p _ => ∀ q, w.fences p ∈ w.failed q → w.contribution (w.fences p) p q = 0
  | _ => True

instance [Fintype P] (w : World P) (e : Event P) : Decidable (FailsUnsent w e) :=
  match e with
  | .fenceFailed p => inferInstanceAs
      (Decidable (∀ q, w.fences p ∈ w.succeeded q → w.contribution (w.fences p) q p = 0))
  | .reduced p _ => inferInstanceAs
      (Decidable (∀ q, w.fences p ∈ w.failed q → w.contribution (w.fences p) p q = 0))
  | .issue _ _ | .deliver _ _ | .landed _ _ | .replyLanded _ _ | .sent _ _ | .fence _
  | .counted _ | .fenced _ | .grant _ | .start _ _ | .complete _ _ | .completed _ | .post _ _
  | .waited _ | .lock _ _ _ | .unlock _ _ _ | .unlocked _ => isTrue trivial

/-- What holds at a process whose fence has returned. -/
structure Closed (w : World P) (p : P) : Prop where
  /-- What was issued for its window before the fence is applied, and nothing else. -/
  applied : ∀ o, (w.applied p o).Perm
    ((w.issued o).filter fun x => x.target = p ∧ x.fence < w.fences p)
  /-- Its gets have their data. -/
  got : ∀ x, x.kind = .get → x.fence < w.fences p → (w.issued p).count x = (w.got p).count x
  incoming : w.numPendingIn p = 0
  outgoing : w.numPendingOut p = 0

/-- What holds at a process whose fence has returned after the reduction has failed. -/
structure Restored (w : World P) (p : P) : Prop where
  queue : w.pendingSendreqs p = w.fenceQueue p
  num : w.numPendingSendreqs p = w.fenceNum p
  copy : w.copyPendingSendreqs p = []

/-- All that is kept along a run of fences. -/
structure FenceEpochs [Fintype P] (z : Sizes) (w : World P) : Prop where
  transfer : Transfer z w
  queues : Queues w
  fencing : Fencing w

variable [Fintype P]

theorem FenceEpochs.init (z : Sizes) : FenceEpochs z (init : World P) :=
  ⟨Transfer.init z, Queues.init, Fencing.init⟩

theorem FenceEpochs.step (h : FenceEpochs z w) {e : Event P} (hcall : FenceCall w e)
    (he : e.Sendable z) (hunsent : FailsUnsent w e) : FenceEpochs z (step z w e) := by
  refine ⟨h.transfer.step he, h.queues.step h.transfer e, ?_⟩
  have hfencing := h.fencing
  cases e with
  | issue p r => exact hfencing.issue r hcall
  | deliver q p => exact hfencing.deliver h.transfer q p
  | landed p i => exact hfencing.landed p i
  | replyLanded p i => exact hfencing.replyLanded h.transfer p i
  | sent p i => exact hfencing.sent_event p i
  | fence p => exact hfencing.fence h.queues p
  | fenceFailed p => exact hfencing.fenceFailed hunsent
  | reduced p order => exact hfencing.reduced h.transfer h.queues hunsent
  | counted p => exact hfencing.counted_event p
  | fenced p => exact hfencing.fenced_event p
  | grant p | start p group | complete p order | completed p | post p group | waited p =>
    exact hcall.elim
  | lock p target type | unlock p target order | unlocked p => exact hcall.elim

section Closing

/-- What an origin was to send to a target in the fences that have succeeded there. -/
def World.owed (w : World P) (o t : P) : ℕ := ∑ k ∈ (w.succeeded t).toFinset, w.contribution k o t

omit [DecidableEq P] in
theorem World.expected_eq (w : World P) (t : P) : w.expected t = ∑ o, w.owed o t := sum_comm

theorem Fencing.told (h : Fencing w) {o t : P} (hcall : ∀ n, w.call t ≠ .reducing n) {k : ℕ}
    (hk : k ∈ w.succeeded o) (hne : w.contribution k o t ≠ 0) : k ∈ w.succeeded t := by
  obtain ⟨hpos, hle⟩ := h.barrier o k hk
  rcases h.entered t k hpos (hle t) with hmem | hfailed | ⟨-, n, hn⟩
  · exact hmem
  · exact absurd (h.uniform o t k hk hfailed) hne
  · exact absurd hn (hcall n)

theorem Fencing.sentTo_le_owed (h : Fencing w) {t : P} (hcall : ∀ n, w.call t ≠ .reducing n)
    (o : P) : w.sentTo o t ≤ w.owed o t := by
  refine sum_le_sum_of_ne_zero fun k hk hne => ?_
  exact mem_toFinset.mpr (h.told hcall (mem_toFinset.mp hk) hne)

theorem Fencing.applied_le_sentTo (h : Fencing w) (o t : P) :
    (w.applied t o).length ≤ w.sentTo o t := by
  have hsent := h.sent o t
  omega

theorem Fencing.applied_eq_owed (h : Fencing w) {t : P} (hcall : w.call t = .fencing)
    (hin : w.numPendingIn t ≤ 0) (o : P) : (w.applied t o).length = w.owed o t := by
  have hreducing : ∀ n, w.call t ≠ .reducing n := by simp [hcall]
  have hle : ∀ o ∈ Finset.univ, (w.applied t o).length ≤ w.owed o t := fun o _ =>
    (h.applied_le_sentTo o t).trans (h.sentTo_le_owed hreducing o)
  have hincoming := h.incoming t
  rw [hcall] at hincoming
  change _ + _ + (0 : ℤ) = _ at hincoming
  have hge : w.expected t ≤ w.appliedAt t := by omega
  rw [expected_eq] at hge
  have hsum : w.appliedAt t = ∑ o, w.owed o t := Nat.le_antisymm (Finset.sum_le_sum hle) hge
  exact (sum_eq_sum_iff_of_le hle).mp hsum o (mem_univ o)

theorem Fencing.owed_unsent (h : Fencing w) {o t : P} (hcall : ∀ n, w.call t ≠ .reducing n)
    (hall : w.owed o t ≤ w.sentTo o t) {k : ℕ} (hk : k ∈ w.succeeded t)
    (hunsent : k ∉ w.succeeded o) : w.contribution k o t = 0 := by
  have hsub : ∑ j ∈ insert k (w.succeeded o).toFinset, w.contribution j o t ≤ w.owed o t := by
    refine sum_le_sum_of_ne_zero fun j hj hne => ?_
    rcases mem_insert.mp hj with rfl | hj
    · exact mem_toFinset.mpr hk
    · exact mem_toFinset.mpr (h.told hcall (mem_toFinset.mp hj) hne)
  rw [sum_insert fun hmem => hunsent (mem_toFinset.mp hmem)] at hsub
  unfold sentTo at hall
  omega

theorem FenceEpochs.closed (h : FenceEpochs z w) {p : P} (hcall : w.call p = .fencing)
    (hin : w.numPendingIn p ≤ 0) (hout : w.numPendingOut p = 0) : Closed w p := by
  have hfencing := h.fencing
  have hreducing : ∀ n, w.call p ≠ .reducing n := by simp [hcall]
  have hlast : w.fences p ∈ w.succeeded p := hfencing.fenced p (by simp [hcall])
  have happlied := hfencing.applied_eq_owed hcall hin
  have hunder : ∀ o, w.underWay o p = [] := by
    intro o
    have hsent := hfencing.sent o p
    have hle := hfencing.sentTo_le_owed hreducing o
    have hlength := happlied o
    exact length_eq_zero_iff.mp (by omega)
  have hqueued : ∀ o x, x.target = p → x.fence < w.fences p → (w.queued o).count x = 0 := by
    intro o x htarget hlt
    refine count_eq_zero.mpr fun hx => ?_
    have hle : w.fences p ≤ w.fences o := (hfencing.barrier p _ hlast).2 o
    have hcounted := hfencing.counted o x hx _ hlt hle
    rw [htarget] at hcounted
    by_cases hsucceeded : w.fences p ∈ w.succeeded o
    · exact absurd (hfencing.old o x hx _ hsucceeded) (Nat.not_le.mpr hlt)
    · have hall : w.owed o p ≤ w.sentTo o p :=
        (happlied o).symm.le.trans (hfencing.applied_le_sentTo o p)
      have hzero := hfencing.owed_unsent hreducing hall hlast hsucceeded
      omega
  constructor
  case applied =>
    intro o
    refine perm_iff_count.mpr fun x => ?_
    by_cases hx : x.target = p ∧ x.fence < w.fences p
    · obtain ⟨rfl, hlt⟩ := hx
      have hplaces := h.transfer.places o x
      have hflying := append_eq_nil_iff.mp (hunder o)
      rw [count_filter (by simpa using hlt), hplaces, hqueued o x rfl hlt, hflying.1, hflying.2]
      simp
    · have hfilter : x ∉ (w.issued o).filter fun x => x.target = p ∧ x.fence < w.fences p := by
        intro hmem
        exact hx (of_decide_eq_true (List.mem_filter.mp hmem).2)
      rw [count_eq_zero.mpr hfilter]
      refine count_eq_zero.mpr fun hmem => ?_
      obtain ⟨htarget, k, hk, hlt⟩ := hfencing.inFence o p x (Or.inr hmem)
      exact hx ⟨htarget, hlt.trans_le ((hfencing.barrier o k hk).2 p)⟩
  case got =>
    intro x hget hlt
    have hreceived := h.transfer.received p x hget
    have hsending : w.sending p = [] := by
      have hpending := hfencing.out p
      rw [hcall, hout] at hpending
      change (0 : ℤ) + 0 = _ at hpending
      exact length_eq_zero_iff.mp (by omega)
    have hnone : (w.queued p).count x = 0 := by
      refine count_eq_zero.mpr fun hx => ?_
      exact absurd (hfencing.old p x hx _ hlast) (Nat.not_le.mpr hlt)
    rw [hreceived, hnone, hsending]
    simp
  case incoming =>
    have hincoming := hfencing.incoming p
    rw [hcall] at hincoming
    change _ + _ + (0 : ℤ) = _ at hincoming
    have hsum : w.appliedAt p = w.expected p := by
      rw [expected_eq]
      exact sum_congr rfl fun o _ => happlied o
    omega
  case outgoing => exact hout

theorem FenceEpochs.restored (h : FenceEpochs z w) {p : P} {n : ℕ} (hn : w.call p = .reducing n) :
    Restored (w.fenceFailed p) p := by
  have hpending : w.pendingSendreqs p = [] := h.fencing.pending p (by simp [hn])
  obtain ⟨-, -, -, hqueue, hnum⟩ := h.fencing.reducing p n hn
  have hzero : ∀ t, w.numPendingSendreqs p t = 0 := by
    intro t
    rw [h.queues.counters, hpending]
    rfl
  unfold fenceFailed
  rw [hn]
  constructor
  · exact (upd_self _ _ _).trans (by rw [hpending, nil_append, hqueue])
  · refine (upd_self _ _ _).trans (funext fun t => ?_)
    rw [hzero, hnum, Nat.zero_add]
  · exact upd_self _ _ _

end Closing

section Returning

end Returning

end Ulfm.Osc
