import Mathlib.Algebra.BigOperators.Group.Finset.Piecewise
import Mathlib.Algebra.Order.BigOperators.Group.Finset
import Ulfm.Osc.Lines

/-!
# Fences

A fence asks everybody how many operations are coming, with a `reduce_scatter` in which
nobody gets a result before everybody has entered. So what an origin sends in a fence
reaches its targets in the fence of the same number, and the counters of operations that
are applied before they are expected are right again when the result is added.
-/

namespace Ulfm.Osc

open List Osc.World

section Definitions

variable {P : Type}

/-- What `module_fence` has still to add to the counters. -/
def Call.incoming : Call → ℕ
  | .counting incoming _ => incoming
  | .idle | .completing | .unlocking | .reducing _ | .fencing => 0

def Call.outgoing : Call → ℕ
  | .counting _ outgoing => outgoing
  | .idle | .completing | .unlocking | .reducing _ | .fencing => 0

namespace World

variable (w : World P)

/-- The operations that an origin has sent to a target in its fences. -/
def sentTo (o t : P) : ℕ := ∑ k ∈ (w.succeeded o).toFinset, w.contribution k o t

/-- The operations that the fences of a target have told it to expect. -/
def expected [Fintype P] (t : P) : ℕ := ∑ k ∈ (w.succeeded t).toFinset, ∑ q, w.contribution k q t

/-- The operations that have been applied at a target. -/
def appliedAt [Fintype P] (t : P) : ℕ := ∑ o, (w.applied t o).length

end World

variable [DecidableEq P]

/-- The fences of all processes, and what has been sent and applied in them. -/
structure Fencing [Fintype P] (w : World P) : Prop where
  sent : ∀ o t, (w.applied t o).length + (w.underWay o t).length = w.sentTo o t
  incoming : ∀ t, w.numPendingIn t + w.appliedAt t + (w.call t).incoming = w.expected t
  out : ∀ o, w.numPendingOut o + (w.call o).outgoing = (w.sending o).length
  data : ∀ a b, ∀ m ∈ w.chan a b, m.isData = true
  unlocked : ∀ t, w.lockStatus t = none
  barrier : ∀ o, ∀ k ∈ w.succeeded o, 0 < k ∧ ∀ q, k ≤ w.fences q
  uniform : ∀ o t, ∀ k ∈ w.succeeded o, k ∈ w.failed t → w.contribution k o t = 0
  entered : ∀ o k, 0 < k → k ≤ w.fences o →
    k ∈ w.succeeded o ∨ k ∈ w.failed o ∨ (k = w.fences o ∧ ∃ n, w.call o = .reducing n)
  reducing : ∀ o n, w.call o = .reducing n → w.fences o ∉ w.succeeded o ∧ 0 < w.fences o ∧
      (∀ t, w.contribution (w.fences o) o t = w.copyNumPendingSendreqs o t) ∧
        w.copyPendingSendreqs o = w.fenceQueue o ∧ w.copyNumPendingSendreqs o = w.fenceNum o
  fenced : ∀ o, (w.call o ≠ .idle ∧ ∀ n, w.call o ≠ .reducing n) → w.fences o ∈ w.succeeded o
  calls : ∀ o, w.call o ≠ .completing ∧ w.call o ≠ .unlocking
  pending : ∀ o, w.call o ≠ .idle → w.pendingSendreqs o = []
  counted : ∀ o, ∀ x ∈ w.queued o, ∀ k, x.fence < k → k ≤ w.fences o →
    0 < w.contribution k o x.target
  old : ∀ o, ∀ x ∈ w.queued o, ∀ k ∈ w.succeeded o, k ≤ x.fence
  young : ∀ o, (∀ x ∈ w.pendingSendreqs o, x.fence ≤ w.fences o) ∧
    ∀ x ∈ w.copyPendingSendreqs o, x.fence < w.fences o
  inFence : ∀ o t x, x ∈ w.underWay o t ∨ x ∈ w.applied t o →
    x.target = t ∧ ∃ k ∈ w.succeeded o, x.fence < k

end Definitions

variable {P : Type} [DecidableEq P] [Fintype P] {z : Sizes} {w w' : World P}

theorem Fencing.init : Fencing (init : World P) := by
  constructor
  case incoming =>
    intro t
    simp [Osc.init, World.appliedAt, World.expected, Call.incoming]
  case calls =>
    intro o
    simp [Osc.init]
  case young =>
    intro o
    simp [Osc.init]
  case inFence =>
    intro o t x hx
    rcases hx with hx | hx <;> cases hx
  all_goals intros; simp_all [Osc.init, World.queued, World.sentTo, World.underWay,
    World.flying, World.data, World.begun, Call.outgoing]

section Transport

/-- The fences, the queues and the calls are the same in both states. -/
structure SameFences (w w' : World P) : Prop where
  succeeded : w'.succeeded = w.succeeded
  failed : w'.failed = w.failed
  fences : w'.fences = w.fences
  call : w'.call = w.call
  contribution : w'.contribution = w.contribution
  pending : w'.pendingSendreqs = w.pendingSendreqs
  copy : w'.copyPendingSendreqs = w.copyPendingSendreqs
  copyNum : w'.copyNumPendingSendreqs = w.copyNumPendingSendreqs
  fenceQueue : w'.fenceQueue = w.fenceQueue
  fenceNum : w'.fenceNum = w.fenceNum
  status : w'.lockStatus = w.lockStatus

omit [Fintype P] in
/-- A request that is done is neither pending nor under way any more. -/
theorem World.out_done {p : P} {l : List (Op P)} (hl : l.length + 1 = (w.sending p).length)
    (o : P) : upd w.numPendingOut p (w.numPendingOut p - 1) o - ((upd w.sending p l o).length : ℤ) =
      w.numPendingOut o - (w.sending o).length := by
  by_cases ho : o = p
  · rw [ho, upd_self, upd_self]
    omega
  · rw [upd_of_ne _ _ ho, upd_of_ne _ _ ho]

theorem Fencing.move (h : Fencing w) (same : SameFences w w')
    (sent : ∀ o t, (w'.applied t o).length + (w'.underWay o t).length =
      (w.applied t o).length + (w.underWay o t).length)
    (incoming : ∀ t, w'.numPendingIn t + w'.appliedAt t = w.numPendingIn t + w.appliedAt t)
    (out : ∀ o, w'.numPendingOut o - (w'.sending o).length =
      w.numPendingOut o - (w.sending o).length)
    (data : ∀ a b, ∀ m ∈ w'.chan a b, m.isData = true)
    (inFence : ∀ o t x, x ∈ w'.underWay o t ∨ x ∈ w'.applied t o →
      x ∈ w.underWay o t ∨ x ∈ w.applied t o) : Fencing w' := by
  have hqueued : ∀ o, w'.queued o = w.queued o := by
    intro o
    simp only [queued, same.pending, same.copy]
  constructor
  · intro o t
    rw [sent, h.sent]
    simp only [sentTo, same.succeeded, same.contribution]
  · intro t
    rw [incoming, same.call, h.incoming]
    simp only [expected, same.succeeded, same.contribution]
  · intro o
    have hout := h.out o
    have hsame := out o
    rw [same.call]
    omega
  · exact data
  · rw [same.status]
    exact h.unlocked
  · rw [same.succeeded, same.fences]
    exact h.barrier
  · rw [same.succeeded, same.failed, same.contribution]
    exact h.uniform
  · rw [same.succeeded, same.failed, same.fences, same.call]
    exact h.entered
  · rw [same.succeeded, same.fences, same.call, same.contribution, same.copyNum, same.copy,
      same.fenceQueue, same.fenceNum]
    exact h.reducing
  · rw [same.succeeded, same.fences, same.call]
    exact h.fenced
  · rw [same.call]
    exact h.calls
  · rw [same.call, same.pending]
    exact h.pending
  · simp only [hqueued, same.fences, same.contribution]
    exact h.counted
  · simp only [hqueued, same.succeeded]
    exact h.old
  · rw [same.pending, same.copy, same.fences]
    exact h.young
  · intro o t x hx
    rw [same.succeeded]
    exact h.inFence o t x (inFence o t x hx)

theorem World.appliedAt_cons (w : World P) {q p : P} {r : Op P}
    (happlied : w'.applied = upd w.applied p (upd (w.applied p) q (r :: w.applied p q))) (t : P) :
    w'.appliedAt t = w.appliedAt t + if t = p then 1 else 0 := by
  unfold appliedAt
  rw [happlied]
  by_cases ht : t = p
  · subst ht
    have hlength : ∀ o, (upd w.applied t (upd (w.applied t) q (r :: w.applied t q)) t o).length =
        (w.applied t o).length + if o = q then 1 else 0 := by
      intro o
      rw [upd_self]
      by_cases ho : o = q
      · rw [ho, upd_self, if_pos rfl, length_cons]
      · rw [upd_of_ne _ _ ho, if_neg ho, Nat.add_zero]
    simp only [hlength]
    rw [Finset.sum_add_distrib, Finset.sum_ite_eq']
    simp
  · simp only [upd_of_ne _ _ ht, if_neg ht, Nat.add_zero]

theorem World.incoming_cons (w : World P) {q p : P} {r : Op P}
    (happlied : w'.applied = upd w.applied p (upd (w.applied p) q (r :: w.applied p q)))
    (hin : w'.numPendingIn = upd w.numPendingIn p (w.numPendingIn p - 1)) (t : P) :
    w'.numPendingIn t + w'.appliedAt t = w.numPendingIn t + w.appliedAt t := by
  rw [appliedAt_cons w happlied, hin]
  by_cases ht : t = p
  · rw [ht, upd_self, if_pos rfl]
    push_cast
    omega
  · rw [upd_of_ne _ _ ht, if_neg ht]
    push_cast
    omega

omit [Fintype P] in
theorem World.applied_cons (w : World P) (q p : P) (r : Op P) (t o : P) :
    upd w.applied p (upd (w.applied p) q (r :: w.applied p q)) t o =
      (if o = q ∧ t = p then [r] else []) ++ w.applied t o := by
  by_cases ht : t = p
  · subst ht
    by_cases ho : o = q
    · subst ho
      rw [upd_self, upd_self, if_pos ⟨rfl, rfl⟩]
      rfl
    · rw [upd_self, upd_of_ne _ _ ho, if_neg fun h => ho h.1]
      rfl
  · rw [upd_of_ne _ _ ht, if_neg fun h => ht h.2]
    rfl

end Transport

section Messages

variable {q p : P} {rest : List (Msg P)}

omit [Fintype P] in
theorem World.underWay_pop {r : Op P} {n : ℕ} (hc : w.chan q p = .op r n :: rest) (o t : P) :
    w.underWay o t = (if o = q ∧ t = p then [r] else []) ++ (w.pop q p).underWay o t := by
  unfold underWay
  rw [flying_pop hc, append_assoc]
  rfl

omit [Fintype P] in
theorem World.underWay_push (w : World P) (q p : P) (r : Op P) (o t : P) :
    World.underWay { w with landing := upd w.landing p (w.landing p ++ [(q, r)]) } o t =
      w.underWay o t ++ if o = q ∧ t = p then [r] else [] := by
  unfold underWay
  rw [w.begun_push, ← append_assoc]
  rfl

omit [Fintype P] in
theorem World.mem_chan_pop {m' : Msg P} {a b : P}
    (hm : m' ∈ (w.pop q p).chan a b) : m' ∈ w.chan a b := by
  unfold pop at hm
  simp only at hm
  split_ifs at hm with hab
  · rw [hab.1, hab.2]
    exact mem_of_mem_tail hm
  · exact hm

theorem Fencing.apply (h : Fencing w) {r : Op P} {n : ℕ} (hc : w.chan q p = .op r n :: rest) :
    Fencing { w.pop q p with
      numPendingIn := upd w.numPendingIn p (w.numPendingIn p - 1)
      applied := upd w.applied p (upd (w.applied p) q (r :: w.applied p q)) } := by
  show Fencing (?after : World P)
  set w' : World P := ?after
  have happlied : ∀ t o, w'.applied t o = (if o = q ∧ t = p then [r] else []) ++ w.applied t o :=
    w.applied_cons q p r
  have hway := underWay_pop hc
  refine h.move (by constructor <;> rfl) (fun o t => ?_)
    (fun t => ?_) (fun _ => rfl) (fun a b m hm => h.data a b m (mem_chan_pop hm))
    fun o t x hx => ?_
  · rw [happlied, hway o t, length_append, length_append]
    change _ + ((w.pop q p).underWay o t).length = _
    omega
  · rw [appliedAt_cons w rfl]
    change upd w.numPendingIn p (w.numPendingIn p - 1) t + _ = _
    by_cases ht : t = p
    · rw [ht, upd_self, if_pos rfl]
      push_cast
      omega
    · rw [upd_of_ne _ _ ht, if_neg ht]
      push_cast
      omega
  · rw [hway o t]
    rcases hx with hx | hx
    · exact .inl (mem_append_right _ hx)
    · rw [happlied] at hx
      rcases mem_append.mp hx with hx | hx
      · exact .inl (mem_append_left _ hx)
      · exact .inr hx

theorem Fencing.begin (h : Fencing w) {r : Op P} {n : ℕ} (hc : w.chan q p = .op r n :: rest) :
    Fencing { w.pop q p with landing := upd w.landing p (w.landing p ++ [(q, r)]) } := by
  have hway := underWay_pop hc
  have hpush := (w.pop q p).underWay_push q p r
  refine h.move (by constructor <;> rfl) (fun o t => ?_)
    (fun _ => rfl) (fun _ => rfl) (fun a b m hm => h.data a b m (mem_chan_pop hm))
    fun o t x hx => ?_
  · rw [hway o t]
    refine (congrArg (fun l => _ + length l) (hpush o t)).trans ?_
    rw [length_append, length_append]
    change (w.applied t o).length + _ = _
    omega
  · rw [hway o t]
    refine hx.imp_left fun hx => ?_
    have hx' := (hpush o t) ▸ hx
    rcases mem_append.mp hx' with hx' | hx'
    · exact mem_append_right _ hx'
    · exact mem_append_left _ hx'

theorem Fencing.answer (h : Fencing w) (q p : P) (r : Op P) :
    Fencing (w.emit p (only q (z.replyMsg r))) := by
  have hway : ∀ o t, (w.emit p (only q (z.replyMsg r))).underWay o t = w.underWay o t := by
    intro o t
    unfold underWay
    rw [flying_emit_reply]
    rfl
  refine h.move (by constructor <;> rfl) (fun o t => ?_)
    (fun _ => rfl) (fun _ => rfl) (fun a b m hm => ?_) fun o t x hx => ?_
  · rw [hway]
    rfl
  · unfold emit only at hm
    simp only at hm
    split_ifs at hm
    · rcases mem_append.mp hm with hm | hm
      · exact h.data a b m hm
      · rw [mem_singleton.mp hm]
        rfl
    · rw [append_nil] at hm
      exact h.data a b m hm
    · exact h.data a b m hm
  · rw [hway] at hx
    exact hx

theorem Fencing.deliver (h : Fencing w) (ht : Transfer z w) (q p : P) :
    Fencing (w.deliver z q p) := by
  cases hc : w.chan q p with
  | nil =>
    unfold World.deliver
    rw [hc]
    exact h
  | cons m rest =>
    have hm : m.isData = true := h.data q p m (hc ▸ mem_cons_self)
    rw [World.deliver_eq hc]
    cases m with
    | op r n =>
      simp only [World.fragment]
      rcases ht.recvOp_cases hc with ⟨-, heq⟩ | ⟨-, heq⟩ | ⟨-, -, heq⟩
      · have hunlocked : (w.pop q p).lockStatus p = none := h.unlocked p
        rw [heq, World.inmsgMarkComplete_of_unlocked r hunlocked]
        exact h.apply hc
      · rw [heq]
        exact h.begin hc
      · rw [heq]
        exact (h.begin hc).answer q p r
    | reply r n =>
      have hway : ∀ o t, (w.pop q p).underWay o t = w.underWay o t := by
        intro o t
        unfold World.underWay
        rw [World.flying_pop hc]
        split_ifs <;> rfl
      simp only [World.fragment, World.recvReply]
      split_ifs
      · have hmem := ht.mem_sending_of_reply hc
        exact h.move (by constructor <;> rfl)
          (fun o t => congrArg (fun l => _ + length l) (hway o t)) (fun _ => rfl)
          (World.out_done (length_erase_add_one hmem))
          (fun a b m hm => h.data a b m (World.mem_chan_pop hm))
          fun o t x hx => hx.imp_left fun hx => hway o t ▸ hx
      · exact h.move (by constructor <;> rfl)
          (fun o t => congrArg (fun l => _ + length l) (hway o t)) (fun _ => rfl)
          (fun _ => rfl) (fun a b m hm => h.data a b m (World.mem_chan_pop hm))
          fun o t x hx => hx.imp_left fun hx => hway o t ▸ hx
    | post | complete n | lockReq type | lockAck | unlockReq n | unlockReply => cases hm

end Messages

section Landing

theorem Fencing.landed (h : Fencing w) (p : P) (i : ℕ) : Fencing (w.landed p i) := by
  unfold World.landed
  split
  · exact h
  · next q r hi =>
      have hunlocked : World.lockStatus { w with
          landing := upd w.landing p ((w.landing p).eraseIdx i) } p = none := h.unlocked p
      rw [World.inmsgMarkComplete_of_unlocked r hunlocked]
      change Fencing (w.drop q p r i)
      have happlied : ∀ t o, (w.drop q p r i).applied t o =
          (if o = q ∧ t = p then [r] else []) ++ w.applied t o := w.applied_cons q p r
      have hbegun : r ∈ w.begun p q := by
        refine mem_filterMap.mpr ⟨(q, r), mem_of_getElem? hi, ?_⟩
        exact if_pos rfl
      have hsub : ∀ o t, (w.drop q p r i).underWay o t ⊆ w.underWay o t := by
        intro o t x hx
        refine mem_append.mpr ((mem_append.mp hx).imp_right fun hx => ?_)
        by_cases hot : o = q ∧ t = p
        · obtain ⟨rfl, rfl⟩ := hot
          unfold World.begun at hx ⊢
          rw [show (w.drop o t r i).landing t = (w.landing t).eraseIdx i from upd_self _ _ _] at hx
          exact ((eraseIdx_sublist _ _).filterMap _).subset hx
        · rwa [World.begun_drop_of_ne hi hot] at hx
      refine h.move (by constructor <;> rfl) (fun o t => ?_)
        (World.incoming_cons w rfl rfl) (fun _ => rfl) h.data fun o t x hx => ?_
      · rw [happlied]
        unfold World.underWay
        rw [length_append, length_append, length_append]
        change _ + ((w.flying o t).length + _) = _
        by_cases hot : o = q ∧ t = p
        · rw [hot.1, hot.2, if_pos ⟨rfl, rfl⟩, World.begun_drop (r := r) hi, length_singleton]
          omega
        · rw [if_neg hot, World.begun_drop_of_ne hi hot, length_nil]
          omega
      · rcases hx with hx | hx
        · exact .inl (hsub o t hx)
        · rw [happlied] at hx
          rcases mem_append.mp hx with hx | hx
          · split_ifs at hx with hot
            · rw [mem_singleton.mp hx, hot.1, hot.2]
              exact .inl (mem_append_right _ hbegun)
            · cases hx
          · exact .inr hx

theorem Fencing.replyLanded (h : Fencing w) (ht : Transfer z w) (p : P) (i : ℕ) :
    Fencing (w.replyLanded p i) := by
  unfold World.replyLanded
  split
  · exact h
  · next r hi =>
      have hmem := ht.mem_sending_of_landing hi
      exact h.move (by constructor <;> rfl) (fun _ _ => rfl) (fun _ => rfl)
        (World.out_done (length_erase_add_one hmem)) h.data fun o t x hx => hx

theorem Fencing.sent_event (h : Fencing w) (p : P) (i : ℕ) : Fencing (w.sent p i) := by
  unfold World.sent
  split
  · exact h
  · next r hi =>
      split_ifs
      · exact h
      · obtain ⟨hlt, -⟩ := List.getElem?_eq_some_iff.mp hi
        exact h.move (by constructor <;> rfl) (fun _ _ => rfl) (fun _ => rfl)
          (World.out_done (length_eraseIdx_add_one hlt)) h.data fun o t x hx => hx

end Landing

section Calls

theorem Fencing.issue (h : Fencing w) {p : P} (r : Op P) (hidle : w.call p = .idle) :
    Fencing (w.issue p r) := by
  unfold World.issue
  split_ifs
  · exact h
  · set r' : Op P := { r with access := w.starts p r.target, fence := w.fences p }
    have hpending : ∀ o, upd w.pendingSendreqs p (w.pendingSendreqs p ++ [r']) o =
        w.pendingSendreqs o ++ if o = p then [r'] else [] := by
      intro o
      by_cases ho : o = p
      · rw [ho, upd_self, if_pos rfl]
      · rw [upd_of_ne _ _ ho, if_neg ho, append_nil]
    have hqueued : ∀ o x, x ∈ upd w.pendingSendreqs p (w.pendingSendreqs p ++ [r']) o ++
        w.copyPendingSendreqs o → x ∈ w.queued o ∨ (o = p ∧ x = r') := by
      intro o x hx
      rw [hpending, append_assoc, mem_append] at hx
      rcases hx with hx | hx
      · exact .inl (mem_append_left _ hx)
      · rcases mem_append.mp hx with hx | hx
        · split_ifs at hx with ho
          · exact .inr ⟨ho, mem_singleton.mp hx⟩
          · cases hx
        · exact .inl (mem_append_right _ hx)
    refine ⟨h.sent, h.incoming, h.out, h.data, h.unlocked, h.barrier, h.uniform, h.entered,
      h.reducing, h.fenced, h.calls, fun o ho => ?_, fun o x hx => ?_, fun o x hx => ?_,
      fun o => ⟨fun x hx => ?_, (h.young o).2⟩, h.inFence⟩
    · change upd w.pendingSendreqs p _ o = []
      have hne : o ≠ p := fun hop => ho (hop ▸ hidle)
      rw [upd_of_ne _ _ hne]
      exact h.pending o ho
    · rcases hqueued o x hx with hx | ⟨rfl, rfl⟩
      · exact h.counted o x hx
      · intro k hlt hle
        exact absurd hlt (Nat.not_lt.mpr hle)
    · rcases hqueued o x hx with hx | ⟨rfl, rfl⟩
      · exact h.old o x hx
      · intro k hk
        exact (h.barrier o k hk).2 o
    · change x ∈ upd w.pendingSendreqs p _ o at hx
      rw [hpending, mem_append] at hx
      rcases hx with hx | hx
      · exact (h.young o).1 x hx
      · split_ifs at hx with ho
        · rw [mem_singleton.mp hx, ho]
        · cases hx

theorem Fencing.fence (h : Fencing w) (hq : Queues w) (p : P) : Fencing (w.fence p) := by
  unfold World.fence
  split_ifs with hcall
  · exact h
  · have hidle : w.call p = .idle := not_not.mp hcall
    have hnil : w.copyPendingSendreqs p = [] := hq.started p (by simp [hidle])
    have hcopy := hq.copy_flipSendreqs hidle
    set w₁ := w.flipSendreqs p
    show Fencing (?after : World P)
    set w' : World P := ?after
    have hself : w'.call p = .reducing (w.pendingSendreqs p).length ∧
        w'.fences p = w.fences p + 1 ∧ w'.pendingSendreqs p = [] ∧
          w'.copyPendingSendreqs p = w.pendingSendreqs p ∧
            w'.copyNumPendingSendreqs p = w.numPendingSendreqs p ∧
              w'.contribution (w.fences p + 1) p = w.numPendingSendreqs p := by
      refine ⟨?_, upd_self _ _ _, upd_self _ _ _, hcopy, upd_self _ _ _, ?_⟩
      · exact (upd_self _ _ _).trans (by rw [hcopy])
      · exact (congrFun (upd_self _ _ _) p).trans ((upd_self _ _ _).trans (upd_self _ _ _))
    have hother : ∀ o, o ≠ p → w'.call o = w.call o ∧ w'.fences o = w.fences o ∧
        w'.pendingSendreqs o = w.pendingSendreqs o ∧
          w'.copyPendingSendreqs o = w.copyPendingSendreqs o ∧
            w'.copyNumPendingSendreqs o = w.copyNumPendingSendreqs o ∧
              w'.fenceQueue o = w.fenceQueue o ∧ w'.fenceNum o = w.fenceNum o := by
      intro o ho
      refine ⟨?_, ?_, ?_, ?_, ?_, ?_, ?_⟩ <;> exact upd_of_ne _ _ ho
    have hkept : ∀ k o, k ≤ w.fences o → w'.contribution k o = w.contribution k o := by
      intro k o hk
      change upd w.contribution (w.fences p + 1) _ k o = _
      by_cases hkp : k = w.fences p + 1
      · rw [hkp, upd_self]
        refine upd_of_ne _ _ fun hop => ?_
        rw [hop, hkp] at hk
        omega
      · rw [upd_of_ne _ _ hkp]
    have hfences : ∀ o, w.fences o ≤ w'.fences o := by
      intro o
      by_cases ho : o = p
      · rw [ho, hself.2.1]
        omega
      · rw [(hother o ho).2.1]
    have hqueued : ∀ o, w'.queued o = w.queued o := by
      intro o
      unfold World.queued
      by_cases ho : o = p
      · rw [ho, hself.2.2.1, hself.2.2.2.1, hnil, append_nil, nil_append]
      · rw [(hother o ho).2.2.1, (hother o ho).2.2.2.1]
    constructor
    case sent =>
      intro o t
      refine (h.sent o t).trans (Finset.sum_congr rfl fun k hk => ?_)
      rw [hkept k o ((h.barrier o k (mem_toFinset.mp hk)).2 o)]
    case incoming =>
      intro t
      have hexpected : w'.expected t = w.expected t :=
        Finset.sum_congr rfl fun k hk => Finset.sum_congr rfl fun q _ => by
          rw [hkept k q ((h.barrier t k (mem_toFinset.mp hk)).2 q)]
      have hin := h.incoming t
      have hincoming : (w'.call t).incoming = (w.call t).incoming := by
        by_cases ht : t = p
        · rw [ht, hself.1, hidle]
          rfl
        · rw [(hother t ht).1]
      rw [hexpected, hincoming]
      exact hin
    case out =>
      intro o
      have houtgoing : (w'.call o).outgoing = (w.call o).outgoing := by
        by_cases ho : o = p
        · rw [ho, hself.1, hidle]
          rfl
        · rw [(hother o ho).1]
      rw [houtgoing]
      exact h.out o
    case data => exact h.data
    case unlocked => exact h.unlocked
    case barrier =>
      intro o k hk
      exact ⟨(h.barrier o k hk).1, fun q => ((h.barrier o k hk).2 q).trans (hfences q)⟩
    case uniform =>
      intro o t k hk hfailed
      rw [hkept k o ((h.barrier o k hk).2 o)]
      exact h.uniform o t k hk hfailed
    case entered =>
      intro o k hpos hk
      by_cases ho : o = p
      · subst ho
        rw [hself.2.1] at hk ⊢
        rcases Nat.lt_or_ge (w.fences o) k with hlt | hle
        · exact .inr (.inr ⟨by omega, _, hself.1⟩)
        · rcases h.entered o k hpos hle with hmem | hmem | ⟨-, n, hn⟩
          · exact .inl hmem
          · exact .inr (.inl hmem)
          · rw [hidle] at hn
            cases hn
      · rw [(hother o ho).2.1] at hk ⊢
        rw [(hother o ho).1]
        exact h.entered o k hpos hk
    case reducing =>
      intro o n hn
      by_cases ho : o = p
      · subst ho
        obtain ⟨-, hf, -, hc, hnum, hcontribution⟩ := hself
        rw [hf, hc, hnum]
        refine ⟨fun hmem => ?_, Nat.succ_pos _, fun t => congrFun hcontribution t,
          (upd_self _ _ _).symm, (upd_self _ _ _).symm⟩
        have hle := (h.barrier o _ hmem).2 o
        omega
      · obtain ⟨hcall', hf, -, hc, hnum, hqueue, hfenceNum⟩ := hother o ho
        rw [hcall'] at hn
        rw [hf, hc, hnum, hqueue, hfenceNum, hkept _ _ le_rfl]
        exact h.reducing o n hn
    case fenced =>
      intro o ho'
      by_cases ho : o = p
      · exact absurd (ho ▸ hself.1) (ho'.2 _)
      · rw [(hother o ho).1] at ho'
        rw [(hother o ho).2.1]
        exact h.fenced o ho'
    case calls =>
      intro o
      by_cases ho : o = p
      · rw [ho, hself.1]
        exact ⟨Call.noConfusion, Call.noConfusion⟩
      · rw [(hother o ho).1]
        exact h.calls o
    case pending =>
      intro o ho'
      by_cases ho : o = p
      · rw [ho]
        exact hself.2.2.1
      · rw [(hother o ho).1] at ho'
        rw [(hother o ho).2.2.1]
        exact h.pending o ho'
    case counted =>
      intro o x hx k hlt hle
      rw [hqueued] at hx
      rcases Nat.lt_or_ge (w.fences o) k with hnew | hold
      · have ho : o = p := by
          by_contra ho
          rw [(hother o ho).2.1] at hle
          omega
        subst ho
        rw [hself.2.1] at hle
        obtain rfl : k = w.fences o + 1 := by omega
        rw [hself.2.2.2.2.2, hq.counters]
        unfold World.queued at hx
        rw [hnil, append_nil] at hx
        exact length_pos_of_mem (mem_filter.mpr ⟨hx, by simp⟩)
      · rw [hkept k o hold]
        exact h.counted o x hx k hlt hold
    case old =>
      intro o x hx
      rw [hqueued] at hx
      exact h.old o x hx
    case young =>
      intro o
      by_cases ho : o = p
      · subst ho
        rw [hself.2.2.1, hself.2.2.2.1, hself.2.1]
        refine ⟨fun x hx => ?_, fun x hx => ?_⟩
        · cases hx
        · exact Nat.lt_succ_of_le ((h.young o).1 x hx)
      · rw [(hother o ho).2.1, (hother o ho).2.2.1, (hother o ho).2.2.2.1]
        exact h.young o
    case inFence => exact h.inFence

theorem Fencing.fenceFailed (h : Fencing w) {p : P}
    (hnone : ∀ q, w.fences p ∈ w.succeeded q → w.contribution (w.fences p) q p = 0) :
    Fencing (w.fenceFailed p) := by
  unfold World.fenceFailed
  split
  · next n hn =>
      have hpending : w.pendingSendreqs p = [] := h.pending p (by simp [hn])
      show Fencing (?after : World P)
      set w' : World P := ?after
      have hself : w'.call p = .idle ∧ w'.failed p = w.fences p :: w.failed p ∧
          w'.pendingSendreqs p = w.copyPendingSendreqs p ∧ w'.copyPendingSendreqs p = [] := by
        refine ⟨upd_self _ _ _, upd_self _ _ _, ?_, upd_self _ _ _⟩
        exact (upd_self _ _ _).trans (by rw [hpending, nil_append])
      have hother : ∀ o, o ≠ p → w'.call o = w.call o ∧ w'.failed o = w.failed o ∧
          w'.pendingSendreqs o = w.pendingSendreqs o ∧
            w'.copyPendingSendreqs o = w.copyPendingSendreqs o := by
        intro o ho
        refine ⟨?_, ?_, ?_, ?_⟩ <;> exact upd_of_ne _ _ ho
      have hqueued : ∀ o, w'.queued o = w.queued o := by
        intro o
        unfold World.queued
        by_cases ho : o = p
        · rw [ho, hself.2.2.1, hself.2.2.2, hpending, append_nil, nil_append]
        · rw [(hother o ho).2.2.1, (hother o ho).2.2.2]
      have hadded : ∀ o, (w'.call o).incoming = (w.call o).incoming ∧
          (w'.call o).outgoing = (w.call o).outgoing := by
        intro o
        by_cases ho : o = p
        · rw [ho, hself.1, hn]
          exact ⟨rfl, rfl⟩
        · rw [(hother o ho).1]
          exact ⟨rfl, rfl⟩
      constructor
      case sent => exact h.sent
      case incoming =>
        intro t
        rw [(hadded t).1]
        exact h.incoming t
      case out =>
        intro o
        rw [(hadded o).2]
        exact h.out o
      case data => exact h.data
      case unlocked => exact h.unlocked
      case barrier => exact h.barrier
      case uniform =>
        intro o t k hk hfailed
        by_cases ht : t = p
        · rw [ht, hself.2.1] at hfailed
          rcases mem_cons.mp hfailed with rfl | hfailed
          · rw [ht]
            exact hnone o hk
          · rw [ht]
            exact h.uniform o p k hk hfailed
        · rw [(hother t ht).2.1] at hfailed
          exact h.uniform o t k hk hfailed
      case entered =>
        intro o k hpos hk
        by_cases ho : o = p
        · subst ho
          rw [hself.2.1]
          rcases h.entered o k hpos hk with hmem | hmem | ⟨hlast, -⟩
          · exact .inl hmem
          · exact .inr (.inl (mem_cons_of_mem _ hmem))
          · exact .inr (.inl (hlast ▸ mem_cons_self))
        · rw [(hother o ho).1, (hother o ho).2.1]
          exact h.entered o k hpos hk
      case reducing =>
        intro o n' hn'
        by_cases ho : o = p
        · rw [ho, hself.1] at hn'
          cases hn'
        · rw [(hother o ho).1] at hn'
          rw [(hother o ho).2.2.2]
          exact h.reducing o n' hn'
      case fenced =>
        intro o ho'
        by_cases ho : o = p
        · exact absurd (ho ▸ hself.1) ho'.1
        · rw [(hother o ho).1] at ho'
          exact h.fenced o ho'
      case calls =>
        intro o
        by_cases ho : o = p
        · rw [ho, hself.1]
          exact ⟨Call.noConfusion, Call.noConfusion⟩
        · rw [(hother o ho).1]
          exact h.calls o
      case pending =>
        intro o ho'
        by_cases ho : o = p
        · exact absurd (ho ▸ hself.1) ho'
        · rw [(hother o ho).1] at ho'
          rw [(hother o ho).2.2.1]
          exact h.pending o ho'
      case counted =>
        intro o x hx
        rw [hqueued] at hx
        exact h.counted o x hx
      case old =>
        intro o x hx
        rw [hqueued] at hx
        exact h.old o x hx
      case young =>
        intro o
        by_cases ho : o = p
        · subst ho
          rw [hself.2.2.1, hself.2.2.2]
          refine ⟨fun x hx => ((h.young o).2 x hx).le, fun x hx => ?_⟩
          cases hx
        · rw [(hother o ho).2.2.1, (hother o ho).2.2.2]
          exact h.young o
      case inFence => exact h.inFence
  · exact h

omit [DecidableEq P] [Fintype P] in
theorem sum_toFinset_cons {l : List ℕ} {K : ℕ} (hK : K ∉ l) (f : ℕ → ℕ) :
    ∑ k ∈ (K :: l).toFinset, f k = f K + ∑ k ∈ l.toFinset, f k := by
  rw [toFinset_cons, Finset.sum_insert fun hmem => hK (mem_toFinset.mp hmem)]

omit [Fintype P] in
theorem World.length_underWay_startSendreqs {p : P} {order : List (Op P)}
    (hstarted : Started z order) (o t : P) :
    ((w.startSendreqs z p order).underWay o t).length = (w.underWay o t).length +
      if o = p then (order.filter fun r => r.target = t).length else 0 := by
  unfold underWay
  rw [flying_startSendreqs hstarted, startSendreqs_eq hstarted,
    length_append, length_append, length_append]
  change _ + (w.begun t o).length = _
  split_ifs
  · omega
  · simp

omit [Fintype P] in
theorem World.mem_underWay_startSendreqs {p : P} {order : List (Op P)}
    (hstarted : Started z order) {o t : P} {x : Op P}
    (hx : x ∈ (w.startSendreqs z p order).underWay o t) :
    x ∈ w.underWay o t ∨ (o = p ∧ x ∈ order ∧ x.target = t) := by
  unfold underWay at hx ⊢
  rw [flying_startSendreqs hstarted, startSendreqs_eq hstarted] at hx
  rcases mem_append.mp hx with hx | hx
  · rcases mem_append.mp hx with hx | hx
    · exact .inl (mem_append_left _ hx)
    · split_ifs at hx with ho
      · obtain ⟨horder, htarget⟩ := mem_filter.mp hx
        exact .inr ⟨ho, horder, of_decide_eq_true htarget⟩
      · cases hx
  · exact .inl (mem_append_right _ hx)

omit [Fintype P] in
theorem World.isData_startSendreqs {p : P} {order : List (Op P)} (hstarted : Started z order)
    (hdata : ∀ a b, ∀ m ∈ w.chan a b, m.isData = true) (a b : P) :
    ∀ m ∈ (w.startSendreqs z p order).chan a b, m.isData = true := by
  intro m hm
  rw [startSendreqs_eq hstarted] at hm
  unfold emit at hm
  simp only at hm
  split_ifs at hm
  · rcases mem_append.mp hm with hm | hm
    · exact hdata a b m hm
    · obtain ⟨r, -, rfl⟩ := mem_map.mp hm
      rfl
  · exact hdata a b m hm

theorem Fencing.startSendreqs (h : Fencing w) (hq : Queues w) {p : P} {outgoing : ℕ}
    {order : List (Op P)} (hn : w.call p = .reducing outgoing)
    (hall : ∀ q, w.fences p ≤ w.fences q) (hperm : order.Perm (w.copyPendingSendreqs p))
    (hstarted : Started z order)
    (hnone : ∀ q, w.fences p ∈ w.failed q → w.contribution (w.fences p) p q = 0) :
    Fencing <| World.startSendreqs z { w with
        call := upd w.call p (.counting (∑ q, w.contribution (w.fences p) q p) outgoing)
        succeeded := upd w.succeeded p (w.fences p :: w.succeeded p) } p order := by
  have hpending : w.pendingSendreqs p = [] := h.pending p (by simp [hn])
  obtain ⟨hnew, hpos, hcontribution, -, -⟩ := h.reducing p outgoing hn
  obtain ⟨hlength, hnum⟩ := hq.reducing p outgoing hn
  set c : Call := .counting (∑ q, w.contribution (w.fences p) q p) outgoing
  set w₁ : World P := { w with
    call := upd w.call p c
    succeeded := upd w.succeeded p (w.fences p :: w.succeeded p) }
  have hway : ∀ o t, ((w₁.startSendreqs z p order).underWay o t).length = _ :=
    length_underWay_startSendreqs hstarted
  have hmem : ∀ o t x, x ∈ (w₁.startSendreqs z p order).underWay o t → _ :=
    fun o t x => mem_underWay_startSendreqs hstarted
  have hdata := isData_startSendreqs (w := w₁) (p := p) hstarted h.data
  rw [startSendreqs_eq hstarted] at hway hmem hdata ⊢
  show Fencing (?after : World P)
  set w' : World P := ?after
  have hself : w'.call p = c ∧ w'.succeeded p = w.fences p :: w.succeeded p ∧
      w'.copyPendingSendreqs p = [] ∧ w'.sending p = w.sending p ++ order :=
    ⟨upd_self _ _ _, upd_self _ _ _, upd_self _ _ _, upd_self _ _ _⟩
  have hother : ∀ o, o ≠ p → w'.call o = w.call o ∧ w'.succeeded o = w.succeeded o ∧
      w'.copyPendingSendreqs o = w.copyPendingSendreqs o ∧ w'.sending o = w.sending o := by
    intro o ho
    refine ⟨?_, ?_, ?_, ?_⟩ <;> exact upd_of_ne _ _ ho
  have hqueued : ∀ o, ∀ x ∈ w'.queued o, x ∈ w.queued o ∧ o ≠ p := by
    intro o x hx
    unfold queued at hx ⊢
    by_cases ho : o = p
    · rw [ho, hself.2.2.1, append_nil] at hx
      rw [show w'.pendingSendreqs p = [] from hpending] at hx
      cases hx
    · rw [(hother o ho).2.2.1] at hx
      exact ⟨hx, ho⟩
  constructor
  case sent =>
    intro o t
    rw [hway]
    change (w.applied t o).length + ((w.underWay o t).length + _) = _
    have hsent := h.sent o t
    unfold sentTo at hsent ⊢
    by_cases ho : o = p
    · subst ho
      have hfilter := (hperm.filter fun r => decide (r.target = t)).length_eq
      rw [if_pos rfl, hself.2.1, sum_toFinset_cons hnew, hfilter, ← hnum, ← hcontribution]
      change _ = w.contribution _ o t + ∑ k ∈ (w.succeeded o).toFinset, w.contribution k o t
      omega
    · rw [if_neg ho, (hother o ho).2.1]
      exact hsent
  case incoming =>
    intro t
    have hin := h.incoming t
    change w.numPendingIn t + w.appliedAt t + _ = _
    unfold expected at hin ⊢
    by_cases ht : t = p
    · subst ht
      rw [hn] at hin
      rw [hself.1, hself.2.1, sum_toFinset_cons hnew]
      change _ + ((∑ q, w.contribution (w.fences t) q t : ℕ) : ℤ) =
        ((∑ q, w.contribution (w.fences t) q t) + ∑ k ∈ (w.succeeded t).toFinset,
          ∑ q, w.contribution k q t : ℕ)
      simp only [Call.incoming] at hin
      omega
    · rw [(hother t ht).1, (hother t ht).2.1]
      exact hin
  case out =>
    intro o
    have hout := h.out o
    change w.numPendingOut o + _ = _
    by_cases ho : o = p
    · subst ho
      rw [hn] at hout
      rw [hself.1, hself.2.2.2, length_append, hperm.length_eq, ← hlength]
      simp only [Call.outgoing, c] at hout ⊢
      omega
    · rw [(hother o ho).1, (hother o ho).2.2.2]
      exact hout
  case data => exact hdata
  case unlocked => exact h.unlocked
  case barrier =>
    intro o k hk
    by_cases ho : o = p
    · rw [ho, hself.2.1] at hk
      rcases mem_cons.mp hk with rfl | hk
      · exact ⟨hpos, hall⟩
      · exact h.barrier p k hk
    · rw [(hother o ho).2.1] at hk
      exact h.barrier o k hk
  case uniform =>
    intro o t k hk hfailed
    by_cases ho : o = p
    · rw [ho]
      rw [ho, hself.2.1] at hk
      rcases mem_cons.mp hk with rfl | hk
      · exact hnone t hfailed
      · exact h.uniform p t k hk hfailed
    · rw [(hother o ho).2.1] at hk
      exact h.uniform o t k hk hfailed
  case entered =>
    intro o k hk hle
    by_cases ho : o = p
    · subst ho
      rw [hself.2.1]
      rcases h.entered o k hk hle with hmem | hmem | ⟨hlast, -⟩
      · exact .inl (mem_cons_of_mem _ hmem)
      · exact .inr (.inl hmem)
      · exact .inl (hlast ▸ mem_cons_self)
    · rw [(hother o ho).1, (hother o ho).2.1]
      exact h.entered o k hk hle
  case reducing =>
    intro o n hn'
    by_cases ho : o = p
    · rw [ho, hself.1] at hn'
      exact Call.noConfusion hn'
    · rw [(hother o ho).1] at hn'
      rw [(hother o ho).2.1, (hother o ho).2.2.1]
      exact h.reducing o n hn'
  case fenced =>
    intro o ho'
    by_cases ho : o = p
    · rw [ho, hself.2.1]
      exact mem_cons_self
    · rw [(hother o ho).1] at ho'
      rw [(hother o ho).2.1]
      exact h.fenced o ho'
  case calls =>
    intro o
    by_cases ho : o = p
    · rw [ho, hself.1]
      exact ⟨Call.noConfusion, Call.noConfusion⟩
    · rw [(hother o ho).1]
      exact h.calls o
  case pending =>
    intro o ho'
    by_cases ho : o = p
    · rw [ho]
      exact hpending
    · rw [(hother o ho).1] at ho'
      exact h.pending o ho'
  case counted =>
    intro o x hx
    exact h.counted o x (hqueued o x hx).1
  case old =>
    intro o x hx
    rw [(hother o (hqueued o x hx).2).2.1]
    exact h.old o x (hqueued o x hx).1
  case young =>
    intro o
    refine ⟨(h.young o).1, fun x hx => ?_⟩
    by_cases ho : o = p
    · rw [ho, hself.2.2.1] at hx
      cases hx
    · rw [(hother o ho).2.2.1] at hx
      exact (h.young o).2 x hx
  case inFence =>
    intro o t x hx
    have hx' : (x ∈ w.underWay o t ∨ x ∈ w.applied t o) ∨ (o = p ∧ x ∈ order ∧ x.target = t) := by
      rcases hx with hx | hx
      · exact (hmem o t x hx).imp_left .inl
      · exact .inl (.inr hx)
    by_cases ho : o = p
    · subst ho
      rw [hself.2.1]
      rcases hx' with hx' | ⟨-, hx', htarget⟩
      · obtain ⟨htarget, k, hk, hlt⟩ := h.inFence o t x hx'
        exact ⟨htarget, k, mem_cons_of_mem _ hk, hlt⟩
      · exact ⟨htarget, w.fences o, mem_cons_self, (h.young o).2 x (hperm.mem_iff.mp hx')⟩
    · rw [(hother o ho).2.1]
      exact h.inFence o t x (hx'.resolve_right fun hx => ho hx.1)

theorem Fencing.reduced (h : Fencing w) (htr : Transfer z w) (hq : Queues w) {p : P}
    {order : List (Op P)}
    (hnone : ∀ q, w.fences p ∈ w.failed q → w.contribution (w.fences p) p q = 0) :
    Fencing (w.reduced z p order) := by
  unfold World.reduced
  split
  · next outgoing hn =>
      split
      · next hcall =>
          have hperm := isPerm_iff.mp hcall.2
          have hstarted : Started z order := fun r hr =>
            (htr.sendable p r (mem_append_right _ (hperm.mem_iff.mp hr))).1
          simp only [if_pos hstarted]
          exact h.startSendreqs hq hn hcall.1 hperm hstarted hnone
      · exact h
  · exact h

theorem Fencing.advance (h : Fencing w) {p : P} {c : Call} {incoming outgoing : ℤ}
    (hold : w.call p ≠ .idle ∧ ∀ n, w.call p ≠ .reducing n) (hc : c = .idle ∨ c = .fencing)
    (hin : incoming = w.numPendingIn p + (w.call p).incoming)
    (hout : outgoing = w.numPendingOut p + (w.call p).outgoing) :
    Fencing { w with
      numPendingIn := upd w.numPendingIn p incoming
      numPendingOut := upd w.numPendingOut p outgoing
      call := upd w.call p c } := by
  have hfenced : w.fences p ∈ w.succeeded p := h.fenced p hold
  have hnothing : c.incoming = 0 ∧ c.outgoing = 0 := by
    rcases hc with rfl | rfl <;> exact ⟨rfl, rfl⟩
  have hcall : ∀ n, c ≠ .reducing n := by
    rcases hc with rfl | rfl <;> exact fun _ => Call.noConfusion
  have hother : ∀ o, o ≠ p → upd w.call p c o = w.call o := fun o ho => upd_of_ne _ _ ho
  have hself : upd w.call p c p = c := upd_self _ _ _
  constructor
  case sent => exact h.sent
  case data => exact h.data
  case unlocked => exact h.unlocked
  case barrier => exact h.barrier
  case uniform => exact h.uniform
  case counted => exact h.counted
  case old => exact h.old
  case young => exact h.young
  case inFence => exact h.inFence
  case incoming =>
    intro t
    have hin' := h.incoming t
    change upd w.numPendingIn p incoming t + w.appliedAt t + (upd w.call p c t).incoming = _
    by_cases ht : t = p
    · subst ht
      rw [hself, upd_self, hnothing.1, hin]
      change _ = (w.expected t : ℤ)
      omega
    · rw [hother t ht, upd_of_ne _ _ ht]
      exact hin'
  case out =>
    intro o
    have hout' := h.out o
    change upd w.numPendingOut p outgoing o + (upd w.call p c o).outgoing = (w.sending o).length
    by_cases ho : o = p
    · subst ho
      rw [hself, upd_self, hnothing.2, hout]
      omega
    · rw [hother o ho, upd_of_ne _ _ ho]
      exact hout'
  case entered =>
    intro o k hpos hle
    rcases h.entered o k hpos hle with hmem | hmem | ⟨hlast, n, hn⟩
    · exact .inl hmem
    · exact .inr (.inl hmem)
    · have ho : o ≠ p := fun ho => hold.2 n (ho ▸ hn)
      exact .inr (.inr ⟨hlast, n, (hother o ho).trans hn⟩)
  case reducing =>
    intro o n hn
    have ho : o ≠ p := fun ho => hcall n (hself.symm.trans (ho ▸ hn))
    exact h.reducing o n ((hother o ho).symm.trans hn)
  case fenced =>
    intro o ho'
    by_cases ho : o = p
    · rw [ho]
      exact hfenced
    · simp only [hother o ho] at ho'
      exact h.fenced o ho'
  case calls =>
    intro o
    by_cases ho : o = p
    · simp only [ho, hself]
      rcases hc with rfl | rfl <;> exact ⟨Call.noConfusion, Call.noConfusion⟩
    · simp only [hother o ho]
      exact h.calls o
  case pending =>
    intro o ho'
    by_cases ho : o = p
    · rw [ho]
      exact h.pending p hold.1
    · simp only [hother o ho] at ho'
      exact h.pending o ho'

theorem Fencing.counted_event (h : Fencing w) (p : P) : Fencing (w.counted p) := by
  unfold World.counted
  split
  · next incoming outgoing hc =>
      refine h.advance (by simp [hc]) (.inr rfl) ?_ ?_ <;> rw [hc] <;> rfl
  · exact h

theorem Fencing.fenced_event (h : Fencing w) (p : P) : Fencing (w.fenced p) := by
  unfold World.fenced
  split_ifs with hcall
  · have hin : w.numPendingIn p = w.numPendingIn p + (w.call p).incoming := by
      rw [hcall.1]
      exact (Int.add_zero _).symm
    have hout : w.numPendingOut p = w.numPendingOut p + (w.call p).outgoing := by
      rw [hcall.1]
      exact (Int.add_zero _).symm
    have hidle := h.advance (c := .idle) (by simp [hcall.1]) (.inl rfl) hin hout
    rwa [upd_eq_self, upd_eq_self] at hidle
  · exact h

end Calls

end Ulfm.Osc
