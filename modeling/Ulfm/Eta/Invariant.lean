import Ulfm.Eta.Harvest
import Ulfm.Foundation.EarlyStopping

/-!
# What holds in every run

The invariant connects a world with the rounds of messages that it has seen. The
messages on their way carry what their senders held at the beginning of a round, the
message `out` of a process is one round ahead, and the flags of a process tell which
messages it has taken. The rounds in which a process knows, and those in which it has
found a failure, are not part of the state; they are carried beside it.
-/

namespace Ulfm

open List Function Bool

namespace Eta

variable {np : ℕ}

/-- The contribution of `x` comes from `x` alone. -/
def contributes (x : Fin np) (i : Fin np) (s : ℕ) : Prop := i = x ∧ s = 0

/-- The message `m` says whether `i` knows in the round `r`, and carries what `i` holds
at the beginning of the round `s`. -/
structure Carries (cfg : Config np) (E : Exchange (Fin np)) (marks : Fin np → ℕ → Prop)
    (i : Fin np) (r s : ℕ) (m : Msg) : Prop where
  flag : m.knows = 0#32 ∨ m.knows = 1#32
  knows : m.knows = 1#32 ↔ E.knows i r
  pf : m.pf ≠ 0#32 ↔ E.Holds marks s i
  value : ∃ l : List (Fin np), (∀ x, x ∈ l ↔ E.Holds (contributes x) s i) ∧
    reduceList cfg.reduce (l.map cfg.contrib) = some m.estValue

/-- The messages that have been taken, and the rounds in which a process knows. -/
def World.exchange (w : World np) (knows : Fin np → ℕ → Prop) : Exchange (Fin np) :=
  ⟨w.taken, knows⟩

namespace Proc

theorem crashed_lt : 0 < 32 := by decide

theorem acked_lt : 1 < 32 := by decide

theorem told_lt : 2 < 32 := by decide

theorem knowsIKnow_lt : 3 < 32 := by decide

theorem sendComplete_lt : 4 < 32 := by decide

theorem recvComplete_lt : 5 < 32 := by decide

/-- The rank `j` is marked as crashed. -/
def Crashed (p : Proc np) (j : Fin np) : Prop := getElem (p.procStatus j) 0 crashed_lt = true

/-- The rank `j` has told that it knows. -/
def Told (p : Proc np) (j : Fin np) : Prop := getElem (p.procStatus j) 2 told_lt = true

instance (p : Proc np) : DecidablePred p.Crashed := fun _ => inferInstanceAs (Decidable (_ = _))

instance (p : Proc np) : DecidablePred p.Told := fun _ => inferInstanceAs (Decidable (_ = _))

/-- The requests for the rank `j` are posted in the current round. -/
def Posted (p : Proc np) (j : Fin np) : Prop :=
  match p.phase with
  | .posting k => (j : ℕ) < k
  | .waiting => True
  | _ => False

end Proc

/-- The part of the invariant about the process `i` and its messages. -/
structure Sending (cfg : Config np) (E : Exchange (Fin np)) (marks : Fin np → ℕ → Prop)
    (i : Fin np) (p : Proc np) (sent : Fin np → List Msg) : Prop where
  idle : p.phase = .idle → p.round = 0
  round_pos : p.phase ≠ .idle → 1 ≤ p.round
  round_le : p.phase ≠ .returned → p.round ≤ np + 1
  known : ∀ s, E.knows i s → s ≤ p.round
  marked : ∀ s, marks i s → 1 ≤ s ∧ s ≤ p.round
  fresh : ∀ k, p.phase = .posting k → ¬marks i p.round
  carries : ∀ j k m, (sent j)[k]? = some m → Carries cfg E marks i (k + 1) (k + 1) m
  length : ∀ j, (sent j).length ≤ p.round
  length_open : ∀ (j : Fin np) k, p.phase = .posting k → k ≤ j → p.needToSend i j →
    (sent j).length + 1 = p.round
  length_posted : ∀ j, p.Posted j → p.needToSend i j → (sent j).length = p.round
  out : p.phase ≠ .idle → Carries cfg E marks i p.round (p.round + 1) p.out
  stopped : p.phase = .returned → E.knows i p.round ∧ p.round ≤ np + 1 ∨ p.round = np + 2

/-- The part about what the process `i` has taken from `j`: `t` messages of the `len`
ones that `j` has sent. On its side `j` has taken `back` messages of `i`. -/
structure Taking (knows : Fin np → ℕ → Prop) (i j : Fin np) (p : Proc np) (t len : ℕ)
    (dead : Bool) (phase : Phase) (back : ℕ) : Prop where
  le_sent : t ≤ len
  le_round : t ≤ p.round
  lt_round : ∀ k, p.phase = .posting k → t < p.round
  self : i = j → t = 0 ∧ ¬p.Crashed j
  told : p.Told j ↔ ∃ s ≤ t, knows j s
  crashed : p.Crashed j → dead = true
  settled : p.phase ≠ .idle → i ≠ j → p.round ≤ t + 1 ∨ p.Told j ∨ p.Crashed j
  isOpen : p.Posted j → p.recvOpen j → i ≠ j ∧ t + 1 = p.round
  complete : p.Posted j → p.recvOpen j = false → i ≠ j → p.round ≤ t ∨ p.Told j ∨ p.Crashed j
  returned : p.phase = .returned → i ≠ j → p.Told j ∨ p.Crashed j ∨ np + 1 ≤ t
  missed : p.Crashed j → phase = .returned → p.Told j ∨ (∃ s ≤ t + 1, s ≤ back ∧ knows i s) ∨ np ≤ t

/-- What holds in every state that a run reaches. -/
structure Inv (cfg : Config np) (w : World np) (knows marks : Fin np → ℕ → Prop) : Prop where
  sound : (w.exchange knows).Sound
  sending : ∀ i, Sending cfg (w.exchange knows) marks i (w.procs i) (w.sent i)
  taking : ∀ i j, Taking knows i j (w.procs i) (w.taken i j) (w.sent j i).length (w.dead j)
    (w.procs j).phase (w.taken j i)

variable {cfg : Config np} {w : World np} {knows marks : Fin np → ℕ → Prop}

theorem inv_init (cfg : Config np) :
    Inv cfg (World.init np) (fun _ _ => False) (fun _ _ => False) := by
  refine ⟨⟨fun i s h => h.elim, fun i r h => h.elim⟩, fun i => ?_, fun i j => ?_⟩
  · refine ⟨fun _ => rfl, fun h => absurd rfl h, fun _ => Nat.zero_le _, fun s h => h.elim,
      fun s h => h.elim, fun k h => (nomatch h), fun j k m h => ?_, fun j => le_refl _,
      fun j k h => (nomatch h), fun j h => h.elim, fun h => absurd rfl h, fun h => (nomatch h)⟩
    simp [World.init] at h
  · refine ⟨le_refl _, le_refl _, fun k h => (nomatch h), fun _ => ⟨rfl, ?_⟩, ?_, ?_,
      fun h => absurd rfl h, fun h => h.elim, fun h => h.elim, fun h => (nomatch h), ?_⟩
    · simp [Proc.Crashed, World.init]
    · simp [Proc.Told, World.init]
    · simp [Proc.Crashed, World.init]
    · simp [Proc.Crashed, World.init]

theorem Taking.mono {i j : Fin np} {p : Proc np} {t len len' back back' : ℕ} {dead dead' : Bool}
    {phase phase' : Phase} (h : Taking knows i j p t len dead phase back) (hlen : len ≤ len')
    (hdead : dead = true → dead' = true) (hphase : phase' = .returned → phase = .returned)
    (hback : back ≤ back') : Taking knows i j p t len' dead' phase' back' := by
  refine ⟨h.le_sent.trans hlen, h.le_round, h.lt_round, h.self, h.told,
    fun hc => hdead (h.crashed hc), h.settled, h.isOpen, h.complete, h.returned, fun hc hr => ?_⟩
  rcases h.missed hc (hphase hr) with htold | ⟨s, hst, hsb, hs⟩ | hall
  · exact .inl htold
  · exact .inr (.inl ⟨s, hst, hsb.trans hback, hs⟩)
  · exact .inr (.inr hall)

theorem Inv.crash (h : Inv cfg w knows marks) (i : Fin np) :
    Inv cfg (w.step cfg (.crash i)) knows marks := by
  refine ⟨h.sound, h.sending, fun j k =>
    (h.taking j k).mono (le_refl _) (fun hk => ?_) id (le_refl _)⟩
  change update w.dead i true k = true
  rcases eq_or_ne k i with rfl | hne
  · exact update_self ..
  · rw [update_of_ne hne]
    exact hk

theorem World.setProc_procs_self (w : World np) (me : Fin np) (p : Proc np) :
    (w.setProc me p).procs me = p :=
  update_self ..

theorem World.setProc_procs_of_ne (w : World np) {me i : Fin np} (hi : i ≠ me) (p : Proc np) :
    (w.setProc me p).procs i = w.procs i :=
  update_of_ne hi ..

section Start

variable {me : Fin np} {cranks : List (Fin np)}

theorem holds_two_iff {E : Exchange (Fin np)} {origin : Fin np → ℕ → Prop}
    (htaken : ∀ j, E.taken me j = 0) (horigin : ¬origin me 1) :
    E.Holds origin 2 me ↔ origin me 0 := by
  rw [Exchange.holds_succ_iff (fun j => by rw [htaken j]; exact Nat.one_pos) horigin]
  simp [Exchange.Holds]

theorem start_procStatus (cfg : Config np) (me : Fin np) (cranks : List (Fin np)) (j : Fin np) :
    ((Proc.start cfg me cranks).Crashed j → j ∈ cranks) ∧ ¬(Proc.start cfg me cranks).Told j := by
  rw [Proc.Crashed, Proc.Told, Proc.start]
  by_cases hj : j ∈ cranks
  · simp [hj, statusAcrashed, statusCrashed]
  · simp [hj]

theorem Inv.not_returned (h : Inv cfg w knows marks) (halive : w.dead me = false)
    (hidle : (w.procs me).phase = .idle) {j : Fin np} (hj : me ≠ j) :
    (w.procs j).phase ≠ .returned := by
  intro hreturned
  have hround := (h.sending me).idle hidle
  have htaken : w.taken j me = 0 := by
    have h1 := (h.taking j me).le_sent
    have h2 := (h.sending me).length j
    omega
  rcases (h.taking j me).returned hreturned hj.symm with htold | hcrashed | hall
  · obtain ⟨s, hs, hknows⟩ := (h.taking j me).told.1 htold
    have htwo := h.sound.two_le me s hknows
    omega
  · rw [(h.taking j me).crashed hcrashed] at halive
    cases halive
  · omega

theorem Inv.sending_start (h : Inv cfg w knows marks) (hidle : (w.procs me).phase = .idle) :
    Sending cfg (w.exchange knows) marks me (.start cfg me cranks) (w.sent me) := by
  have hround := (h.sending me).idle hidle
  have hmarks : ∀ s, ¬marks me s := by
    intro s hs
    have := (h.sending me).marked s hs
    omega
  have hknows : ∀ s, ¬knows me s := by
    intro s hs
    have h1 := (h.sending me).known s hs
    have h2 := h.sound.two_le me s hs
    omega
  have hlength : ∀ j, (w.sent me j).length = 0 := by
    intro j
    have := (h.sending me).length j
    omega
  have htaken : ∀ j, (w.exchange knows).taken me j = 0 := by
    intro j
    have h1 : w.taken me j ≤ _ := (h.taking me j).le_round
    exact Nat.le_zero.1 (h1.trans (le_of_eq hround))
  refine ⟨fun hp => (nomatch hp), fun _ => le_refl _, fun _ => Nat.le_add_left 1 np,
    fun s hs => absurd hs (hknows s), fun s hs => absurd hs (hmarks s), fun k _ => hmarks _,
    (h.sending me).carries, fun j => ?_, fun j k _ _ _ => ?_, fun j hp => ?_, fun _ => ?_,
    fun hp => (nomatch hp)⟩
  · rw [hlength j]
    exact Nat.zero_le _
  · rw [hlength j]
    rfl
  · exact absurd hp (Nat.not_lt_zero _)
  · refine ⟨.inl rfl, ?_, ?_, [me], fun x => ?_, rfl⟩
    · exact iff_of_false (fun h1 => by cases h1) (hknows 1)
    · refine iff_of_false (fun hne => hne rfl) fun hholds => hmarks 0 ?_
      exact (holds_two_iff htaken (hmarks 1)).1 hholds
    · have horigin : ¬contributes x me 1 := fun h1 => Nat.one_ne_zero h1.2
      rw [mem_singleton]
      refine Iff.trans ?_ (holds_two_iff htaken horigin).symm
      simp [contributes, eq_comm]

theorem Inv.start (h : Inv cfg w knows marks) (halive : w.dead me = false)
    (hidle : (w.procs me).phase = .idle) (hcranks : ∀ i ∈ cranks, w.dead i) :
    Inv cfg (w.setProc me (.start cfg me cranks)) knows marks := by
  have hme := w.setProc_procs_self me (.start cfg me cranks)
  have hne : ∀ i, i ≠ me → (w.setProc me (.start cfg me cranks)).procs i = w.procs i :=
    fun i hi => w.setProc_procs_of_ne hi _
  have hround := (h.sending me).idle hidle
  refine ⟨h.sound, fun i => ?_, fun i j => ?_⟩
  · rcases eq_or_ne i me with rfl | hi
    · rw [hme]
      exact h.sending_start hidle
    · rw [hne i hi]
      exact h.sending i
  · have hphase : ((w.setProc me (.start cfg me cranks)).procs j).phase = .returned →
        (w.procs j).phase = .returned := by
      rcases eq_or_ne j me with rfl | hj
      · rw [hme]
        exact fun hp => (nomatch hp)
      · rw [hne j hj]
        exact id
    rcases eq_or_ne i me with rfl | hi
    · have htaken : w.taken i j = 0 := by
        have := (h.taking i j).le_round
        omega
      obtain ⟨hcrashed, htold⟩ := start_procStatus cfg i cranks j
      rw [hme]
      refine ⟨(h.taking i j).le_sent, ?_, fun k _ => ?_, fun hij => ⟨htaken, fun hc => ?_⟩, ?_,
        fun hc => hcranks j (hcrashed hc), fun _ _ => ?_, fun hp => ?_, fun hp => ?_,
        fun hp => (nomatch hp), fun hc hr => ?_⟩
      · exact htaken.le.trans (Nat.zero_le _)
      · exact htaken.le.trans_lt Nat.one_pos
      · rw [hcranks i (hij ▸ hcrashed hc)] at halive
        cases halive
      · refine iff_of_false htold ?_
        rintro ⟨s, hs, hknows⟩
        have htwo := h.sound.two_le j s hknows
        have hs : s ≤ w.taken i j := hs
        omega
      · exact .inl (Nat.le_add_left 1 _)
      · exact absurd hp (Nat.not_lt_zero _)
      · exact absurd hp (Nat.not_lt_zero _)
      · have hij : i ≠ j := by
          rintro rfl
          rw [hcranks i (hcrashed hc)] at halive
          cases halive
        exact absurd (hphase hr) (h.not_returned halive hidle hij)
    · rw [hne i hi]
      exact (h.taking i j).mono (le_refl _) id hphase (le_refl _)

end Start

section Post

variable {me i j : Fin np} {p : Proc np}

theorem postRequests_spec (p : Proc np) (me i : Fin np) :
    ∃ status : BitVec 32, p.postRequests me i = p.setStatus i status ∧
      getElem status 0 Proc.crashed_lt = getElem (p.procStatus i) 0 Proc.crashed_lt ∧
      getElem status 1 Proc.acked_lt = getElem (p.procStatus i) 1 Proc.acked_lt ∧
      getElem status 2 Proc.told_lt = getElem (p.procStatus i) 2 Proc.told_lt ∧
      getElem status 3 Proc.knowsIKnow_lt = getElem (p.procStatus i) 3 Proc.knowsIKnow_lt ∧
      getElem status 4 Proc.sendComplete_lt = !p.needToSend me i ∧
      getElem status 5 Proc.recvComplete_lt = !p.needToRecv me i := by
  set recvStatus : BitVec 32 := if p.needToRecv me i then p.procStatus i &&& ~~~statusRecvComplete
    else p.procStatus i ||| statusRecvComplete with hrecv
  set sendStatus : BitVec 32 := if (p.setStatus i recvStatus).needToSend me i then
    recvStatus &&& ~~~statusSendComplete else recvStatus ||| statusSendComplete with hsend
  have hself : (p.setStatus i recvStatus).procStatus i = recvStatus := update_self ..
  refine ⟨sendStatus, ?_, ?_⟩
  · have hset : ∀ a b, (p.setStatus i a).setStatus i b = p.setStatus i b := by
      intro a b
      simp [Proc.setStatus]
    have hfirst : (if p.needToRecv me i then
        p.setStatus i (p.procStatus i &&& ~~~statusRecvComplete)
        else p.setStatus i (p.procStatus i ||| statusRecvComplete)) =
        p.setStatus i recvStatus := (apply_ite (p.setStatus i) _ _ _).symm
    rw [Proc.postRequests, hfirst]
    simp only [hself, hset]
    exact (apply_ite (p.setStatus i) _ _ _).symm
  · have hrecvBits : recvStatus[0] = (p.procStatus i)[0] ∧ recvStatus[1] = (p.procStatus i)[1] ∧
        recvStatus[2] = (p.procStatus i)[2] ∧ recvStatus[3] = (p.procStatus i)[3] ∧
        recvStatus[5] = !p.needToRecv me i := by
      rw [hrecv]
      cases p.needToRecv me i with
      | true | false => simp [statusRecvComplete]
    obtain ⟨r0, r1, r2, r3, r5⟩ := hrecvBits
    have hneed : (p.setStatus i recvStatus).needToSend me i = p.needToSend me i := by
      rw [Proc.needToSend, Proc.needToSend, hself, isSet_crashed, isSet_crashed,
        isSet_knowsIKnow, isSet_knowsIKnow, r0, r3]
    rw [hsend, hneed, ← r0, ← r1, ← r2, ← r3, ← r5]
    cases p.needToSend me i with
    | true | false => simp [statusSendComplete]

/-- What is the same after the posting loop has handled a rank. -/
structure Proc.PostedRank (p q : Proc np) (me i : Fin np) : Prop where
  round : q.round = p.round
  out : q.out = p.out
  crashed : ∀ j, q.Crashed j ↔ p.Crashed j
  acked : ∀ j, (q.procStatus j)[1] = (p.procStatus j)[1]
  told : ∀ j, q.Told j ↔ p.Told j
  needToSend : ∀ j, q.needToSend me j = p.needToSend me j
  recvOpen : ∀ j, j ≠ i → q.recvOpen j = p.recvOpen j
  recvOpen_self : q.recvOpen i = p.needToRecv me i
  sendOpen : ∀ j, j ≠ i → q.sendOpen j = p.sendOpen j
  sendOpen_self : q.sendOpen i = p.needToSend me i
  phase : q.phase = .waiting ∨ q.phase = .posting (i + 1)
  posted : ∀ j, q.Posted j → p.Posted j ∨ j = i

theorem postedRank (me : Fin np) (hphase : p.phase = .posting i) :
    p.PostedRank ((p.postRequests me i).nextRank i) me i := by
  obtain ⟨status, hstatus, h0, h1, h2, h3, h4, h5⟩ := postRequests_spec p me i
  have hself : ((p.postRequests me i).nextRank i).procStatus i = status := by
    rw [hstatus]
    exact update_self ..
  have hne : ∀ j, j ≠ i → ((p.postRequests me i).nextRank i).procStatus j = p.procStatus j := by
    intro j hj
    rw [hstatus]
    exact Function.update_of_ne hj ..
  have hbits : ∀ j, (((p.postRequests me i).nextRank i).procStatus j)[0] = (p.procStatus j)[0] ∧
      (((p.postRequests me i).nextRank i).procStatus j)[1] = (p.procStatus j)[1] ∧
      (((p.postRequests me i).nextRank i).procStatus j)[2] = (p.procStatus j)[2] ∧
      (((p.postRequests me i).nextRank i).procStatus j)[3] = (p.procStatus j)[3] := by
    intro j
    rcases eq_or_ne j i with rfl | hj
    · rw [hself]
      exact ⟨h0, h1, h2, h3⟩
    · rw [hne j hj]
      exact ⟨rfl, rfl, rfl, rfl⟩
  have hphase' : ((p.postRequests me i).nextRank i).phase =
      if (i : ℕ) + 1 = np then .waiting else .posting (i + 1) := rfl
  refine ⟨by rw [hstatus]; rfl, by rw [hstatus]; rfl, fun j => ?_, fun j => (hbits j).2.1,
    fun j => ?_, fun j => ?_, fun j hj => ?_, ?_, fun j hj => ?_, ?_, ?_, fun j hj => ?_⟩
  · rw [Proc.Crashed, Proc.Crashed, (hbits j).1]
  · rw [Proc.Told, Proc.Told, (hbits j).2.2.1]
  · rw [Proc.needToSend, Proc.needToSend, isSet_crashed, isSet_crashed, isSet_knowsIKnow,
      isSet_knowsIKnow, (hbits j).1, (hbits j).2.2.2]
  · rw [Proc.recvOpen, Proc.recvOpen, hne j hj]
  · rw [Proc.recvOpen, hself, isSet_recvComplete, h5, Bool.not_not]
  · rw [Proc.sendOpen, Proc.sendOpen, hne j hj]
  · rw [Proc.sendOpen, hself, isSet_sendComplete, h4, Bool.not_not]
  · rw [hphase']
    split_ifs
    · exact .inl rfl
    · exact .inr rfl
  · have hle : (j : ℕ) ≤ i := by
      rw [Proc.Posted, hphase'] at hj
      split_ifs at hj with hlast
      · have := j.isLt
        omega
      · exact Nat.lt_succ_iff.1 hj
    rcases Nat.lt_or_eq_of_le hle with hlt | heq
    · left
      rw [Proc.Posted, hphase]
      exact hlt
    · exact .inr (Fin.ext heq)

theorem Inv.carries_out (h : Inv cfg w knows marks) {k : ℕ}
    (hphase : (w.procs me).phase = .posting k) :
    Carries cfg (w.exchange knows) marks me (w.procs me).round (w.procs me).round
      (w.procs me).out := by
  have hidle : (w.procs me).phase ≠ .idle := by
    rw [hphase]
    exact fun hp => (nomatch hp)
  have hpos := (h.sending me).round_pos hidle
  have htaken : ∀ j, (w.exchange knows).taken me j < (w.procs me).round :=
    fun j => (h.taking me j).lt_round k hphase
  obtain ⟨hflag, hknows, hpf, l, hl, hvalue⟩ := (h.sending me).out hidle
  refine ⟨hflag, hknows, ?_, l, fun x => ?_, hvalue⟩
  · rw [hpf, Exchange.holds_succ_iff htaken ((h.sending me).fresh k hphase)]
  · rw [hl x, Exchange.holds_succ_iff htaken]
    intro hx
    have := hx.2
    omega

theorem Inv.sending_post (h : Inv cfg w knows marks) (hphase : (w.procs me).phase = .posting i) :
    Sending cfg (w.exchange knows) marks me (((w.procs me).postRequests me i).nextRank i)
      ((w.post me i).sent me) := by
  have hq := postedRank me hphase
  set q := ((w.procs me).postRequests me i).nextRank i
  have hout := h.carries_out hphase
  have h0 := h.sending me
  have hmid : q.phase ≠ .idle ∧ q.phase ≠ .returned := by
    rcases hq.phase with hp | hp
    · rw [hp]
      exact ⟨fun h => (nomatch h), fun h => (nomatch h)⟩
    · rw [hp]
      exact ⟨fun h => (nomatch h), fun h => (nomatch h)⟩
  have hidle : (w.procs me).phase ≠ .idle := by
    rw [hphase]
    exact fun hp => (nomatch hp)
  have hother : ∀ j, j ≠ i → (w.post me i).sent me j = w.sent me j := by
    intro j hj
    exact if_neg fun hc => hj hc.2.1
  have hsent : (w.post me i).sent me i = if (w.procs me).needToSend me i then
      w.sent me i ++ [(w.procs me).out] else w.sent me i := by
    have hout' : ((w.procs me).postRequests me i).out = (w.procs me).out := hq.out
    simp [World.post, hout']
  have hlen : (w.procs me).needToSend me i → (w.sent me i).length + 1 = (w.procs me).round :=
    h0.length_open i i hphase (le_refl _)
  have hlast : (w.procs me).needToSend me i →
      ((w.post me i).sent me i).length = (w.procs me).round := by
    intro hneed
    rw [hsent, if_pos hneed, length_append]
    exact hlen hneed
  refine ⟨fun hp => absurd hp hmid.1, fun _ => ?_, fun _ => ?_, fun s hs => ?_, fun s hs => ?_,
    fun k hp => ?_, fun j k m hm => ?_, fun j => ?_, fun j k hp hkj hneed => ?_,
    fun j hp hneed => ?_, fun _ => ?_, fun hp => absurd hp hmid.2⟩
  · rw [hq.round]
    exact h0.round_pos hidle
  · rw [hq.round]
    exact h0.round_le (by rw [hphase]; exact fun hp => (nomatch hp))
  · rw [hq.round]
    exact h0.known s hs
  · rw [hq.round]
    exact h0.marked s hs
  · rw [hq.round]
    exact h0.fresh i hphase
  · rcases eq_or_ne j i with rfl | hj
    · rw [hsent] at hm
      split_ifs at hm with hneed
      · rw [getElem?_append] at hm
        split_ifs at hm with hk
        · exact h0.carries j k m hm
        · rw [List.getElem?_singleton] at hm
          split_ifs at hm with hk0
          obtain rfl := Option.some.inj hm
          have hround : (w.procs me).round = k + 1 := by
            have := hlen hneed
            omega
          rw [hround] at hout
          exact hout
      · exact h0.carries j k m hm
    · rw [hother j hj] at hm
      exact h0.carries j k m hm
  · rw [hq.round]
    rcases eq_or_ne j i with rfl | hj
    · by_cases hneed : (w.procs me).needToSend me j
      · exact (hlast hneed).le
      · rw [hsent, if_neg hneed]
        exact h0.length j
    · rw [hother j hj]
      exact h0.length j
  · rw [hq.needToSend j] at hneed
    have hk : k = i + 1 := by
      rcases hq.phase with hp' | hp'
      · rw [hp'] at hp
        cases hp
      · rw [hp'] at hp
        exact (Phase.posting.inj hp).symm
    have hji : j ≠ i := by
      rintro rfl
      omega
    rw [hother j hji, hq.round]
    exact h0.length_open j i hphase (by omega) hneed
  · rw [hq.needToSend j] at hneed
    rw [hq.round]
    rcases eq_or_ne j i with rfl | hj
    · exact hlast hneed
    · rw [hother j hj]
      exact h0.length_posted j ((hq.posted j hp).resolve_right hj) hneed
  · rw [hq.round, hq.out]
    exact h0.out hidle

theorem Inv.post (h : Inv cfg w knows marks) (hphase : (w.procs me).phase = .posting i) :
    Inv cfg (w.post me i) knows marks := by
  have hq := postedRank me hphase
  have hme : (w.post me i).procs me = ((w.procs me).postRequests me i).nextRank i := update_self ..
  have hne : ∀ j, j ≠ me → (w.post me i).procs j = w.procs j := fun j hj => update_of_ne hj ..
  have hidle : (w.procs me).phase ≠ .idle := by
    rw [hphase]
    exact fun hp => (nomatch hp)
  have hphase' : ∀ j, ((w.post me i).procs j).phase = .returned →
      (w.procs j).phase = .returned := by
    intro j hj
    rcases eq_or_ne j me with rfl | hjme
    · rw [hme] at hj
      rcases hq.phase with hp | hp
      · rw [hp] at hj
        cases hj
      · rw [hp] at hj
        cases hj
    · rw [hne j hjme] at hj
      exact hj
  have hlen : ∀ j k, (w.sent j k).length ≤ ((w.post me i).sent j k).length := by
    intro j k
    simp only [World.post]
    split_ifs
    · rw [length_append]
      exact Nat.le_add_right _ _
    · exact le_refl _
  refine ⟨h.sound, fun j => ?_, fun j k => ?_⟩
  · rcases eq_or_ne j me with rfl | hj
    · rw [hme]
      exact h.sending_post hphase
    · rw [hne j hj]
      have hsent : (w.post me i).sent j = w.sent j := by
        funext k
        exact if_neg fun hc => hj hc.1
      rw [hsent]
      exact h.sending j
  · rcases eq_or_ne j me with rfl | hj
    · rw [hme]
      have h0 := (h.taking j k).mono (hlen k j) id (hphase' k) (le_refl _)
      refine ⟨h0.le_sent, ?_, fun _ _ => ?_, fun hjk => ?_, ?_, fun hc => ?_, fun _ hjk => ?_,
        fun hp hopen => ?_, fun hp hopen hjk => ?_, fun hp => ?_, fun hc hr => ?_⟩
      · rw [hq.round]
        exact h0.le_round
      · rw [hq.round]
        exact h0.lt_round i hphase
      · rw [hq.crashed]
        exact h0.self hjk
      · rw [hq.told]
        exact h0.told
      · exact h0.crashed ((hq.crashed k).1 hc)
      · rw [hq.round, hq.told, hq.crashed]
        exact h0.settled hidle hjk
      · rw [hq.round]
        rcases eq_or_ne k i with rfl | hki
        · rw [hq.recvOpen_self, Proc.needToRecv] at hopen
          simp only [ne_eq, isSet_crashed, isSet_toldMeHeKnows, and_eq_true,
            not_eq_true', decide_eq_true_eq] at hopen
          refine ⟨hopen.1.1, ?_⟩
          have hlt := h0.lt_round k hphase
          rcases h0.settled hidle hopen.1.1 with hle | htold | hcrashed
          · exact Nat.le_antisymm hlt hle
          · rw [Proc.Told, hopen.2] at htold
            cases htold
          · rw [Proc.Crashed, hopen.1.2] at hcrashed
            cases hcrashed
        · rw [hq.recvOpen k hki] at hopen
          exact h0.isOpen ((hq.posted k hp).resolve_right hki) hopen
      · rw [hq.round, hq.told, hq.crashed]
        rcases eq_or_ne k i with rfl | hki
        · rw [hq.recvOpen_self, Proc.needToRecv] at hopen
          simp only [ne_eq, isSet_crashed, isSet_toldMeHeKnows, hjk, not_false_eq_true,
            decide_true, Bool.true_and, and_eq_false_iff, not_eq_false'] at hopen
          exact .inr hopen.symm
        · rw [hq.recvOpen k hki] at hopen
          exact h0.complete ((hq.posted k hp).resolve_right hki) hopen hjk
      · rcases hq.phase with hp' | hp'
        · rw [hp'] at hp
          cases hp
        · rw [hp'] at hp
          cases hp
      · rw [hq.told]
        exact h0.missed ((hq.crashed k).1 hc) hr
    · rw [hne j hj]
      exact (h.taking j k).mono (hlen k j) id (hphase' k) (le_refl _)

end Post

end Eta

end Ulfm
