import Ulfm.Era.Agreement.Stability

/-!
# Made-up answers to a flushing agreement

The agreement that frees a communicator carries no data, and its record is collected at
the end. A process that is asked for the result of such an agreement, and that has no
record of it, answers with a success that it makes up. The comment in `result_request`
says that the agreement must be an old one then. The code does not look: it answers also
when it has not posted the agreement, or is still gathering contributions.
-/

namespace Ulfm

open Option Job Outcome World

/-- A record comes with a decision, or it was there before (`had`). -/
def Job.Accounted (had : Prop) (j : Job) : Prop := j.passed ≠ none → had ∨ j.decided ≠ none

def Handled.Accounted (had : Prop) (h : Handled) : Prop :=
  h.slot.passed ≠ none → had ∨ h.decided ≠ none

section Handlers

variable {had : Prop} {env : EraEnv} {j : Job}

theorem Job.accounted_start (ci : AgreementInfo) (passed : Option Passed) (tree : EraTree) :
    (Job.start ci passed tree).Accounted (passed ≠ none) := .inl

section

variable (h : j.Accounted had)
include h

theorem Job.Accounted.parent :
    Outcome (fun _ => True) (fun r : ℕ × Job => r.2.Accounted had) (j.parent env) := by
  rw [Job.parent]
  split
  · exact trivial
  · exact h

theorem Job.Accounted.childrenWhile (ok : ℕ → Bool) :
    Outcome (fun _ => True) (fun r : List ℕ × Bool × Job => r.2.2.Accounted had)
      (j.childrenWhile env ok) := by
  rw [Job.childrenWhile]
  split
  · exact trivial
  · exact h

theorem Job.Accounted.children :
    Outcome (fun _ => True) (fun r : List ℕ × Job => r.2.Accounted had) (j.children env) := by
  rw [Job.children]
  split
  · exact trivial
  · exact h

theorem Job.Accounted.eraDecide (d : Passed) :
    Outcome (fun _ => True) (Job.Accounted had) (eraDecide env d j) := by
  simp only [Ulfm.eraDecide]
  split
  · exact trivial
  · split
    · exact h
    · split
      · exact trivial
      · have hdecided : ∀ ci v, ({ j with ci := ci, passed := some d, decided := some v } :
            Job).Accounted had := fun _ _ _ => .inr (some_ne_none _)
        simp only [sendDecision]
        exact bind (hdecided _ _).children fun r hr => hr

theorem Job.Accounted.eraCheckStatus :
    Outcome (fun _ => True) (Job.Accounted had) (eraCheckStatus env j) := by
  simp only [Ulfm.eraCheckStatus]
  have hcall : ∀ c, (j.call c).Accounted had := fun _ => h
  split_ifs
  · exact hcall _
  · refine bind (hcall _).parent fun r hr => ?_
    refine bind (hr.childrenWhile _) fun r hr => ?_
    split_ifs
    · exact hr
    · have hupdate : ∀ ci, ({ r.2.2 with ci := ci } : Job).Accounted had := fun _ => hr
      refine bind (hupdate _).parent fun r hr => ?_
      split_ifs
      · exact hr.eraDecide _
      · exact hr
  · exact trivial

theorem Job.Accounted.foldl {f : Job → ℕ → Job}
    (hf : ∀ j r, j.Accounted had → (f j r).Accounted had) (rs : List ℕ) :
    (rs.foldl f j).Accounted had := by
  induction rs generalizing j with
  | nil => exact h
  | cons r rs ih => exact ih (hf j r h)

theorem Job.Accounted.requestResult (r : ℕ) : (requestResult env j r).Accounted had := h

theorem Job.Accounted.requestNewResult (r : ℕ) : (requestNewResult env j r).Accounted had := by
  rw [Ulfm.requestNewResult]
  split_ifs
  · exact h
  · exact h

theorem Job.Accounted.restartAgreementFromMe :
    Outcome (fun _ => True) (Job.Accounted had) (restartAgreementFromMe env j) := by
  simp only [Ulfm.restartAgreementFromMe]
  have hcall : ∀ c ci, ({ j.call c with ci := ci } : Job).Accounted had := fun _ _ => h
  split
  · exact trivial
  · split
    · exact trivial
    · refine bind (hcall _ _).children fun r hr => ?_
      exact (hr.foldl (fun _ r hj => hj.requestResult r) _).eraCheckStatus

theorem Job.Accounted.eraMarkProcessFailed (rank : ℕ) :
    Outcome (fun _ => True) (Job.Accounted had) (eraMarkProcessFailed env rank j) := by
  simp only [Ulfm.eraMarkProcessFailed]
  have hset : (if j.ci.contributed then { j with ci := j.ci.setRet mpiErrProcFailed }
      else j).Accounted had := by
    split_ifs
    · exact h
    · exact h
  generalize (if j.ci.contributed then { j with ci := j.ci.setRet mpiErrProcFailed } else j) = j'
    at hset ⊢
  split
  · exact trivial
  · split
    · split
      · refine bind hset.parent fun r hr => ?_
        split
        · exact hr.restartAgreementFromMe
        · exact hr
      · exact hset
    · split
      · split
        · have herase : ∀ ci, ({ j' with ci := ci } : Job).Accounted had := fun _ => hset
          refine bind (herase _).children fun r hr => ?_
          exact (hr.foldl (fun _ r hj => hj.requestNewResult r) _).eraCheckStatus
        · exact hset.eraCheckStatus
      · exact hset

end

theorem handleMsg_accounted (slot : Slot) (tree : EraTree) (msg : EraMsg) :
    Outcome (fun _ => True) (Handled.Accounted (slot.passed ≠ none))
      (handleMsg env slot tree msg) := by
  have hreply : ∀ sent, (slot.reply tree sent).Accounted (slot.passed ≠ none) := fun _ => .inl
  have hfinish : ∀ {x : Except EraAssert Job},
      Outcome (fun _ => True) (Job.Accounted (slot.passed ≠ none)) x →
      Outcome (fun _ => True) (Handled.Accounted (slot.passed ≠ none)) (do
        let j ← x
        return j.finish) :=
    fun hx => bind hx fun j hj => hj
  rw [handleMsg]
  cases msg.type with
  | resultRequest =>
    simp only [resultRequest]
    split
    · exact hreply _
    · split
      · split_ifs
        · refine bind (accounted_start _ _ _).parent fun r hr => ?_
          split_ifs
          · exact hr
          · exact hr
        · exact hreply _
        · exact hreply _
      · split_ifs
        · exact hreply _
        · exact hreply _
  | up =>
    simp only [msgUp]
    split
    · exact hreply _
    · split
      · exact .inl
      · split
        · exact hfinish (accounted_start _ _ _).eraCheckStatus
        · exact hfinish (accounted_start _ _ _).eraCheckStatus
  | down =>
    simp only [msgDown]
    split
    · exact hreply _
    · split_ifs
      · exact trivial
      · exact hfinish ((accounted_start _ _ _).eraDecide _)

theorem prepareAgreement_accounted (slot : Slot) (tree : EraTree) (acked newDead : List ℕ)
    (value : EraValue) :
    Outcome (fun _ => True) (Handled.Accounted False)
      (prepareAgreement env slot tree acked newDead value) := by
  simp only [prepareAgreement]
  have hstart : ∀ ci, (start ci none tree).Accounted False := fun _ h => absurd rfl h
  split_ifs
  · exact trivial
  · exact bind (hstart _).eraCheckStatus fun j hj => hj

end Handlers

/-- A process with a record, or that has collected it, has decided. -/
def World.Accounted (w : World) : Prop :=
  ∀ p, (w.proc p).slot.passed ≠ none ∨ (w.proc p).collected = true → (w.proc p).decided ≠ none

section Runs

variable {cfg : EraConfig} {w w' : World} {as : List Action} {p : ℕ}

theorem World.Accounted.store (h : w.Accounted) {r : Handled}
    (hr : r.Accounted ((w.proc p).slot.passed ≠ none)) : (w.store p r).Accounted := by
  intro q hq
  by_cases hqp : q = p
  · subst hqp
    rw [store_proc_self] at hq ⊢
    have hdecided : r.decided ≠ none ∨ (w.proc q).decided ≠ none := by
      rcases hq with hpassed | hcollected
      · rcases hr hpassed with hhad | hdecided
        · exact .inr (h q (.inl hhad))
        · exact .inl hdecided
      · exact .inr (h q (.inr hcollected))
    cases hd : r.decided with
    | some v => exact some_ne_none v
    | none => exact hdecided.resolve_left (not_not_intro hd)
  · rw [store_proc_of_ne hqp] at hq ⊢
    exact h q hq

theorem World.Accounted.setProc (h : w.Accounted) {x : Proc}
    (hx : x.slot.passed ≠ none ∨ x.collected = true → x.decided ≠ none) :
    (w.setProc p x).Accounted := by
  intro q hq
  by_cases hqp : q = p
  · subst hqp
    rw [setProc_proc_self] at hq ⊢
    exact hx hq
  · rw [setProc_proc_of_ne hqp] at hq ⊢
    exact h q hq

theorem World.Accounted.step (h : w.Accounted) {a : Action} {x : Except EraAssert World}
    (hx : w.step cfg a = some x) : Outcome (fun _ => True) World.Accounted x := by
  cases a with
  | post p d =>
    simp only [World.step] at hx
    split at hx
    · obtain rfl := Option.some.inj hx
      have hposted : (w.setProc p { w.proc p with posted := true }).Accounted := h.setProc (h p)
      exact Outcome.bind (prepareAgreement_accounted _ _ _ _ _) fun r hr =>
        hposted.store fun hpassed => .inr ((hr hpassed).resolve_left id)
    · cases hx
  | deliver i =>
    simp only [World.step] at hx
    cases hi : w.net[i]? with
    | none => simp [hi] at hx
    | some msg =>
      simp only [hi] at hx
      split at hx
      · obtain rfl := Option.some.inj hx
        have hnet : World.Accounted { w with net := w.net.eraseIdx i } := h
        exact Outcome.bind (handleMsg_accounted _ _ _) fun r hr => hnet.store hr
      · cases hx
  | crash p =>
    simp only [World.step] at hx
    split at hx
    · obtain rfl := Option.some.inj hx
      exact h
    · cases hx
  | notify p q =>
    simp only [World.step] at hx
    split at hx
    · have hfailed : (w.setProc p { w.proc p with failed := (w.proc p).failed ++ [q] }).Accounted :=
        h.setProc (h p)
      split at hx
      · obtain rfl := Option.some.inj hx
        exact hfailed
      · obtain rfl := Option.some.inj hx
        exact Outcome.bind ((Job.accounted_start _ _ _).eraMarkProcessFailed q) fun j hj =>
          hfailed.store hj
    · cases hx
  | complete p =>
    simp only [World.step] at hx
    split at hx
    · obtain rfl := Option.some.inj hx
      rw [completeAgreement]
      split
      · exact trivial
      · next value hvalue =>
          refine h.setProc fun _ => h p (.inl fun hnone => ?_)
          rw [Slot.record, hnone] at hvalue
          cases hvalue
    · cases hx
  | failElsewhere p =>
    simp only [World.step] at hx
    split at hx
    · obtain rfl := Option.some.inj hx
      exact h.setProc (h p)
    · cases hx
  | parentElsewhere p | childrenElsewhere p gathered =>
    simp only [World.step] at hx
    split at hx
    · split at hx
      · cases hx
      · obtain rfl := Option.some.inj hx
        exact h.setProc (h p)
    · cases hx
  | collect p =>
    simp only [World.step] at hx
    split at hx
    · obtain rfl := Option.some.inj hx
      refine h.setProc fun hor => h p ?_
      rcases hor with hpassed | hcollected
      · exact absurd rfl hpassed
      · rcases Bool.or_eq_true_iff.1 hcollected with hold | hnew
        · exact .inr hold
        · exact .inl (isSome_iff_ne_none.1 hnew)
    · cases hx

theorem World.accounted_run {ok : World → Action → Prop}
    (hr : World.Run cfg ok (World.init cfg) as w) : w.Accounted := by
  have hinit : (init cfg).Accounted := by
    rintro p (hpassed | hcollected)
    · exact absurd rfl hpassed
    · cases hcollected
  generalize init cfg = w₀ at hr hinit
  induction hr with
  | refl w => exact hinit
  | step _ hstep _ ih => exact ih (hinit.step hstep)

/-- A process that knows the agreement takes part in it, until its entry is released when
the agreement completes. -/
def World.TakesPart (w : World) (p : ℕ) : Prop :=
  ∃ ci, (w.proc p).slot.ci = some ci ∧ ci.comm = true

/-- A made-up answer is sound, that is the process has decided and has collected its
record, exactly when the process has posted the agreement and has left it. -/
theorem made_up_answer_sound_iff (hb : cfg.Built) {ok : World → Action → Prop}
    (hr : World.Run cfg ok (World.init cfg) as w) {msg : EraMsg}
    (halive : w.alive cfg msg.dst = true) (hmade : ¬w.Answers msg) :
    handleMsg (w.env cfg msg.dst) (w.proc msg.dst).slot (w.proc msg.dst).tree msg =
        .ok ((w.proc msg.dst).slot.reply (w.proc msg.dst).tree
          [{ type := .down, src := msg.dst, dst := msg.src, value := successValue, ack := [] }]) ∧
      ((w.proc msg.dst).decided ≠ none ∧ (w.proc msg.dst).collected = true ↔
        (w.proc msg.dst).posted = true ∧ ¬w.TakesPart msg.dst) := by
  obtain ⟨T, hmem, htree⟩ := hb.exists_tree
  have hf := sizeSim_fits False false hmem htree
  obtain ⟨s, h, -⟩ := (WorldRel.init hf).run hf
    (fun w _ a _ _ => Sim.allowed_of_lax Bool.false_ne_true id w a) hr
  obtain ⟨hm, -⟩ := h.mem_of_alive hf halive
  have haccounted := accounted_run hr msg.dst
  simp only [World.Answers, Classical.not_imp, not_or, not_not] at hmade
  obtain ⟨htype, hcount, hrecord, hbroadcasting⟩ := hmade
  constructor
  · rw [handleMsg, htype]
    simp only [resultRequest, hrecord, hcount, if_true]
    split
    · next ci hci =>
        rw [hci, any_some] at hbroadcasting
        rw [if_neg hbroadcasting]
        rfl
    · rfl
  · have hslot := h.slot msg.dst hm
    have hcollected : (w.proc msg.dst).collected = true ↔
        (w.proc msg.dst).posted = true ∧ ¬w.TakesPart msg.dst := by
      unfold World.TakesPart
      generalize (w.proc msg.dst).slot = slot at hslot hrecord ⊢
      cases hslot with
      | fresh hp hg => simp [hp, hg]
      | ongoing hg hinfo =>
        rw [hg]
        refine ⟨fun hc => (nomatch hc), fun ⟨hposted, hout⟩ => ?_⟩
        exact absurd ⟨_, rfl, hinfo.comm.trans hposted⟩ hout
      | done => cases hrecord
      | collected hp hg => simp [hp, hg]
      | ghost hp hg _ _ hcomm => simp [hp, hg, hcomm]
    rw [← hcollected]
    exact ⟨fun hsound => hsound.2, fun hc => ⟨haccounted (.inr hc), hc⟩⟩

/-! ### A flushing agreement -/

/-- The agreement that frees a communicator of `n` processes, on a flat binary tree. -/
def flushConfig (n : ℕ) : EraConfig where
  size := n
  agreedFailedRanks := []
  tree := eraBuildTreeStructure (-1) (fun _ => none) n []
  reduce := bandBytes
  operand := opBandIndex
  dtCount := 0
  datatype := mpiIntIndex
  contrib _ := []
  acked _ := []
  gcRange _ := (65535, 0)
  contrib_nil _ _ := rfl

theorem flushConfig_built (n : ℕ) : (flushConfig n).Built :=
  ⟨List.Pairwise.nil, by simp [flushConfig], -1, fun _ => none, rfl⟩

/-- The root decides, process `2` completes and collects its record, and the root crashes
before process `1` gets the decision. -/
def flushRun : List Action :=
  [.post 0 true, .post 1 true, .post 2 true, .deliver 0, .deliver 0, .deliver 1, .complete 2,
    .collect 2, .crash 0, .notify 1 0]

/-- The answer of process `2` is made up, and sound. -/
theorem made_up_answer_sound_iff_flushed :
    ∃ w msg, World.Run (flushConfig 3) (fun _ _ => True) (World.init (flushConfig 3)) flushRun w ∧
      w.net[1]? = some msg ∧ msg.dst = 2 ∧ ¬w.Answers msg ∧
      ((w.proc msg.dst).decided ≠ none ∧ (w.proc msg.dst).collected = true ↔
        (w.proc msg.dst).posted = true ∧ ¬w.TakesPart msg.dst) := by
  obtain ⟨w, hrun, hw⟩ := exists_run (flushConfig 3) (fun _ _ => True)
    (init (flushConfig 3)) flushRun
    (fun w => w.net[1]?.any fun msg : EraMsg => decide (msg.dst = 2) && (decide (¬w.Answers msg) &&
      w.alive (flushConfig 3) msg.dst)) (by decide +kernel)
  obtain ⟨msg, hmsg, hall⟩ := (any_eq_true _ _).1 hw
  simp only [Bool.and_eq_true, decide_eq_true_eq] at hall
  obtain ⟨hdst, hmade, halive⟩ := hall
  exact ⟨w, msg, hrun, hmsg, hdst, hmade,
    (made_up_answer_sound_iff (flushConfig_built 3) hrun halive hmade).2⟩

/-- The root crashes before process `2` has posted the agreement, and process `1` decides
with the success that process `2` makes up. -/
def lateRun : List Action := [.post 1 true, .crash 0, .notify 1 0]

/-- Process `2` answers for an agreement that it has not posted. -/
theorem made_up_answer_not_posted :
    ∃ w w' msg, World.Run (flushConfig 3) (fun _ _ => True) (World.init (flushConfig 3)) lateRun w ∧
      w.net[1]? = some msg ∧ msg.type = .resultRequest ∧ msg.dst = 2 ∧
      (w.proc 2).posted = false ∧ (w.proc 2).decided = none ∧
      World.Run (flushConfig 3) (fun _ _ => True) w [.deliver 1, .deliver 1] w' ∧
      (w'.proc 1).decided = some successValue ∧ (w'.proc 2).posted = false := by
  obtain ⟨w, w', hr, hr', hw⟩ := exists_run_run (flushConfig 3) (fun _ _ => True)
    (init (flushConfig 3)) lateRun [.deliver 1, .deliver 1]
    (fun w w' => (w.net[1]?.any fun msg : EraMsg =>
        decide (msg.type = .resultRequest) && decide (msg.dst = 2)) &&
      (decide ((w.proc 2).posted = false) && (decide ((w.proc 2).decided = none) &&
      (decide ((w'.proc 1).decided = some successValue) && decide ((w'.proc 2).posted = false)))))
    (by decide +kernel)
  simp only [Bool.and_eq_true, decide_eq_true_eq] at hw
  obtain ⟨hany, hposted, hdecided, hdecided', hposted'⟩ := hw
  obtain ⟨msg, hmsg, hall⟩ := (any_eq_true _ _).1 hany
  simp only [Bool.and_eq_true, decide_eq_true_eq] at hall
  exact ⟨w, w', msg, hr, hmsg, hall.1, hall.2, hposted, hdecided, hr', hdecided', hposted'⟩

end Runs

end Ulfm
