import Ulfm.Era.Agreement.Safety

/-!
# Stability of the decision and late messages

A root records the current value of the agreement itself as its decision, and
`eraMarkProcessFailed` writes to the current value in any status. So a failure
that is handled between the decision of the root and its completion changes the
record; nothing else does. A decision of a process that is known to have failed
may contradict the one that was taken without it; late messages of other kinds do
no harm.
-/

namespace Ulfm

open Option World

/-- No process handles a failure while the record of its own decision as a root is
the current value of the agreement, unless that value reports a failure already. -/
def World.Unaliased (w : World) : Action → Prop
  | .notify p _ => (w.proc p).slot.passed = some .current →
      ∀ v ∈ (w.proc p).slot.record, v.ret = mpiErrProcFailed
  | _ => True

instance (w : World) (a : Action) : Decidable (w.Unaliased a) :=
  match a with
  | .notify p _ => inferInstanceAs (Decidable ((w.proc p).slot.passed = some .current →
      ∀ v ∈ (w.proc p).slot.record, v.ret = mpiErrProcFailed))
  | .post .. | .crash _ | .deliver _ | .complete _ | .failElsewhere _ | .parentElsewhere _
  | .childrenElsewhere .. | .collect _ => isTrue trivial

/-- The answer to a request is not made up. -/
def World.Answers (w : World) (m : EraMsg) : Prop :=
  m.type = .resultRequest → m.value.dtCount = 0 → (w.proc m.dst).slot.record ≠ none ∨
    (w.proc m.dst).slot.ci.any (·.hasStatus .broadcasting) = true

/-- In addition no ongoing agreement is told a decision of a process that is known to
have failed, and no answer is made up. Other messages may be late. -/
def World.Orderly (w : World) (a : Action) : Prop :=
  w.Unaliased a ∧
    match a with
    | .deliver i => ∀ m ∈ w.net[i]?,
        (m.type = .down → (w.proc m.dst).slot.ci ≠ none → m.src ∉ (w.proc m.dst).failed) ∧
        w.Answers m
    | _ => True

instance (w : World) (m : EraMsg) : Decidable (w.Answers m) :=
  inferInstanceAs (Decidable (_ → _ → _ ∨ _))

instance (w : World) (a : Action) : Decidable (w.Orderly a) :=
  match a with
  | .deliver i => inferInstanceAs (Decidable (w.Unaliased (.deliver i) ∧ ∀ m ∈ w.net[i]?,
        (m.type = .down → (w.proc m.dst).slot.ci ≠ none → m.src ∉ (w.proc m.dst).failed) ∧
        w.Answers m))
  | .notify p q => inferInstanceAs (Decidable (w.Unaliased (.notify p q) ∧ True))
  | .post .. | .crash _ | .complete _ | .failElsewhere _ | .parentElsewhere _
  | .childrenElsewhere .. | .collect _ => isTrue ⟨trivial, trivial⟩

variable {cfg : EraConfig} {w w' : World} {as bs : List Action} {p : ℕ} {v : EraValue}

/-! ### Stability -/

theorem SlotRel.record_eq {σ : Sim} {s : ConsensusState EraValue} {posted gone : Bool}
    {slot : Slot} (hk : σ.keepRet = true) (h : SlotRel σ s p posted gone slot)
    (hv : s.dec p = some v) : slot.record = if gone then none else some v := by
  cases h with
  | fresh hp hg hacc hheard hdec => simp [hdec] at hv
  | @ongoing ci passed hg h =>
    have hst : ci.status = .completed := by
      by_contra hst
      simp [(h.undecided hst).1] at hv
    obtain ⟨d, rfl⟩ := ne_none_iff_exists'.1 (h.completed hst)
    have hrec := h.record d rfl
    rw [hv, hk] at hrec
    obtain rfl : v = d.value ci.currentValue := Option.some.inj hrec
    rw [hg]
    cases d <;> rfl
  | done hp hg hdec =>
    rw [hv, hk] at hdec
    obtain rfl := Option.some.inj hdec
    rw [hg]
    rfl
  | collected hp hg | ghost hp hg hop hst hcomm =>
    rw [hg]
    rfl

/-- As long as no failure meets the record of a root, the record of a decision stays
the same until it is collected, and the root completes with the decision that it
has sent. -/
theorem record_stable (hb : cfg.Built) (hr : World.Run cfg World.Unaliased (World.init cfg) as w)
    (hr' : World.Run cfg World.Unaliased w bs w') :
    (∀ p v, cfg.Participant p → (w.proc p).slot.record = some v →
      (w'.proc p).slot.record = if (w'.proc p).collected then none else some v) ∧
    ∀ d ∈ w'.decisions, d.root = true → (∀ v, (w'.proc d.rank).returned = some v → v = d.value) ∧
      ∀ m ∈ w'.sent, m.src = d.rank → m.type = .down →
        m.value = d.value ∨ cfg.dtCount = 0 ∧ m.value = successValue := by
  obtain ⟨T, hmem, htree⟩ := hb.exists_tree
  have hf := sizeSim_fits False true hmem htree
  have hok : ∀ w s a, WorldRel (sizeSim cfg T False true) cfg w s → w.Unaliased a →
      (sizeSim cfg T False true).Allowed w a := by
    intro w s a _ ha
    cases a with
    | notify p q => exact fun _ hp v hv => ha hp v hv
    | deliver i => exact fun hst => hst.elim
    | _ => trivial
  obtain ⟨s, h, -⟩ := (WorldRel.init hf).run hf hok hr
  obtain ⟨s', h', hmoves⟩ := h.run hf hok hr'
  refine ⟨fun p v hp hv => ?_, fun d hd _ => ⟨fun v hv => ?_, fun m hm hsrc htype => ?_⟩⟩
  · have hdec := (h.slot p ((hmem p).2 hp)).record_dec hv
    exact (h'.slot p ((hmem p).2 hp)).record_eq rfl
      (ConsensusState.dec_eq_some_of_moves hmoves hdec)
  · have heq := (h'.returned d.rank v hv).symm.trans (h'.decisions d hd)
    exact Option.some.inj heq
  · have hrec := h'.sent m hm
    rw [Recorded, htype] at hrec
    rcases h'.cover.down _ _ _ hrec with ⟨-, hvoid, u, S, hu, hz⟩ | hdec
    · exact .inr ⟨hu.symm.trans hz, hvoid⟩
    · rw [hsrc] at hdec
      exact .inl (Option.some.inj (hdec.symm.trans (h'.decisions d hd)))

theorem record_stable_pair :
    ∃ w w' v, World.Run pairConfig World.Unaliased (World.init pairConfig) (pairRun.take 3) w ∧
      World.Run pairConfig World.Unaliased w (pairRun.drop 3) w' ∧
      (w.proc 0).slot.record = some v ∧
      (w'.proc 0).slot.record = (if (w'.proc 0).collected then none else some v) ∧
      ∀ d ∈ w'.decisions, d.root = true → (∀ v, (w'.proc d.rank).returned = some v → v = d.value) ∧
        ∀ m ∈ w'.sent, m.src = d.rank → m.type = .down →
          m.value = d.value ∨ pairConfig.dtCount = 0 ∧ m.value = successValue := by
  obtain ⟨w, w', hr, hr', hw⟩ := exists_run_run pairConfig World.Unaliased
    (init pairConfig) (pairRun.take 3) (pairRun.drop 3)
    (fun w _ => (w.proc 0).slot.record.isSome) (by decide +kernel)
  obtain ⟨v, hv⟩ := isSome_iff_exists.1 hw
  have h := record_stable (flatConfig_built _ _) hr hr'
  exact ⟨w, w', v, hr, hr', hv, h.1 0 v (by decide) hv, h.2⟩

/-- The root decides without a failure, learns that process `1` has crashed, and
completes; process `2` gets the decision that was sent. -/
def failureAfterDecision : List Action :=
  [.crash 1, .notify 0 1, .complete 0, .deliver 1, .complete 2]

/-- The record of the root changes, and it completes with another return code than
the one that it has sent and that process `2` obtains. -/
theorem record_not_stable :
    ∃ w w' u v u', World.Run trioConfig (fun _ _ => True) (World.init trioConfig)
        (trioRun.take 5) w ∧
      World.Run trioConfig (fun _ _ => True) w failureAfterDecision w' ∧
      (w.proc 0).slot.record = some u ∧ u.ret = mpiSuccess ∧
      (w'.proc 0).collected = false ∧ (w'.proc 0).slot.record = some v ∧
      v.ret = mpiErrProcFailed ∧ (w'.proc 0).returned = some v ∧
      (∃ m ∈ w'.sent, m.src = 0 ∧ m.type = .down ∧ m.value.ret = mpiSuccess) ∧
      (w'.proc 2).returned = some u' ∧ u'.ret = mpiSuccess := by
  obtain ⟨w, w', hr, hr', hw⟩ := exists_run_run trioConfig (fun _ _ => True)
    (init trioConfig) (trioRun.take 5) failureAfterDecision
    (fun w w' =>
      decide ((w.proc 0).slot.record.map EraValue.ret = some mpiSuccess) &&
      (decide ((w'.proc 0).collected = false) &&
      (decide ((w'.proc 0).slot.record = (w'.proc 0).returned) &&
      (decide ((w'.proc 0).returned.map EraValue.ret = some mpiErrProcFailed) &&
      (decide (∃ m ∈ w'.sent, m.src = 0 ∧ m.type = .down ∧ m.value.ret = mpiSuccess) &&
      decide ((w'.proc 2).returned.map EraValue.ret = some mpiSuccess))))))
    (by decide +kernel)
  simp only [Bool.and_eq_true, decide_eq_true_eq, map_eq_some_iff] at hw
  obtain ⟨⟨u, hu, hur⟩, hc, hrec, ⟨v, hv, hvr⟩, hm, u', hu', hur'⟩ := hw
  exact ⟨w, w', u, v, u', hr, hr', hu, hur, hc, hrec.trans hv, hvr, hv, hm, hu', hur'⟩

/-! ### Late messages -/

/-- Whatever other messages are late, survivors decide the same and no second
decision contradicts the first. -/
theorem decided_eq_of_orderly (hb : cfg.Built)
    (hr : World.Run cfg World.Orderly (World.init cfg) as w) :
    (∀ p q u v, p ∉ w.crashed → q ∉ w.crashed →
      (w.proc p).decided = some u ∨ (w.proc p).returned = some u →
      (w.proc q).decided = some v ∨ (w.proc q).returned = some v →
      u.bytes = v.bytes ∧ u.ret = v.ret ∧ u.newDeadArray = v.newDeadArray) ∧
    ∀ a, w.Orderly a → w.step cfg a ≠ some (.error .decideMismatch) := by
  obtain ⟨T, hmem, htree⟩ := hb.exists_tree
  have hf := sizeSim_fits True true hmem htree
  have hok : ∀ w a, w.Orderly a → (sizeSim cfg T True true).Allowed w a := by
    intro w a ha
    cases a with
    | notify p q => exact fun _ hp v hv => ha.1 hp v hv
    | deliver i => exact fun _ m hm => ha.2 m hm
    | _ => trivial
  obtain ⟨s, h, -⟩ := (WorldRel.init hf).run hf (fun w _ a _ => hok w a) hr
  have hdec : ∀ p u, (w.proc p).decided = some u ∨ (w.proc p).returned = some u →
      s.dec p = some u := fun p u hu => hu.elim (h.decided p u) (h.returned p u)
  refine ⟨fun p q u v hp hq hu hv => ?_, fun a ha hx => ?_⟩
  · have heq := (h.agree trivial).dec_eq (h.dead ▸ hp) (h.dead ▸ hq) (hdec p u hu) (hdec q v hv)
    rw [heq]
    exact ⟨rfl, rfl, rfl⟩
  · rcases (h.step hf (hok w a ha) hx).raised rfl with he | ⟨-, he⟩
    · simp at he
    · exact he ⟨trivial, rfl⟩

/-- The contribution of the crashed process `2` to process `0` arrives after the
notification of the crash. -/
def lateContribution : List Action :=
  [.post 0 true, .post 1 true, .post 2 true, .crash 2, .notify 0 2, .deliver 1, .notify 1 2,
    .deliver 0, .deliver 0]

theorem decided_eq_of_orderly_trio :
    ∃ w u v, World.Run trioConfig World.Orderly (World.init trioConfig) lateContribution w ∧
      (w.proc 0).decided = some u ∧ (w.proc 1).decided = some v ∧
      u.bytes = v.bytes ∧ u.ret = v.ret ∧ u.newDeadArray = v.newDeadArray := by
  obtain ⟨w, hr, hw⟩ := exists_run trioConfig World.Orderly (init trioConfig)
    lateContribution
    (fun w => decide (w.crashed = [2]) && ((w.proc 0).decided.isSome &&
      (w.proc 1).decided.isSome)) (by decide +kernel)
  simp only [Bool.and_eq_true, decide_eq_true_eq] at hw
  obtain ⟨hc, h0, h1⟩ := hw
  obtain ⟨u, hu⟩ := isSome_iff_exists.1 h0
  obtain ⟨v, hv⟩ := isSome_iff_exists.1 h1
  exact ⟨w, u, v, hr, hu, hv, (decided_eq_of_orderly (flatConfig_built _ _) hr).1 0 1 u v
    (by simp [hc]) (by simp [hc]) (.inl hu) (.inl hv)⟩

/-- Process `1` decides after the crash of the root, and process `2` then handles the
decision of the root. -/
def lateDecision : List Action := [.deliver 3, .deliver 1, .complete 1, .complete 2]

/-- The survivors decide different bytes, and the decision of process `1` contradicts
the one that process `2` has taken. -/
theorem late_decision_differs :
    (∃ w u v, World.Run trioConfig (fun _ _ => True) (World.init trioConfig)
        (trioRun ++ lateDecision) w ∧ w.crashed = [0] ∧
      (w.proc 1).returned = some u ∧ (w.proc 2).returned = some v ∧ u.bytes ≠ v.bytes ∧
      u.ret ≠ v.ret) ∧
    ∃ w, World.Run trioConfig (fun _ _ => True) (World.init trioConfig)
        (trioRun ++ lateDecision.take 2) w ∧
      ∃ i, w.step trioConfig (.deliver i) = some (.error .decideMismatch) := by
  constructor
  · obtain ⟨w, hr, hw⟩ := exists_run trioConfig (fun _ _ => True) (init trioConfig)
      (trioRun ++ lateDecision)
      (fun w => decide (w.crashed = [0]) &&
        (decide ((w.proc 1).returned.map (fun v => (v.bytes, v.ret)) =
          some ([1, 0, 0, 0], mpiErrProcFailed)) &&
        decide ((w.proc 2).returned.map (fun v => (v.bytes, v.ret)) =
          some ([0, 0, 0, 0], mpiSuccess)))) (by decide +kernel)
    simp only [Bool.and_eq_true, decide_eq_true_eq, map_eq_some_iff, Prod.mk.injEq] at hw
    obtain ⟨hc, ⟨u, hu, hub, hur⟩, v, hv, hvb, hvr⟩ := hw
    refine ⟨w, u, v, hr, hc, hu, hv, ?_, ?_⟩
    · rw [hub, hvb]
      decide
    · rw [hur, hvr]
      decide
  · obtain ⟨w, hr, hw⟩ := exists_run trioConfig (fun _ _ => True) (init trioConfig)
      (trioRun ++ lateDecision.take 2)
      (fun w => (w.step trioConfig (.deliver 2)).any fun x =>
        match x with
        | .error e => decide (e = .decideMismatch)
        | .ok _ => false) (by decide +kernel)
    refine ⟨w, hr, 2, ?_⟩
    cases hx : w.step trioConfig (.deliver 2) with
    | none => simp [hx] at hw
    | some x =>
      cases x with
      | ok w' => simp [hx] at hw
      | error e =>
        obtain rfl : e = .decideMismatch := by simpa [hx] using hw
        rfl

end Ulfm
