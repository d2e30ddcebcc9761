import Ulfm.Era.Agreement.Simulation

/-!
# The messages and the collective

Every message handler, the entry of the collective and the notification of a
failure keep `SlotRel`, the relation between what a process stores for an
agreement and the state of the consensus.
-/

namespace Ulfm

open List Option Job Slot AgreementInfo Function

/-- What a handler that started at `s₀` leaves behind. -/
structure HandledRel (σ : Sim) (env : EraEnv) (posted gone : Bool)
    (s₀ s : ConsensusState EraValue) (h : Handled) : Prop where
  adv : Advance σ env.me s₀ s
  slot : SlotRel σ s env.me posted gone h.slot
  tree : TreeInv σ.T {q | q ∈ env.failed} h.tree
  sent : ∀ m ∈ h.sent, m.src = env.me ∧ Recorded σ s m
  decided : ∀ v, h.decided = some v → s.dec env.me = some (v.view σ.keepRet)
  settled : ∀ u A S, s.settled u A S → s₀.settled u A S ∨
    ∃ v, h.decided = some v ∧ h.slot.passed = some .current ∧ u = v.view σ.keepRet ∧
      A = {q | q ∈ σ.T.mem ∧ q ∉ s.dead} ∧ σ.Tr v S
  calls : ∀ c ∈ h.calls, CallOk σ.T env.me c

variable {σ : Sim} {env : EraEnv} {posted gone : Bool} {s₀ s s' : ConsensusState EraValue}
  {p : ℕ} {j : Job} {slot : Slot} {tree : EraTree} {msg : EraMsg}

theorem JobRel.finish (h : JobRel σ env posted s₀ s j) (hg : gone = false) :
    HandledRel σ env posted gone s₀ s j.finish :=
  ⟨h.adv, .ongoing hg h.info, h.tree, h.sent, h.decided, h.settled, h.calls⟩

theorem InfoRel.start {passed : Option Passed} {ci : AgreementInfo}
    (h : InfoRel σ s env.me posted passed ci) (ht : TreeInv σ.T {q | q ∈ env.failed} tree) :
    JobRel σ env posted s s (Job.start ci passed tree) where
  adv := Advance.refl
  info := h
  tree := ht
  sent _ hm := by simp [Job.start] at hm
  decided _ hv := by simp [Job.start] at hv
  settled _ _ _ hs := .inl hs
  calls _ hc := by simp [Job.start] at hc

theorem SlotRel.around (h : SlotRel σ s p posted gone slot) (hs : Around σ p s s') :
    SlotRel σ s' p posted gone slot := by
  cases h with
  | fresh hp hg hacc hheard hdec =>
    exact .fresh hp hg (hs.acc ▸ hacc) (hs.heard ▸ hheard) (hs.dec ▸ hdec)
  | ongoing hg h => exact .ongoing hg (h.around hs)
  | done hp hg hdec => exact .done hp hg (hs.dec ▸ hdec)
  | collected hp hg => exact .collected hp hg
  | ghost hp hg hop hst hcomm => exact .ghost hp hg hop hst hcomm

theorem SlotRel.record_dec (h : SlotRel σ s p posted gone slot) {v : EraValue}
    (hv : slot.record = some v) : s.dec p = some (v.view σ.keepRet) := by
  cases h with
  | fresh => simp [record] at hv
  | @ongoing ci passed hg h =>
    cases passed with
    | none => simp [record] at hv
    | some d =>
      have hval : d.value ci.currentValue = v := by
        cases d <;> simpa [record] using hv
      rw [h.record d rfl, hval]
  | done hp hg hdec =>
    obtain rfl : _ = v := by simpa [record] using hv
    exact hdec
  | collected | ghost => simp [record] at hv

theorem SlotRel.info_of (h : SlotRel σ s p posted gone slot) {ci : AgreementInfo}
    (hci : slot.ci = some ci) (hst : ci.status ≠ .notContributed) :
    gone = false ∧ InfoRel σ s p posted slot.passed ci := by
  cases h with
  | fresh => simp at hci
  | ongoing hg h => exact ⟨hg, Option.some.inj hci ▸ h⟩
  | done | collected => simp at hci
  | ghost hp hg hop hstatus hcomm => exact absurd (Option.some.inj hci ▸ hstatus) hst

section

variable (h : SlotRel σ s env.me posted gone slot) (ht : TreeInv σ.T {q | q ∈ env.failed} tree)
include h ht

theorem SlotRel.reply (hs : Sends σ s s') (sent : List EraMsg)
    (hsent : ∀ m ∈ sent, m.src = env.me ∧ Recorded σ s' m) :
    HandledRel σ env posted gone s s' (slot.reply tree sent) where
  adv := hs.advance
  slot := h.around hs.around
  tree := ht
  sent := hsent
  decided _ hv := by simp [Slot.reply] at hv
  settled u A S hu := .inl (hs.settled ▸ hu)
  calls _ hc := by simp [Slot.reply] at hc

theorem SlotRel.answer (hsit : Situation σ.T env s) {v : EraValue}
    (hv : slot.record = some v) {y : ℕ} (hy : (∃ S, s.up y env.me S) ∨ s.ask y env.me) :
    ∃ s', HandledRel σ env posted gone s s'
      (slot.reply tree [{ type := .down, src := env.me, dst := y, value := v, ack := [] }]) := by
  obtain ⟨s', hs', hd⟩ := Sends.downs (σ := σ) hsit.alive (h.record_dec hv) [y]
    fun z hz => .inr ((mem_singleton.1 hz) ▸ hy)
  refine ⟨s', h.reply ht hs' _ fun m hm => ?_⟩
  obtain rfl := mem_singleton.1 hm
  exact ⟨rfl, hd y (by simp)⟩

end

@[simp] theorem EraValue.view_successValue (k : Bool) : successValue.view k = successValue := by
  cases k <;> rfl

section

variable (h : SlotRel σ s env.me posted gone slot) (ht : TreeInv σ.T {q | q ∈ env.failed} tree)
include h ht

theorem SlotRel.makeUp (hv : σ.void successValue) (y : ℕ) : ∃ s', HandledRel σ env posted gone s s'
      (slot.reply tree
        [{ type := .down, src := env.me, dst := y, value := successValue, ack := [] }]) := by
  have hmove : σ.Move s
      { s with
        down := fun h' y' v' => s.down h' y' v' ∨ h' = env.me ∧ y' = y ∧ v' = successValue } :=
    .makeUp env.me y successValue hv.1 hv
  refine ⟨_, h.reply ht ⟨.single hmove, rfl, rfl, rfl, rfl, rfl, rfl, fun _ _ _ h => h,
    fun _ _ h => h, fun _ _ _ h => .inl h⟩ _ fun m hm => ?_⟩
  obtain rfl := mem_singleton.1 hm
  exact ⟨rfl, .inr ⟨rfl, rfl, by simp⟩⟩

theorem resultRequest_spec (hsit : Situation σ.T env s)
    (hask : s.ask msg.src env.me) {S : Finset ℕ} (hS : σ.Tr msg.value S)
    (hvoid : σ.strict → msg.value.dtCount = 0 → slot.record ≠ none ∨
      slot.ci.any (·.hasStatus .broadcasting) = true) :
    ∃ s' r, resultRequest env slot tree msg = .ok r ∧ HandledRel σ env posted gone s s' r := by
  unfold resultRequest
  cases hrec : slot.record with
  | some v =>
    obtain ⟨s', h'⟩ := h.answer ht hsit hrec (.inr hask)
    exact ⟨s', _, rfl, h'⟩
  | none =>
    have hrefuse : slot.ci.any (·.hasStatus .broadcasting) = false →
        ∃ s' r, (if msg.value.dtCount = 0 then
            Except.ok (slot.reply tree
              [{ type := .down, src := env.me, dst := msg.src, value := successValue, ack := [] }])
          else Except.ok (slot.reply tree []) : Except EraAssert Handled) = .ok r ∧
          HandledRel σ env posted gone s s' r := by
      intro hb
      split
      · next hz =>
          have hst : ¬ σ.strict := fun hst => by
            rcases hvoid hst hz with h1 | h1
            · exact h1 hrec
            · simp [hb] at h1
          obtain ⟨s', h'⟩ := h.makeUp ht ⟨hst, rfl, msg.value, S, hS, hz⟩ msg.src
          exact ⟨s', _, rfl, h'⟩
      · exact ⟨s, _, rfl, h.reply ht Sends.refl [] (by simp)⟩
    cases hci : slot.ci with
    | none => exact hrefuse (by simp [hci])
    | some ci =>
      dsimp only
      by_cases hb : ci.hasStatus .broadcasting
      · have hst : ci.status = .broadcasting := by
          simp only [hasStatus, Bool.and_eq_true, decide_eq_true_eq] at hb
          exact hb.1
        obtain ⟨hg, hinfo⟩ := h.info_of hci (by simp [hst])
        obtain rfl : posted = true := hinfo.posted_eq_true (by simp [hst])
        have h₁ := hinfo.start ht
        obtain ⟨r, t, hpar, hisp, hrep⟩ := parent_spec hsit h₁.tree
        have h₂ := h₁.setTree hrep.treeInv
        simp only [hb, if_true, hpar, ok_bind]
        by_cases hr : r = env.me
        · rw [if_pos hr]
          exact ⟨s, _, rfl, h₂.finish hg⟩
        · rw [if_neg hr]
          obtain ⟨s₁, hs₁, hup⟩ := Sends.passUp hsit (hinfo.undecided (by simp [hst])).1
            (hinfo.own rfl) hisp hr (.inl (hinfo.sentUp hst))
          have h₃ := h₂.sends hs₁
          have h₄ : JobRel σ env true s s₁
              { start ci slot.passed tree with
                tree := t, ci := { ci with waitingDownFrom := some r } } :=
            { h₃ with info := { h₃.info with } }
          refine ⟨s₁, _, rfl, (h₄.send .up [r] ci.currentValue ci.acked fun d hd => ?_).finish hg⟩
          obtain rfl := mem_singleton.1 hd
          exact ⟨_, hup, hinfo.tracks⟩
      · simp only [hb]
        exact hrefuse (by simp [hci, hb])

end

theorem eraCheckStatus_notContributed (hst : j.ci.status = .notContributed)
    (hop : j.ci.opNotDefined = false) :
    eraCheckStatus env j = .ok (j.call (.checkStatus .notContributed false)) := by
  unfold eraCheckStatus
  have h1 : (j.call (.checkStatus j.ci.status j.ci.opNotDefined)).ci.hasStatus
      .notContributed = true := by
    simp [call, hasStatus, hst, hop]
  simp only [h1, if_true]
  rw [hst, hop]
  rfl

theorem SlotRel.ghost_up {ci : AgreementInfo} (ht : TreeInv σ.T {q | q ∈ env.failed} tree)
    (hst : ci.status = .notContributed) (hop : ci.opNotDefined = false)
    (hcomm : ci.comm = false) :
    ∃ r, (do let j ← eraCheckStatus env (Job.start ci none tree); return j.finish) = .ok r ∧
      HandledRel σ env true true s s r := by
  have hcheck : eraCheckStatus env (start ci none tree) = .ok _ :=
    eraCheckStatus_notContributed hst hop
  rw [hcheck]
  refine ⟨_, rfl, Advance.refl, .ghost rfl rfl hop hst hcomm, ht, ?_, ?_, ?_, ?_⟩
  · intro m hm
    simp [start, call, Job.finish] at hm
  · intro v hv
    simp [start, call, Job.finish] at hv
  · exact fun _ _ _ hs => .inl hs
  · intro c hc
    obtain rfl : c = .checkStatus .notContributed false := by
      simpa [start, call, Job.finish] using hc
    exact ⟨rfl, .inl rfl⟩

theorem Advance.hear (hsit : Situation σ.T env s) {c : ℕ} {S : Finset ℕ} (hup : s.up c env.me S) :
    Advance σ env.me s { s with
        acc := update s.acc env.me (S ∪ s.acc env.me)
        heard := update s.heard env.me (insert c (s.heard env.me)) } :=
  ⟨.single (.hear env.me c S hsit.alive hup), rfl, rfl,
    fun _ hq => update_of_ne hq _ _, fun _ hq => update_of_ne hq _ _,
    fun _ _ => rfl, fun _ _ _ h => h, fun _ _ h => h, fun _ _ _ h => h⟩

section Up

variable (htr : σ.Tracks env.reduce)

include htr

theorem InfoRel.addContribution {ci : AgreementInfo} {S : Finset ℕ} (hS : σ.Tr msg.value S)
    (hcur : ci.opNotDefined = true ∧ s.acc p = ∅ ∨
      ci.opNotDefined = false ∧ σ.Tr ci.currentValue (s.acc p))
    (h : ∀ v, σ.Tr v (S ∪ s.acc p) →
      InfoRel σ s' p posted none { ci with opNotDefined := false, currentValue := v })
    (hheard : msg.src ∈ s'.heard p) :
    InfoRel σ s' p posted none (Ulfm.addContribution env ci msg) := by
  obtain ⟨v, hv, hT⟩ := eraCombineAgreementValues_fields htr hS hcur
  obtain ⟨r, l, hr⟩ := eraUpdateReturnValue_fields env
    { ci with opNotDefined := false, currentValue := v } (some msg.ack)
  have h₂ := (h v hT).setRet htr (r := r) (l := l) (by simp)
  unfold Ulfm.addContribution
  simp only [hv, hr]
  exact
    { h₂ with
      gathered := fun c hc => by
        rcases mem_append.1 hc with hc | hc
        · exact h₂.gathered c hc
        · exact mem_singleton.1 hc ▸ hheard }

omit htr in
theorem addContribution_fields (env : EraEnv) (ci : AgreementInfo) (msg : EraMsg) :
    (addContribution env ci msg).status = ci.status ∧
      (addContribution env ci msg).opNotDefined = false ∧
      (addContribution env ci msg).comm = ci.comm := by
  -- the shape of the combined record does not depend on what is tracked
  let τ : Sim := ⟨⟨∅, id, fun _ => le_rfl, fun _ h => h⟩, True, true, fun _ _ => True⟩
  have hτ : τ.Tracks env.reduce := ⟨fun _ _ _ => trivial, fun _ _ => trivial⟩
  have hcur : ci.opNotDefined = true ∧ (∅ : Finset ℕ) = ∅ ∨
      ci.opNotDefined = false ∧ τ.Tr ci.currentValue ∅ := by
    cases ci.opNotDefined with
    | true => exact .inl ⟨rfl, rfl⟩
    | false => exact .inr ⟨rfl, trivial⟩
  have hmsg : τ.Tr msg.value ∅ := trivial
  obtain ⟨v, hv, -⟩ := eraCombineAgreementValues_fields hτ hmsg hcur
  obtain ⟨r, l, hr⟩ := eraUpdateReturnValue_fields env
    { ci with opNotDefined := false, currentValue := v } (some msg.ack)
  unfold addContribution
  simp only [hv, hr]
  exact ⟨rfl, rfl, rfl⟩

theorem addContribution_check {ci : AgreementInfo} {S : Finset ℕ} (hsit : Situation σ.T env s)
    (ht : TreeInv σ.T {q | q ∈ env.failed} tree) (hup : s.up msg.src env.me S)
    (hS : σ.Tr msg.value S)
    (hcur : ci.opNotDefined = true ∧ s.acc env.me = ∅ ∨
      ci.opNotDefined = false ∧ σ.Tr ci.currentValue (s.acc env.me))
    (hst : ci.status = .notContributed ∨ ci.status = .gathering) (hg : gone = false)
    (h : ∀ v s', Advance σ env.me s s' → s'.acc env.me = S ∪ s.acc env.me →
      s'.heard env.me = insert msg.src (s.heard env.me) → s'.dec = s.dec →
      σ.Tr v (S ∪ s.acc env.me) →
      InfoRel σ s' env.me posted none { ci with opNotDefined := false, currentValue := v }) :
    ∃ s' r, (do
      let j ← eraCheckStatus env (Job.start (addContribution env ci msg) none tree)
      return j.finish) = .ok r ∧ HandledRel σ env posted gone s s' r := by
  have hadv := Advance.hear hsit hup
  set s₁ : ConsensusState EraValue :=
    { s with
      acc := update s.acc env.me (S ∪ s.acc env.me)
      heard := update s.heard env.me (insert msg.src (s.heard env.me)) } with hs₁
  have h₁ : InfoRel σ s₁ env.me posted none (addContribution env ci msg) :=
    InfoRel.addContribution htr hS hcur
      (fun v hv => h v s₁ hadv (by simp [hs₁]) (by simp [hs₁]) rfl hv) (by simp [hs₁])
  have h₂ : JobRel σ env posted s s₁ (start (addContribution env ci msg) none tree) :=
    { h₁.start ht with adv := hadv }
  obtain ⟨s', j', hcheck, h'⟩ := eraCheckStatus_spec htr h₂ (hsit.advance hadv)
    ((addContribution_fields env ci msg).1.symm ▸ hst)
  refine ⟨s', j'.finish, ?_, h'.finish hg⟩
  rw [hcheck]
  rfl

theorem msgUp_spec (h : SlotRel σ s env.me posted gone slot)
    (ht : TreeInv σ.T {q | q ∈ env.failed} tree) (hsit : Situation σ.T env s) {S : Finset ℕ}
    (hup : s.up msg.src env.me S) (hS : σ.Tr msg.value S) :
    ∃ s' r, msgUp env slot tree msg = .ok r ∧ HandledRel σ env posted gone s s' r := by
  unfold msgUp
  cases hrec : slot.record with
  | some v =>
    obtain ⟨s', h'⟩ := h.answer ht hsit hrec (.inl ⟨S, hup⟩)
    exact ⟨s', _, rfl, h'⟩
  | none =>
    cases h with
    | fresh hp hg hacc hheard hdec =>
      refine addContribution_check htr hsit ht hup hS (.inl ⟨rfl, hacc⟩) (.inl rfl) hg ?_
      intro v s' hadv hacc' hheard' hdec' hv
      exact
        { op := rfl
          comm := hp.symm
          status := by simp [hp, eraCreateAgreementInfo]
          own := by simp [hp]
          gathered := by simp [eraCreateAgreementInfo]
          tracks := hacc' ▸ hv
          early := by simp [eraCreateAgreementInfo]
          undecided := fun _ => ⟨hdec' ▸ hdec, rfl⟩
          completed := by simp [eraCreateAgreementInfo]
          record := by simp
          sentUp := by simp [eraCreateAgreementInfo]
          waiting := by simp [eraCreateAgreementInfo] }
    | @ongoing ci passed hg h =>
      obtain rfl : passed = none := by
        cases passed with
        | none => rfl
        | some d => cases d <;> simp [Slot.record] at hrec
      have hopen : ci.status ≠ .completed := fun e => h.completed e rfl
      have hhas : ci.hasStatus .broadcasting = decide (ci.status = .broadcasting) := by
        simp [hasStatus, h.op]
      simp only [getD_some, hhas, decide_eq_true_eq]
      by_cases hb : ci.status = .broadcasting
      · rw [if_pos hb]
        have h₁ : InfoRel σ s env.me posted none
            { ci with
              earlyRequesters :=
                if msg.src ∈ ci.earlyRequesters then ci.earlyRequesters
                else ci.earlyRequesters ++ [msg.src] } :=
          { h with
            early := fun y hy => by
              dsimp only at hy
              split at hy
              · exact h.early y hy
              · rcases mem_append.1 hy with hy | hy
                · exact h.early y hy
                · exact ⟨S, mem_singleton.1 hy ▸ hup⟩ }
        exact ⟨s, _, rfl, (h₁.start ht).finish hg⟩
      · rw [if_neg hb]
        have hst : ci.status = .notContributed ∨ ci.status = .gathering := by
          cases hc : ci.status with
          | notContributed => exact .inl rfl
          | gathering => exact .inr rfl
          | broadcasting => exact absurd hc hb
          | completed => exact absurd hc hopen
        by_cases hmem : msg.src ∈ ci.gatheredInfo
        · rw [if_pos hmem]
          obtain ⟨s', j', hcheck, h'⟩ := eraCheckStatus_spec htr (h.start ht) hsit hst
          refine ⟨s', j'.finish, ?_, h'.finish hg⟩
          rw [hcheck]
          rfl
        · rw [if_neg hmem]
          refine addContribution_check htr hsit ht hup hS (.inr ⟨h.op, h.tracks⟩) hst hg ?_
          intro v s' hadv hacc' hheard' hdec' hv
          exact
            { op := rfl
              comm := h.comm
              status := h.status
              own := fun e => by
                rw [hacc']
                exact Finset.mem_union_right _ (h.own e)
              gathered := fun c hc => by
                rw [hheard']
                exact .inr (h.gathered c hc)
              tracks := hacc' ▸ hv
              early := fun y hy => (h.early y hy).imp fun S' hS' => hadv.up _ _ _ hS'
              undecided := fun e => by
                rw [hdec']
                exact h.undecided e
              completed := h.completed
              record := by simp
              sentUp := fun e => by
                obtain ⟨w, S', hw⟩ := h.sentUp e
                exact ⟨w, S', hadv.up _ _ _ hw⟩
              waiting := fun hw => by
                rw [hadv.failed]
                exact h.waiting hw }
    | done => simp [Slot.record] at hrec
    | collected hp hg =>
      subst hp hg
      obtain ⟨hst, hop, hcomm⟩ := addContribution_fields env (eraCreateAgreementInfo msg.value) msg
      obtain ⟨r, hr, h'⟩ := SlotRel.ghost_up (s := s) ht (hst.trans rfl) hop (hcomm.trans rfl)
      exact ⟨s, r, hr, h'⟩
    | @ghost ci hp hg hop hst hcomm =>
      subst hp hg
      have hb : ci.hasStatus .broadcasting = false := by
        simp [hasStatus, hst]
      simp only [getD_some, hb, Bool.false_eq_true, if_false]
      split
      · obtain ⟨r, hr, h'⟩ := SlotRel.ghost_up (s := s) ht hst hop hcomm
        exact ⟨s, r, hr, h'⟩
      · obtain ⟨hst', hop', hcomm'⟩ := addContribution_fields env ci msg
        obtain ⟨r, hr, h'⟩ := SlotRel.ghost_up (s := s) ht (hst'.trans hst) hop'
          (hcomm'.trans hcomm)
        exact ⟨s, r, hr, h'⟩

end Up

theorem msgDown_spec (h : SlotRel σ s env.me posted gone slot)
    (ht : TreeInv σ.T {q | q ∈ env.failed} tree) (hsit : Situation σ.T env s)
    (hdown : s.down msg.src env.me (msg.value.view σ.keepRet))
    (hlate : σ.strict → slot.ci ≠ none → msg.src ∉ env.failed) :
    Outcome (fun e => e = .commNull ∨ e = .decideMismatch ∧ slot.ci ≠ none ∧
        ∃ old, slot.record = some old ∧ ¬ (old.ret = msg.value.ret ∧
          old.newDeadArray.length = msg.value.newDeadArray.length))
      (fun r => ∃ s', HandledRel σ env posted gone s s' r) (msgDown env slot tree msg) := by
  unfold msgDown
  cases h with
  | fresh hp hg hacc hheard hdec =>
    exact ⟨s, (SlotRel.fresh hp hg hacc hheard hdec).reply ht Sends.refl [] (by simp)⟩
  | done hp hg hdec => exact ⟨s, (SlotRel.done hp hg hdec).reply ht Sends.refl [] (by simp)⟩
  | collected hp hg => exact ⟨s, (SlotRel.collected hp hg).reply ht Sends.refl [] (by simp)⟩
  | ghost hp hg hop hst hcomm =>
    simp only [hcomm, Bool.not_false, if_true]
    exact .inl rfl
  | @ongoing ci passed hg h =>
    cases posted with
    | false =>
      simp only [h.comm, Bool.not_false, if_true]
      exact .inl rfl
    | true =>
      simp only [h.comm, Bool.not_true, Bool.false_eq_true, if_false]
      have hlate' : σ.strict → msg.src ∉ env.failed := fun hst => hlate hst (by simp)
      refine (eraDecide_own (h.start ht) hsit hdown hlate').imp (fun e he => ?_)
        (fun j' hj' => hj') |>.bind fun j' ⟨s', h'⟩ => ⟨s', h'.finish hg⟩
      obtain ⟨rfl, d, hd, hne⟩ := he
      obtain rfl : passed = some d := hd
      refine .inr ⟨rfl, by simp, d.value ci.currentValue, ?_, hne⟩
      cases d <;> rfl

theorem SlotRel.markProcessFailed (htr : σ.Tracks env.reduce) {ci : AgreementInfo} {rank : ℕ}
    (h : SlotRel σ s env.me posted gone slot) (hci : slot.ci = some ci)
    (ht : TreeInv σ.T {q | q ∈ env.failed} tree) (hsit : Situation σ.T env s)
    (hne : env.me ≠ rank)
    (hp : σ.keepRet = true → slot.passed = some .current → ci.currentValue.ret = mpiErrProcFailed) :
    ∃ s' j, eraMarkProcessFailed env rank (Job.start ci slot.passed tree) = .ok j ∧
      HandledRel σ env posted gone s s' j.finish := by
  cases h with
  | fresh => simp at hci
  | ongoing hg h =>
    obtain rfl := Option.some.inj hci
    obtain ⟨s', j, hj, h'⟩ := eraMarkProcessFailed_spec htr (h.start ht) hsit hne hp
    exact ⟨s', j, hj, h'.finish hg⟩
  | done | collected => simp at hci
  | @ghost ci' hpost hg hop hst hcomm =>
    obtain rfl := Option.some.inj hci
    refine ⟨s, start ci' none tree, ?_, Advance.refl, .ghost hpost hg hop hst hcomm, ht, ?_, ?_,
      fun _ _ _ hs => .inl hs, ?_⟩
    · simp [eraMarkProcessFailed, start, contributed, hasStatus, hop, hst, hcomm]
      rfl
    · exact fun m hm => absurd hm not_mem_nil
    · exact fun v hv => absurd hv (by simp [start, Job.finish])
    · exact fun c hc => absurd hc not_mem_nil

/-! ### The collective -/

theorem Advance.join (hsit : Situation σ.T env s) : Advance σ env.me s
      { s with acc := update s.acc env.me (insert env.me (s.acc env.me)) } :=
  ⟨.single (.join env.me hsit.alive hsit.mem), rfl, rfl,
    fun _ hq => update_of_ne hq _ _, fun _ _ => rfl, fun _ _ => rfl,
    fun _ _ _ h => h, fun _ _ h => h, fun _ _ _ h => h⟩

section Prepare

variable (htr : σ.Tracks env.reduce)

include htr

theorem contribute_fields {ci : AgreementInfo} (acked newDead : List ℕ) {value : EraValue}
    {S S' : Finset ℕ} (hv : σ.Tr value S')
    (hcur : ci.opNotDefined = true ∧ S = ∅ ∨ ci.opNotDefined = false ∧ σ.Tr ci.currentValue S) :
    ∃ v l, contribute env ci acked newDead value = { ci with
        status := .gathering, opNotDefined := false, comm := true, acked := l,
        currentValue := v } ∧ σ.Tr v (S' ∪ S) := by
  obtain ⟨r, l, hr⟩ := eraUpdateReturnValue_fields env ci (some acked)
  let ci₁ : AgreementInfo := { ci.setRet r with acked := l, comm := true }
  obtain ⟨l', hl'⟩ := eraMergeNewDeadList_fields ci₁ newDead
  have hcur' : (ci₁.setNewDead l').opNotDefined = true ∧ S = ∅ ∨
      (ci₁.setNewDead l').opNotDefined = false ∧ σ.Tr (ci₁.setNewDead l').currentValue S := by
    refine hcur.imp_right fun h => ⟨h.1, ?_⟩
    have hT := htr.forget r l' h.2
    exact hT
  obtain ⟨v, hv', hT⟩ := eraCombineAgreementValues_fields htr hv hcur'
  refine ⟨v, l, ?_, hT⟩
  unfold contribute
  simp only [hr]
  change { eraCombineAgreementValues env (eraMergeNewDeadList ci₁ newDead) value with
    status := .gathering, opNotDefined := false } = _
  rw [hl', hv']
  rfl

theorem prepareAgreement_spec (acked newDead : List ℕ) {value : EraValue}
    (h : SlotRel σ s env.me false gone slot) (ht : TreeInv σ.T {q | q ∈ env.failed} tree)
    (hsit : Situation σ.T env s) (hv : σ.Tr value {env.me}) :
    ∃ s' r, prepareAgreement env slot tree acked newDead value = .ok r ∧
      HandledRel σ env true gone s s' r := by
  have hadv := Advance.join (σ := σ) hsit
  set s₁ : ConsensusState EraValue :=
    { s with acc := update s.acc env.me (insert env.me (s.acc env.me)) } with hs₁
  have hacc₁ : s₁.acc env.me = {env.me} ∪ s.acc env.me := by
    rw [hs₁, ← Finset.insert_eq]
    exact update_self ..
  have hstart : ∀ ci, ci.comm = false → (∀ l v, σ.Tr v ({env.me} ∪ s.acc env.me) →
        InfoRel σ s₁ env.me true none
          { ci with
            status := .gathering, opNotDefined := false, comm := true, acked := l,
            currentValue := v }) →
      (ci.opNotDefined = true ∧ s.acc env.me = ∅ ∨
        ci.opNotDefined = false ∧ σ.Tr ci.currentValue (s.acc env.me)) →
      slot.ci.getD (eraCreateAgreementInfo value) = ci → gone = false →
      ∃ s' r, prepareAgreement env slot tree acked newDead value = .ok r ∧
        HandledRel σ env true gone s s' r := by
    intro ci hcomm hinfo hcur hci hg
    obtain ⟨v, l, heq, hT⟩ := contribute_fields htr acked newDead hv hcur
    have h₁ : JobRel σ env true s s₁
        (start (contribute env ci acked newDead value) none tree) :=
      { InfoRel.start (heq ▸ hinfo l v hT) ht with adv := hadv }
    obtain ⟨s', j', hcheck, h'⟩ := eraCheckStatus_spec htr h₁ (hsit.advance hadv)
      (.inr (by simp [start, heq]))
    refine ⟨s', j'.finish, ?_, h'.finish hg⟩
    unfold prepareAgreement
    simp only [hci, hcomm, Bool.false_eq_true, if_false, hcheck, ok_bind]
    rfl
  cases h with
  | fresh hp hg hacc hheard hdec =>
    refine hstart _ rfl (fun l v hT => ?_) (.inl ⟨rfl, hacc⟩) rfl hg
    exact
      { op := rfl
        comm := rfl
        status := by simp
        own := fun _ => by simp [hacc₁]
        gathered := by simp [eraCreateAgreementInfo]
        tracks := hacc₁ ▸ hT
        early := by simp [eraCreateAgreementInfo]
        undecided := fun _ => ⟨hdec, rfl⟩
        completed := by simp
        record := by simp
        sentUp := by simp
        waiting := by simp [eraCreateAgreementInfo] }
  | @ongoing ci passed hg h =>
    have hst := h.status.2 rfl
    refine hstart ci h.comm (fun l v hT => ?_) (.inr ⟨h.op, h.tracks⟩) rfl hg
    exact
      { op := rfl
        comm := rfl
        status := by simp
        own := fun _ => by simp [hacc₁]
        gathered := h.gathered
        tracks := hacc₁ ▸ hT
        early := h.early
        undecided := fun _ => ⟨(h.undecided (by simp [hst])).1, rfl⟩
        completed := by simp
        record := by simp
        sentUp := by simp
        waiting := fun hw => ⟨(h.waiting hw).1, by simp⟩ }
  | done hp | collected hp | ghost hp => simp at hp

end Prepare

theorem completeAgreement_spec {ci : AgreementInfo} (h : SlotRel σ s p posted gone slot)
    (hci : slot.ci = some ci) (hst : ci.status = .completed) :
    ∃ v, completeAgreement slot = .ok (v, { ci := none, passed := some (.own v) }) ∧
      slot.record = some v ∧
      SlotRel σ s p posted gone { ci := none, passed := some (.own v) } := by
  obtain ⟨hg, hinfo⟩ := h.info_of hci (by simp [hst])
  obtain ⟨d, hd⟩ := ne_none_iff_exists'.1 (hinfo.completed hst)
  have hrec : slot.record = some (d.value ci.currentValue) := by
    rw [record, hd, hci]
    cases d <;> rfl
  refine ⟨_, ?_, hrec, .done (hinfo.posted_eq_true (by simp [hst])) hg (h.record_dec hrec)⟩
  rw [completeAgreement, hrec]
  rfl

end Ulfm
