import Ulfm.Era.Agreement.Handlers
import Ulfm.Era.Agreement.World
import Ulfm.Era.Tree.Hierarchy

/-!
# Runs simulate the tree consensus

`WorldRel` relates a world to a state of `ConsensusState` and carries the
invariants of the consensus along. Every step of the world is a sequence of moves
(`WorldRel.step`), and so is every run (`WorldRel.run`). The conditions that a
step has to meet depend on what is to be shown: `Sim.Allowed` asks for nothing
unless `strict` or `keepRet` is set.
-/

namespace Ulfm

open List Function Relation World ConsensusState

/-- The tree is one that the code builds for the agreed failed ranks. -/
def EraConfig.Built (cfg : EraConfig) : Prop :=
  cfg.agreedFailedRanks.Pairwise (· < ·) ∧ (∀ d ∈ cfg.agreedFailedRanks, d < cfg.size) ∧
    ∃ topology daemon,
      cfg.tree = eraBuildTreeStructure topology daemon cfg.size cfg.agreedFailedRanks

def EraConfig.Participant (cfg : EraConfig) (p : ℕ) : Prop :=
  p < cfg.size ∧ p ∉ cfg.agreedFailedRanks

instance (cfg : EraConfig) (p : ℕ) : Decidable (cfg.Participant p) :=
  inferInstanceAs (Decidable (p < cfg.size ∧ p ∉ cfg.agreedFailedRanks))

/-- What the simulation asks of the configuration. -/
structure Sim.Fits (σ : Sim) (cfg : EraConfig) : Prop where
  mem : ∀ p, p ∈ σ.T.mem ↔ cfg.Participant p
  tree : TreeInv σ.T ∅ cfg.tree
  tracks : σ.Tracks cfg.reduce
  contribution : ∀ p, cfg.Participant p → σ.Tr (cfg.contribution p) {p}

/-- What the simulation asks of a step. With `keepRet`, no failure is handled while
the record of the decision is the current value of the agreement and reports no
failure yet; with `strict`, no decision of a process that is known to have failed is handled, and no
answer is made up. -/
def Sim.Allowed (σ : Sim) (w : World) : Action → Prop
  | .notify p _ => σ.keepRet = true → (w.proc p).slot.passed = some .current →
      ∀ v, (w.proc p).slot.record = some v → v.ret = mpiErrProcFailed
  | .deliver i => σ.strict → ∀ m, w.net[i]? = some m →
      (m.type = .down → (w.proc m.dst).slot.ci ≠ none → m.src ∉ (w.proc m.dst).failed) ∧
      (m.type = .resultRequest → m.value.dtCount = 0 → (w.proc m.dst).slot.record ≠ none ∨
          (w.proc m.dst).slot.ci.any (·.hasStatus .broadcasting) = true)
  | _ => True

/-- A world and the state of the consensus that it stands for. -/
structure WorldRel (σ : Sim) (cfg : EraConfig) (w : World) (s : ConsensusState EraValue) :
    Prop where
  dead : s.dead = w.crashed
  agreed : ∀ q ∈ cfg.agreedFailedRanks, q ∈ w.crashed
  failed : ∀ p, s.failed p = {q | q ∈ (w.proc p).failed}
  slot : ∀ p ∈ σ.T.mem, SlotRel σ s p (w.proc p).posted (w.proc p).collected (w.proc p).slot
  tree : ∀ p ∈ σ.T.mem, TreeInv σ.T {q | q ∈ (w.proc p).failed} (w.proc p).tree
  sent : ∀ m ∈ w.sent, Recorded σ s m
  net : ∀ m ∈ w.net, m ∈ w.sent
  decided : ∀ p v, (w.proc p).decided = some v → s.dec p = some (v.view σ.keepRet)
  returned : ∀ p v, (w.proc p).returned = some v → s.dec p = some (v.view σ.keepRet)
  decisions : ∀ d ∈ w.decisions, s.dec d.rank = some (d.value.view σ.keepRet)
  settled : ∀ u A S, s.settled u A S → ∃ d ∈ w.decisions, d.root = true ∧
    u = d.value.view σ.keepRet ∧ A = {q | q ∈ σ.T.mem ∧ q ∉ d.crashed} ∧ σ.Tr d.value S
  calls : ∀ c ∈ w.calls, CallOk σ.T c.1 c.2
  cover : ConsensusState.Cover σ.T σ.void s
  agree : σ.strict → ConsensusState.Agree σ.T s

/-- The assertions that a step may violate: the one on the communicator, and the
comparison of two decisions unless both are known to be the same. -/
def Sim.Raises (σ : Sim) (e : EraAssert) : Prop :=
  e = .commNull ∨ e = .decideMismatch ∧ ¬ (σ.strict ∧ σ.keepRet = true)

variable {σ : Sim} {cfg : EraConfig} {w w' : World} {s s' : ConsensusState EraValue}
  {p : ℕ} {a : Action}

theorem Sim.move_of_strict (hs : σ.strict) : σ.Move = ConsensusState.Move σ.T σ.void True := by
  have : σ.strict = True := by simpa using hs
  rw [Sim.Move, this]

namespace WorldRel

theorem moves (h : WorldRel σ cfg w s) (hm : ReflTransGen σ.Move s s') :
    ConsensusState.Cover σ.T σ.void s' ∧ (σ.strict → ConsensusState.Agree σ.T s') := by
  refine ⟨h.cover.moves hm, fun hst => ?_⟩
  rw [Sim.move_of_strict hst] at hm
  exact ConsensusState.Agree.moves h.cover (h.agree hst) hm

theorem mem_of_alive (hf : σ.Fits cfg) (h : WorldRel σ cfg w s) (hp : w.alive cfg p = true) :
    p ∈ σ.T.mem ∧ p ∉ s.dead := by
  simp only [alive, Bool.and_eq_true, decide_eq_true_eq] at hp
  refine ⟨(hf.mem p).2 ⟨hp.1, fun hq => hp.2 (h.agreed p hq)⟩, ?_⟩
  rw [h.dead]
  exact hp.2

theorem self_notMem_failed (h : WorldRel σ cfg w s) (hm : p ∈ σ.T.mem) (hp : p ∉ s.dead) :
    p ∉ (w.proc p).failed := by
  intro hq
  refine hp (h.cover.failed_dead hm ?_)
  rw [h.failed p]
  exact hq

theorem situation (h : WorldRel σ cfg w s) (hm : p ∈ σ.T.mem) (hp : p ∉ s.dead) :
    Situation σ.T (w.env cfg p) s :=
  ⟨hm, hp, h.failed p, h.self_notMem_failed hm hp⟩

theorem store (h : WorldRel σ cfg w s) {posted : Bool} {r : Handled}
    (hr : HandledRel σ (w.env cfg p) posted (w.proc p).collected s s' r) :
    WorldRel σ cfg ((w.setProc p { w.proc p with posted := posted }).store p r) s' := by
  obtain ⟨hcover, hagree⟩ := h.moves hr.adv.moves
  have hdec : ∀ q v, s.dec q = some v → s'.dec q = some v := fun q v hv =>
    dec_eq_some_of_moves hr.adv.moves hv
  set w' := (w.setProc p { w.proc p with posted := posted }).store p r with hw'
  have hother : ∀ q ≠ p, w'.proc q = w.proc q := fun q hq => by
    rw [hw', store_proc_of_ne hq, setProc_proc_of_ne hq]
  have hself : w'.proc p = { w.proc p with
        posted := posted
        slot := r.slot
        tree := r.tree
        decided := r.decided.orElse fun _ => (w.proc p).decided } := by
    rw [hw', store_proc_self, setProc_proc_self]
  have hfailed : ∀ q, (w'.proc q).failed = (w.proc q).failed := by
    intro q
    by_cases hq : q = p
    · rw [hq, hself]
    · rw [hother q hq]
  refine
    { dead := hr.adv.dead.trans h.dead
      agreed := h.agreed
      failed := fun q => by
        rw [hfailed, hr.adv.failed]
        exact h.failed q
      slot := fun q hq => ?_
      tree := fun q hq => ?_
      sent := fun m hm => ?_
      net := fun m hm => ?_
      decided := fun q v hv => ?_
      returned := fun q v hv => ?_
      decisions := fun d hd => ?_
      settled := fun u A S hu => ?_
      calls := fun c hc => ?_
      cover := hcover
      agree := hagree }
  · by_cases hqp : q = p
    · subst hqp
      rw [hself]
      exact hr.slot
    · rw [hother q hqp]
      refine (h.slot q hq).around ⟨hr.adv.acc q hqp, hr.adv.heard q hqp, hr.adv.dec q hqp,
        hr.adv.up, ?_⟩
      rw [hr.adv.failed]
      exact id
  · rw [hfailed]
    by_cases hqp : q = p
    · subst hqp
      rw [hself]
      exact hr.tree
    · rw [hother q hqp]
      exact h.tree q hq
  · rcases mem_append.1 hm with hm | hm
    · exact (h.sent m hm).mono hr.adv.up hr.adv.ask hr.adv.down
    · exact (hr.sent m hm).2
  · rcases mem_append.1 hm with hm | hm
    · exact mem_append_left _ (h.net m hm)
    · exact mem_append_right _ hm
  · by_cases hqp : q = p
    · subst hqp
      rw [hself] at hv
      cases hd : r.decided with
      | none =>
        simp only [hd, Option.orElse_none] at hv
        exact hdec q _ (h.decided q v hv)
      | some u =>
        obtain rfl : u = v := by simpa [hd] using hv
        exact hr.decided u hd
    · rw [hother q hqp] at hv
      exact hdec q _ (h.decided q v hv)
  · by_cases hqp : q = p
    · subst hqp
      rw [hself] at hv
      exact hdec q _ (h.returned q v hv)
    · rw [hother q hqp] at hv
      exact hdec q _ (h.returned q v hv)
  · rcases mem_append.1 hd with hd | hd
    · exact hdec _ _ (h.decisions d hd)
    · obtain ⟨v, hv, rfl⟩ := mem_map.1 hd
      exact hr.decided v (Option.mem_toList.1 hv)
  · rcases hr.settled u A S hu with hu | ⟨v, hv, hpass, rfl, rfl, hT⟩
    · obtain ⟨d, hd, hd'⟩ := h.settled u A S hu
      exact ⟨d, mem_append_left _ hd, hd'⟩
    · refine ⟨_, mem_append_right _ (mem_map.2 ⟨v, by simp [hv], rfl⟩), ?_, rfl, ?_, hT⟩
      · simp [hpass]
      · rw [hr.adv.dead, h.dead]
        rfl
  · rcases mem_append.1 hc with hc | hc
    · exact h.calls c hc
    · obtain ⟨c', hc', rfl⟩ := mem_map.1 hc
      exact hr.calls c' hc'

theorem handleMsg_spec (hf : σ.Fits cfg) (h : WorldRel σ cfg w s) {msg : EraMsg}
    (hmsg : Recorded σ s msg) (hp : w.alive cfg msg.dst = true)
    (hlate : σ.strict → msg.type = .down → (w.proc msg.dst).slot.ci ≠ none →
      msg.src ∉ (w.proc msg.dst).failed)
    (hvoid : σ.strict → msg.type = .resultRequest → msg.value.dtCount = 0 →
      (w.proc msg.dst).slot.record ≠ none ∨
        (w.proc msg.dst).slot.ci.any (·.hasStatus .broadcasting) = true) :
    Outcome σ.Raises (fun r => ∃ s', HandledRel σ (w.env cfg msg.dst) (w.proc msg.dst).posted
        (w.proc msg.dst).collected s s' r)
      (handleMsg (w.env cfg msg.dst) (w.proc msg.dst).slot (w.proc msg.dst).tree msg) := by
  obtain ⟨hm, hd⟩ := h.mem_of_alive hf hp
  have hsit := h.situation hm hd
  have hslot := h.slot _ hm
  have htree := h.tree _ hm
  unfold handleMsg
  unfold Recorded at hmsg
  cases htype : msg.type with
  | resultRequest =>
    rw [htype] at hmsg
    obtain ⟨hask, S, hS⟩ := hmsg
    have hask' : s.ask msg.src (w.env cfg msg.dst).me := hask
    obtain ⟨s', r, hr, hrel⟩ := resultRequest_spec hslot htree hsit hask' hS
      fun hst => hvoid hst htype
    dsimp only
    rw [hr]
    exact ⟨s', hrel⟩
  | up =>
    rw [htype] at hmsg
    obtain ⟨S, hup, hT⟩ := hmsg
    obtain ⟨s', r, hr, hrel⟩ := msgUp_spec hf.tracks hslot htree hsit hup hT
    dsimp only
    rw [hr]
    exact ⟨s', hrel⟩
  | down =>
    rw [htype] at hmsg
    refine (msgDown_spec hslot htree hsit hmsg fun hst => hlate hst htype).imp
      (fun e he => ?_) fun r hr => hr
    rcases he with rfl | ⟨rfl, hci, old, hold, hne⟩
    · exact Or.inl rfl
    · refine Or.inr ⟨rfl, fun ⟨hst, hk⟩ => hne ?_⟩
      have hdec := hslot.record_dec hold
      have hfrom : msg.src ∉ s.failed msg.dst := by
        rw [h.failed]
        exact hlate hst htype hci
      have heq := (h.agree hst).down_eq hd hdec hmsg hfrom
      rw [hk] at heq
      obtain rfl : old = msg.value := heq
      exact ⟨rfl, rfl⟩

theorem setProc_posted_self : w.setProc p { w.proc p with posted := (w.proc p).posted } = w := by
  change { w with proc := update w.proc p (w.proc p) } = w
  rw [update_eq_self]

section

variable (hf : σ.Fits cfg) (h : WorldRel σ cfg w s)
include hf h

theorem deliver {i : ℕ} (ha : σ.Allowed w (.deliver i)) {x : Except EraAssert World}
    (hx : w.step cfg (.deliver i) = some x) :
    Outcome σ.Raises (fun w' => ∃ s', WorldRel σ cfg w' s' ∧ ReflTransGen σ.Move s s') x := by
  simp only [World.step] at hx
  cases hi : w.net[i]? with
  | none => simp [hi] at hx
  | some msg =>
    simp only [hi] at hx
    split at hx
    · next hp =>
        obtain rfl := Option.some.inj hx
        set w₁ : World := { w with net := w.net.eraseIdx i } with hw₁
        have h₁ : WorldRel σ cfg w₁ s :=
          { h with net := fun m hm => h.net m (mem_of_mem_eraseIdx hm) }
        have hmem : msg ∈ w.net := mem_of_getElem? hi
        refine (h₁.handleMsg_spec hf (h.sent msg (h.net msg hmem)) hp
          (fun hst => (ha hst msg hi).1) fun hst => (ha hst msg hi).2).bind ?_
        rintro r ⟨s', hr⟩
        have h₂ := h₁.store hr
        rw [setProc_posted_self] at h₂
        exact ⟨s', h₂, hr.adv.moves⟩
    · simp at hx

theorem post {d : Bool} {x : Except EraAssert World} (hx : w.step cfg (.post p d) = some x) :
    Outcome σ.Raises (fun w' => ∃ s', WorldRel σ cfg w' s' ∧ ReflTransGen σ.Move s s') x := by
  simp only [World.step] at hx
  split at hx
  · next hp =>
      obtain ⟨hp, hnot⟩ := hp
      obtain ⟨hm, hd⟩ := h.mem_of_alive hf hp
      have hslot : SlotRel σ s p false (w.proc p).collected (w.proc p).slot := by
        have := h.slot p hm
        rwa [Bool.eq_false_iff.2 hnot] at this
      set w₁ := w.setProc p { w.proc p with posted := true } with hw₁
      have henv : w₁.env cfg p = w.env cfg p := by
        simp [env, hw₁]
      have hs : (w₁.proc p).slot = (w.proc p).slot ∧ (w₁.proc p).tree = (w.proc p).tree := by
        simp [hw₁]
      have hsit := h.situation hm hd
      obtain ⟨s', r, hr, hrel⟩ := prepareAgreement_spec hf.tracks (cfg.acked p)
        (w₁.newDead cfg p d) hslot (h.tree p hm) hsit (hf.contribution p ((hf.mem p).1 hm))
      obtain rfl := Option.some.inj hx
      rw [henv, hs.1, hs.2, hr]
      exact ⟨s', h.store hrel, hrel.adv.moves⟩
  · simp at hx

theorem crash (hp : w.alive cfg p = true) :
    ∃ s', WorldRel σ cfg { w with crashed := w.crashed ++ [p] } s' ∧ ReflTransGen σ.Move s s' := by
  obtain ⟨hm, hd⟩ := h.mem_of_alive hf hp
  have hmove : σ.Move s { s with dead := s.dead ++ [p] } := .crash p hd
  obtain ⟨hcover, hagree⟩ := h.moves (.single hmove)
  refine ⟨_, ?_, .single hmove⟩
  exact
    { dead := by
        change s.dead ++ [p] = _
        rw [h.dead]
      agreed := fun q hq => mem_append_left _ (h.agreed q hq)
      failed := h.failed
      slot := fun q hq => (h.slot q hq).around ⟨rfl, rfl, rfl, fun _ _ _ h => h, id⟩
      tree := h.tree
      sent := fun m hm => (h.sent m hm).mono (fun _ _ _ h => h) (fun _ _ h => h)
        fun _ _ _ h => h
      net := h.net
      decided := h.decided
      returned := h.returned
      decisions := h.decisions
      settled := h.settled
      calls := h.calls
      cover := hcover
      agree := hagree }

end

theorem learn (h : WorldRel σ cfg w s) {q : ℕ} (hm : p ∈ σ.T.mem) (hp : p ∉ s.dead)
    (hq : q ∈ w.crashed) :
    WorldRel σ cfg (w.setProc p { w.proc p with failed := (w.proc p).failed ++ [q] })
        { s with failed := Function.update s.failed p (insert q (s.failed p)) } ∧
      σ.Move s { s with failed := Function.update s.failed p (insert q (s.failed p)) } := by
  have hqd : q ∈ s.dead := h.dead ▸ hq
  have hpq : p ≠ q := fun e => hp (e ▸ hqd)
  have hmove : σ.Move s
      { s with failed := update s.failed p (insert q (s.failed p)) } :=
    .notify p q hp hqd
  obtain ⟨hcover, hagree⟩ := h.moves (.single hmove)
  set w' := w.setProc p { w.proc p with failed := (w.proc p).failed ++ [q] } with hw'
  have hself : w'.proc p = { w.proc p with failed := (w.proc p).failed ++ [q] } := by
    rw [hw', setProc_proc_self]
  have hother : ∀ r ≠ p, w'.proc r = w.proc r := fun r hr => setProc_proc_of_ne hr
  have hproc : ∀ r, (w'.proc r).posted = (w.proc r).posted ∧ (w'.proc r).slot = (w.proc r).slot ∧
      (w'.proc r).tree = (w.proc r).tree ∧ (w'.proc r).decided = (w.proc r).decided ∧
      (w'.proc r).returned = (w.proc r).returned ∧
      (w'.proc r).collected = (w.proc r).collected := by
    intro r
    by_cases hr : r = p
    · rw [hr, hself]
      exact ⟨rfl, rfl, rfl, rfl, rfl, rfl⟩
    · rw [hother r hr]
      exact ⟨rfl, rfl, rfl, rfl, rfl, rfl⟩
  have hset : insert q (s.failed p) = {x | x ∈ (w.proc p).failed ++ [q]} := by
    rw [h.failed p]
    ext x
    simp [or_comm]
  refine ⟨?_, hmove⟩
  exact
    { dead := h.dead
      agreed := h.agreed
      failed := fun r => by
        by_cases hr : r = p
        · subst hr
          rw [hself]
          exact (update_self ..).trans hset
        · rw [hother r hr]
          exact (update_of_ne hr ..).trans (h.failed r)
      slot := fun r hr => by
        rw [(hproc r).1, (hproc r).2.1, (hproc r).2.2.2.2.2]
        refine (h.slot r hr).around ⟨rfl, rfl, rfl, fun _ _ _ h => h, fun hroot => ?_⟩
        by_cases hrp : r = p
        · subst hrp
          change σ.T.IsParent (update s.failed r (insert q (s.failed r)) r) r r
          rw [update_self]
          refine hroot.mono (Set.subset_insert _ _) ?_
          rintro (e | e)
          · exact hpq e
          · exact hroot.alive e
        · change σ.T.IsParent (update s.failed p (insert q (s.failed p)) r) r r
          rw [update_of_ne hrp]
          exact hroot
      tree := fun r hr => by
        rw [(hproc r).2.2.1]
        refine (h.tree r hr).mono ?_
        by_cases hrp : r = p
        · subst hrp
          rw [hself]
          exact fun x hx => mem_append_left _ hx
        · rw [hother r hrp]
      sent := fun m hm => (h.sent m hm).mono (fun _ _ _ h => h) (fun _ _ h => h)
        fun _ _ _ h => h
      net := h.net
      decided := fun r v hv => h.decided r v ((hproc r).2.2.2.1 ▸ hv)
      returned := fun r v hv => h.returned r v ((hproc r).2.2.2.2.1 ▸ hv)
      decisions := h.decisions
      settled := h.settled
      calls := h.calls
      cover := hcover
      agree := hagree }

theorem notify (hf : σ.Fits cfg) (h : WorldRel σ cfg w s) {q : ℕ}
    (ha : σ.Allowed w (.notify p q)) {x : Except EraAssert World}
    (hx : w.step cfg (.notify p q) = some x) :
    Outcome σ.Raises (fun w' => ∃ s', WorldRel σ cfg w' s' ∧ ReflTransGen σ.Move s s') x := by
  simp only [World.step] at hx
  split at hx
  · next hp =>
      obtain ⟨hp, hq, -⟩ := hp
      obtain ⟨hm, hd⟩ := h.mem_of_alive hf hp
      obtain ⟨h₁, hmove⟩ := h.learn hm hd hq
      have hpq : p ≠ q := fun e => hd (h.dead ▸ e ▸ hq)
      set w₁ := w.setProc p { w.proc p with failed := (w.proc p).failed ++ [q] } with hw₁
      set s₁ : ConsensusState EraValue :=
        { s with failed := update s.failed p (insert q (s.failed p)) }
      have hslot : (w₁.proc p).slot = (w.proc p).slot := by simp [hw₁]
      cases hci : (w₁.proc p).slot.ci with
      | none =>
        simp only [hci] at hx
        obtain rfl := Option.some.inj hx
        exact ⟨s₁, h₁, .single hmove⟩
      | some ci =>
        simp only [hci] at hx
        obtain rfl := Option.some.inj hx
        have hsit := h₁.situation hm hd
        have hret : σ.keepRet = true → (w₁.proc p).slot.passed = some .current →
            ci.currentValue.ret = mpiErrProcFailed := by
          intro hk hpass
          refine ha hk (hslot ▸ hpass) ci.currentValue ?_
          rw [← hslot, Slot.record, hpass, hci]
        obtain ⟨s', j, hj, hrel⟩ := (h₁.slot p hm).markProcessFailed hf.tracks hci
          (h₁.tree p hm) hsit hpq hret
        rw [hj]
        have h₂ := h₁.store hrel
        rw [setProc_posted_self] at h₂
        exact ⟨s', h₂, .head hmove hrel.adv.moves⟩
  · simp at hx

theorem quiet (h : WorldRel σ cfg w s) {x : Proc}
    (hfailed : x.failed = (w.proc p).failed) (hdecided : x.decided = (w.proc p).decided)
    (hslot : p ∈ σ.T.mem → SlotRel σ s p x.posted x.collected x.slot)
    (htree : p ∈ σ.T.mem → TreeInv σ.T {q | q ∈ x.failed} x.tree)
    (hret : ∀ v, x.returned = some v → s.dec p = some (v.view σ.keepRet)) :
    WorldRel σ cfg (w.setProc p x) s :=
  { h with
    failed := forall_setProc (P := fun q y => s.failed q = {r | r ∈ y.failed})
      (hfailed ▸ h.failed p) h.failed
    slot := forall_setProc
      (P := fun q y => q ∈ σ.T.mem → SlotRel σ s q y.posted y.collected y.slot) hslot h.slot
    tree := forall_setProc
      (P := fun q y => q ∈ σ.T.mem → TreeInv σ.T {r | r ∈ y.failed} y.tree) htree h.tree
    decided := forall_setProc
      (P := fun q y => ∀ v, y.decided = some v → s.dec q = some (v.view σ.keepRet))
      (fun v hv => h.decided p v (hdecided ▸ hv)) h.decided
    returned := forall_setProc
      (P := fun q y => ∀ v, y.returned = some v → s.dec q = some (v.view σ.keepRet))
      hret h.returned }

theorem complete (hf : σ.Fits cfg) (h : WorldRel σ cfg w s) {x : Except EraAssert World}
    (hx : w.step cfg (.complete p) = some x) : ∃ w', x = .ok w' ∧ WorldRel σ cfg w' s := by
  simp only [World.step] at hx
  split at hx
  · next hp =>
      obtain ⟨hp, hst⟩ := hp
      obtain ⟨hm, hd⟩ := h.mem_of_alive hf hp
      obtain ⟨ci, hci, hst⟩ : ∃ ci, (w.proc p).slot.ci = some ci ∧ ci.status = .completed := by
        cases hci : (w.proc p).slot.ci with
        | none => simp [hci] at hst
        | some ci =>
          refine ⟨ci, rfl, ?_⟩
          simp only [hci, Option.any_some, AgreementInfo.hasStatus, Bool.and_eq_true,
            decide_eq_true_eq] at hst
          exact hst.1
      obtain ⟨v, hv, hrec, hslot⟩ := completeAgreement_spec (h.slot p hm) hci hst
      obtain rfl := Option.some.inj hx
      rw [hv]
      refine ⟨_, rfl, h.quiet rfl rfl (fun _ => hslot) (fun _ => h.tree p hm) fun u hu => ?_⟩
      obtain rfl := Option.some.inj hu
      exact (h.slot p hm).record_dec hrec
  · simp at hx

theorem collect (h : WorldRel σ cfg w s) (hci : (w.proc p).slot.ci = none) :
    WorldRel σ cfg (w.setProc p { w.proc p with
        slot := { (w.proc p).slot with passed := none }
        collected := (w.proc p).collected || (w.proc p).slot.passed.isSome }) s := by
  refine h.quiet rfl rfl (fun hm => ?_) (h.tree p) (h.returned p)
  have hslot := h.slot p hm
  generalize (w.proc p).slot = slot at hci hslot
  generalize (w.proc p).collected = gone at hslot
  cases hslot with
  | fresh hp hg hacc hheard hdec => exact .fresh hp (by simp [hg]) hacc hheard hdec
  | ongoing hg h => simp at hci
  | done hp hg hdec => exact .collected hp (by simp)
  | collected hp hg => exact .collected hp (by simp [hg])
  | ghost hp hg hop hst hcomm => simp at hci

/-- Every step that meets the conditions is a sequence of moves of the consensus,
and it only violates the assertions of `Sim.Raises`. -/
theorem step (hf : σ.Fits cfg) (h : WorldRel σ cfg w s) (ha : σ.Allowed w a)
    {x : Except EraAssert World} (hx : w.step cfg a = some x) :
    Outcome σ.Raises (fun w' => ∃ s', WorldRel σ cfg w' s' ∧ ReflTransGen σ.Move s s') x := by
  cases a with
  | post p d => exact h.post hf hx
  | deliver i => exact h.deliver hf ha hx
  | crash p =>
    simp only [World.step] at hx
    split at hx
    · next hp =>
        obtain rfl := Option.some.inj hx
        exact h.crash hf hp
    · simp at hx
  | notify p q => exact h.notify hf ha hx
  | complete p =>
    obtain ⟨w', rfl, h'⟩ := h.complete hf hx
    exact ⟨s, h', .refl⟩
  | failElsewhere p =>
    simp only [World.step] at hx
    split at hx
    · obtain rfl := Option.some.inj hx
      exact ⟨s, h.quiet rfl rfl (h.slot p) (h.tree p) (h.returned p), .refl⟩
    · simp at hx
  | parentElsewhere p =>
    simp only [World.step] at hx
    split at hx
    · next hp =>
        obtain ⟨hm, hd⟩ := h.mem_of_alive hf hp
        obtain ⟨r, t, heq, -, hrep⟩ := eraParent_spec (h.tree p hm) hm (h.self_notMem_failed hm hd)
        simp only [heq] at hx
        obtain rfl := Option.some.inj hx
        exact ⟨s, h.quiet rfl rfl (h.slot p) (fun _ => hrep.treeInv) (h.returned p), .refl⟩
    · simp at hx
  | childrenElsewhere p gathered =>
    simp only [World.step] at hx
    split at hx
    · next hp =>
        obtain ⟨hm, hd⟩ := h.mem_of_alive hf hp
        obtain ⟨rs, all, t, heq, hch, -⟩ := eraChildrenWhile_spec
          (fun r => decide (r ∈ gathered)) (h.tree p hm) hm (h.self_notMem_failed hm hd)
        simp only [heq] at hx
        obtain rfl := Option.some.inj hx
        exact ⟨s, h.quiet rfl rfl (h.slot p) (fun _ => hch.inv) (h.returned p), .refl⟩
    · simp at hx
  | collect p =>
    simp only [World.step] at hx
    split at hx
    · next hp =>
        obtain rfl := Option.some.inj hx
        exact ⟨s, h.collect hp.2, .refl⟩
    · simp at hx

theorem init (hf : σ.Fits cfg) :
    WorldRel σ cfg (World.init cfg) (ConsensusState.init cfg.agreedFailedRanks) where
  dead := rfl
  agreed _ hq := hq
  failed _ := rfl
  slot _ _ := .fresh rfl rfl rfl rfl rfl
  tree _ _ := hf.tree.mono (Set.empty_subset _)
  sent _ hm := absurd hm not_mem_nil
  net _ hm := absurd hm not_mem_nil
  decided _ _ hv := by simp [World.init] at hv
  returned _ _ hv := by simp [World.init] at hv
  decisions _ hd := absurd hd not_mem_nil
  settled _ _ _ hs := hs.elim
  calls _ hc := absurd hc not_mem_nil
  cover := cover_init fun q hq hm => ((hf.mem q).1 hm).2 hq
  agree _ := agree_init

theorem run {ok : World → Action → Prop} {as : List Action} (hf : σ.Fits cfg)
    (hok : ∀ w s a, WorldRel σ cfg w s → ok w a → σ.Allowed w a) (h : WorldRel σ cfg w s)
    (hr : World.Run cfg ok w as w') :
    ∃ s', WorldRel σ cfg w' s' ∧ ReflTransGen σ.Move s s' := by
  induction hr generalizing s with
  | refl w => exact ⟨s, h, .refl⟩
  | step hoka hstep hr ih =>
    obtain ⟨s₁, h₁, hm₁⟩ := h.step hf (hok _ _ _ h hoka) hstep
    obtain ⟨s₂, h₂, hm₂⟩ := ih h₁
    exact ⟨s₂, h₂, hm₁.trans hm₂⟩

end WorldRel

theorem EraConfig.Built.exists_tree (h : cfg.Built) :
    ∃ T : RankTree, (∀ p, p ∈ T.mem ↔ cfg.Participant p) ∧ TreeInv T ∅ cfg.tree := by
  obtain ⟨hs, hn, topology, daemon, ht⟩ := h
  rw [ht]
  exact eraBuildTreeStructure_treeInv topology daemon hs hn

end Ulfm
