import Ulfm.Cid.Table
import Ulfm.Foundation.Trace

/-!
# The rounds of a collective call

What the processes know of each other through the reductions. A round that some
process has left was the same for all the members: all of them had contributed to it,
and they all read the same result from it.
-/

namespace Ulfm

namespace Cid

variable {P G : Type} [DecidableEq P] [DecidableEq G] {cfg : Config P G} {w w' : World P G}
  {p : P} {g : G} {s : Proc G}

/-- The number of rounds to which a call has contributed. -/
def Phase.contributed : Phase → ℕ
  | .idle => 0
  | .waiting _ _ round | .entered _ round => round
  | .sent _ round | .reduced _ round _ | .done round _ => round + 1

/-- The number of rounds that a call has left. -/
def Phase.round : Phase → ℕ
  | .idle => 0
  | .waiting _ _ round | .entered _ round | .sent _ round | .reduced _ round _ | .done round _ =>
    round

/-- The round whose reduction a call is in. -/
def Phase.inReduction : Phase → Option ℕ
  | .sent _ round | .reduced _ round _ => some round
  | _ => none

/-- The entry that the members take from the result of a round. -/
def Settles (cfg : Config P G) (w : World P G) (g : G) (round : ℕ) (next : Elem) : Prop :=
  ∃ result, Reduces (w.contribs g round) (cfg.members g) result ∧
    takeMin (result.entries cfg.reduxSize) = next

/-- What the calls of a process have to do with the reductions. -/
structure LocalInv (cfg : Config P G) (w : World P G) (p : P) (s : Proc G) : Prop where
  member : ∀ g, s.calls g ≠ .idle → p ∈ cfg.members g
  contributed : ∀ g round, (w.contribs g round p).isSome → round < (s.calls g).contributed
  entered : ∀ g call round, s.calls g = .entered call round →
    ∃ table, w.before g round p = some table ∧ ∀ c ∈ s.lCIDs.cids, slot table c = none
  inReduction : ∀ g round, (s.calls g).inReduction = some round →
    w.contribs g round p = some s.lCIDs
  reduced : ∀ g call round ok, s.calls g = .reduced call round ok → w.outcome g round = some ok ∧
      (ok = true → Reduces (w.contribs g round) (cfg.members g) s.gCIDs)
  left : ∀ g round, round < (s.calls g).round →
    w.outcome g round = some true ∧ ∃ next, Settles cfg w g round next ∧ next.cid = 0
  failed : ∀ g round, s.calls g = .done round none → w.outcome g round = some false
  granted : ∀ g round e, s.calls g = .done round (some e) → w.outcome g round = some true ∧
    ∃ next, Settles cfg w g round next ∧ next.cid ≠ 0 ∧ e = ⟨next.cid, (next.epoch + 1) % 2 ^ 32⟩

structure Inv (cfg : Config P G) (w : World P G) : Prop where
  proc : ∀ p, ProcInv (w.procs p)
  loc : ∀ p, LocalInv cfg w p (w.procs p)
  nodup : ∀ g round p a, w.contribs g round p = some a → a.cids.Nodup
  epoch : ∀ g round p a, w.contribs g round p = some a → ∀ e ∈ a.avail, e.epoch < 2 ^ 32 - 1
  free : ∀ g round p a, w.contribs g round p = some a →
    ∃ table, w.before g round p = some table ∧ ∀ c ∈ a.cids, slot table c = none
  complete : ∀ g round, (w.outcome g round).isSome → ∀ p ∈ cfg.members g,
    (w.contribs g round p).isSome

omit [DecidableEq P] in
theorem Reduces.congr {contribution contribution' : P → Option CidArray} {l l' : List P}
    {r : CidArray} (h : Reduces contribution l r) (hl : ∀ q, q ∈ l' ↔ q ∈ l)
    (heq : ∀ q ∈ l, contribution' q = contribution q) : Reduces contribution' l' r where
  nodup := h.nodup
  mem_cids c := by
    rw [h.mem_cids]
    refine forall_congr' fun q => ?_
    rw [hl q]
    exact forall_congr' fun hq => by rw [heq q hq]
  epoch_le e he q hq a ha := by
    rw [hl] at hq
    rw [heq q hq] at ha
    exact h.epoch_le e he q hq a ha
  attained e he := by
    obtain ⟨q, hq, a, ha, hmem⟩ := h.attained e he
    exact ⟨q, (hl q).mpr hq, a, (heq q hq).trans ha, hmem⟩

omit [DecidableEq G] in
omit [DecidableEq P] in
theorem LocalInv.mono (h : LocalInv cfg w p s)
    (houtcome : ∀ g round ok, w.outcome g round = some ok → w'.outcome g round = some ok)
    (hcontribs : ∀ g round, w'.contribs g round p = w.contribs g round p)
    (hsettled : ∀ g round, (w.outcome g round).isSome → ∀ q ∈ cfg.members g,
      w'.contribs g round q = w.contribs g round q)
    (hbefore : ∀ g call round, s.calls g = .entered call round →
      w'.before g round p = w.before g round p) : LocalInv cfg w' p s := by
  have hreduces : ∀ g round ok r, w.outcome g round = some ok →
      Reduces (w.contribs g round) (cfg.members g) r →
      Reduces (w'.contribs g round) (cfg.members g) r := by
    intro g round ok r hok hr
    exact hr.congr (fun _ => Iff.rfl) (hsettled g round (by rw [hok]; rfl))
  have hsettles : ∀ g round ok next, w.outcome g round = some ok → Settles cfg w g round next →
      Settles cfg w' g round next := by
    rintro g round ok next hok ⟨r, hr, hnext⟩
    exact ⟨r, hreduces g round ok r hok hr, hnext⟩
  refine ⟨h.member, ?_, ?_, ?_, ?_, ?_, ?_, ?_⟩
  · intro g round hsome
    rw [hcontribs] at hsome
    exact h.contributed g round hsome
  · intro g call round hg
    rw [hbefore g call round hg]
    exact h.entered g call round hg
  · intro g round hg
    rw [hcontribs]
    exact h.inReduction g round hg
  · intro g call round ok hg
    obtain ⟨hok, hred⟩ := h.reduced g call round ok hg
    exact ⟨houtcome g round ok hok, fun htrue => hreduces g round ok _ hok (hred htrue)⟩
  · intro g round hlt
    obtain ⟨hok, next, hnext, hzero⟩ := h.left g round hlt
    exact ⟨houtcome g round true hok, next, hsettles g round true next hok hnext, hzero⟩
  · exact fun g round hg => houtcome g round false (h.failed g round hg)
  · intro g round e hg
    obtain ⟨hok, next, hnext, hne, he⟩ := h.granted g round e hg
    exact ⟨houtcome g round true hok, next, hsettles g round true next hok hnext, hne, he⟩

omit [DecidableEq G] in
theorem procs_setProc (w : World P G) (p q : P) (s : Proc G) :
    (w.setProc p s).procs q = if q = p then s else w.procs q :=
  Function.update_apply w.procs p s q

omit [DecidableEq G] in
theorem Inv.setProc (h : Inv cfg w) (hproc : ProcInv s) (hloc : LocalInv cfg w p s) :
    Inv cfg (w.setProc p s) where
  proc q := by
    rw [procs_setProc]
    split_ifs
    · exact hproc
    · exact h.proc q
  loc q := by
    rw [procs_setProc]
    split_ifs with hq
    · rw [hq]
      exact ⟨hloc.1, hloc.2, hloc.3, hloc.4, hloc.5, hloc.6, hloc.7, hloc.8⟩
    · have hq := h.loc q
      exact ⟨hq.1, hq.2, hq.3, hq.4, hq.5, hq.6, hq.7, hq.8⟩
  nodup := h.nodup
  epoch := h.epoch
  free := h.free
  complete := h.complete

omit [DecidableEq P] in
theorem LocalInv.setCall (h : LocalInv cfg w p s) {s' : Proc G} {phase : Phase}
    (hcalls : s'.calls = s.calls) (hl : s'.lCIDs = s.lCIDs) (hgc : s'.gCIDs = s.gCIDs)
    (hmember : p ∈ cfg.members g)
    (hcontributed : (s.calls g).contributed ≤ phase.contributed)
    (hentered : ∀ call round, phase ≠ .entered call round)
    (hinReduction : ∀ round, phase.inReduction = some round → w.contribs g round p = some s.lCIDs)
    (hreduced : ∀ call round ok, phase = .reduced call round ok → w.outcome g round = some ok ∧
      (ok = true → Reduces (w.contribs g round) (cfg.members g) s.gCIDs))
    (hleft : ∀ round, (s.calls g).round ≤ round → round < phase.round →
      w.outcome g round = some true ∧ ∃ next, Settles cfg w g round next ∧ next.cid = 0)
    (hfailed : ∀ round, phase = .done round none → w.outcome g round = some false)
    (hgranted : ∀ round e, phase = .done round (some e) → w.outcome g round = some true ∧
      ∃ next, Settles cfg w g round next ∧ next.cid ≠ 0 ∧
        e = ⟨next.cid, (next.epoch + 1) % 2 ^ 32⟩) :
    LocalInv cfg w p (s'.setCall g phase) := by
  have hcalls' : ∀ g', (s'.setCall g phase).calls g' = if g' = g then phase else s.calls g' := by
    intro g'
    rw [calls_setCall, hcalls]
  have hl' : (s'.setCall g phase).lCIDs = s.lCIDs := hl
  have hgc' : (s'.setCall g phase).gCIDs = s.gCIDs := hgc
  refine ⟨?_, ?_, ?_, ?_, ?_, ?_, ?_, ?_⟩
  · intro g' hg'
    rw [hcalls'] at hg'
    split_ifs at hg' with heq
    · exact heq ▸ hmember
    · exact h.member g' hg'
  · intro g' round hsome
    have hlt := h.contributed g' round hsome
    rw [hcalls']
    split_ifs with heq
    · exact (heq ▸ hlt).trans_le hcontributed
    · exact hlt
  · intro g' call round hg'
    rw [hcalls'] at hg'
    rw [hl']
    split_ifs at hg' with heq
    · exact absurd hg' (hentered call round)
    · exact h.entered g' call round hg'
  · intro g' round hg'
    rw [hcalls'] at hg'
    rw [hl']
    split_ifs at hg' with heq
    · exact heq ▸ hinReduction round hg'
    · exact h.inReduction g' round hg'
  · intro g' call round ok hg'
    rw [hcalls'] at hg'
    rw [hgc']
    split_ifs at hg' with heq
    · exact heq ▸ hreduced call round ok hg'
    · exact h.reduced g' call round ok hg'
  · intro g' round hlt
    rw [hcalls'] at hlt
    split_ifs at hlt with heq
    · subst heq
      rcases Nat.lt_or_ge round (s.calls g').round with hold | hnew
      · exact h.left g' round hold
      · exact hleft round hnew hlt
    · exact h.left g' round hlt
  · intro g' round hg'
    rw [hcalls'] at hg'
    split_ifs at hg' with heq
    · exact heq ▸ hfailed round hg'
    · exact h.failed g' round hg'
  · intro g' round e hg'
    rw [hcalls'] at hg'
    split_ifs at hg' with heq
    · exact heq ▸ hgranted round e hg'
    · exact h.granted g' round e hg'

section Events

variable {call : Call} {round : ℕ}

theorem Inv.beginCall (h : Inv cfg w) (hp : p ∈ cfg.members g) (comm : ℕ) :
    Inv cfg (w.setProc p ((w.procs p).beginCall g comm)) := by
  refine h.setProc ((h.proc p).beginCall g comm) ?_
  rw [Proc.beginCall]
  split
  swap
  · exact h.loc p
  rename_i cid hidle _
  split
  · exact h.loc p
  refine (h.loc p).setCall rfl rfl rfl hp ?_ (fun _ _ hphase => (by cases hphase))
    (fun _ hphase => (by cases hphase)) (fun _ _ _ hphase => (by cases hphase))
    (fun _ _ hlt => absurd hlt (Nat.not_lt_zero _)) (fun _ hphase => (by cases hphase))
    (fun _ _ hphase => (by cases hphase))
  rw [hidle]
  exact Nat.le_refl 0

theorem Inv.enter (h : Inv cfg w) (hexcl : ∀ g', ¬ ((w.procs p).calls g').midRound)
    (hepochs : ∀ i, (w.procs p).epochs i < 2 ^ 32 - 1) {start : ℕ}
    (hwait : (w.procs p).calls g = .waiting call start round)
    (hlowest : lowestCid (w.procs p).registered = some call.commCid) :
    Inv cfg ((w.noteBefore p g round).setProc p
      ((w.procs p).enter cfg.reduxSize cfg.maxContextid g)) := by
  have hloc := h.loc p
  -- this process has not contributed to the round, and nobody else writes its entry
  have hnew : ∀ a, w.contribs g round p ≠ some a := by
    intro a ha
    have hlt := hloc.contributed g round (by rw [ha]; rfl)
    rw [hwait] at hlt
    exact Nat.lt_irrefl round hlt
  have hbase : Inv cfg (w.noteBefore p g round) := by
    refine ⟨h.proc, fun q => ?_, h.nodup, h.epoch, fun g' round' q a ha => ?_, h.complete⟩
    · refine (h.loc q).mono (fun _ _ _ hok => hok) (fun _ _ => rfl) (fun _ _ _ _ _ => rfl) ?_
      intro g' call' round' hg'
      refine if_neg ?_
      rintro ⟨rfl, rfl, rfl⟩
      rw [hwait] at hg'
      cases hg'
    · obtain ⟨table, hbefore, hfree⟩ := h.free g' round' q a ha
      refine ⟨table, (if_neg ?_).trans hbefore, hfree⟩
      rintro ⟨rfl, rfl, rfl⟩
      exact hnew a ha
  have hphase : ∀ g', ((w.procs p).enter cfg.reduxSize cfg.maxContextid g).calls g' =
      if g' = g then .entered call round else (w.procs p).calls g' := by
    intro g'
    simp only [Proc.enter, hwait, hlowest, if_true]
    exact calls_setCall _ g g' _
  have hcandidates : ∀ c ∈ ((w.procs p).enter cfg.reduxSize cfg.maxContextid g).lCIDs.cids,
      slot (w.procs p).table c = none := by
    intro c hc
    simp only [Proc.enter, hwait, hlowest, if_true] at hc
    obtain ⟨e, he, rfl⟩ := List.mem_map.mp hc
    exact (reserved_reserve _ _ _ _ _ _).free e he
  refine hbase.setProc ((h.proc p).enter hexcl hepochs _ _ g) ⟨?_, ?_, ?_, ?_, ?_, ?_, ?_, ?_⟩
  · intro g' hg'
    rw [hphase] at hg'
    split_ifs at hg' with heq
    · rw [heq]
      exact hloc.member g (by rw [hwait]; simp)
    · exact hloc.member g' hg'
  · intro g' round' hsome
    have hlt := hloc.contributed g' round' hsome
    rw [hphase]
    split_ifs with heq
    · rw [heq, hwait] at hlt
      exact hlt
    · exact hlt
  · intro g' call' round' hg'
    rw [hphase] at hg'
    split_ifs at hg' with heq
    · obtain ⟨rfl, rfl⟩ := Phase.entered.inj hg'
      exact ⟨(w.procs p).table, if_pos ⟨heq, rfl, rfl⟩, hcandidates⟩
    · exact absurd (by rw [hg']; rfl) (hexcl g')
  · intro g' round' hg'
    rw [hphase] at hg'
    split_ifs at hg' with heq
    · cases hg'
    · refine absurd ?_ (hexcl g')
      cases hcall : (w.procs p).calls g' <;> simp_all [Phase.inReduction, Phase.midRound]
  · intro g' call' round' ok hg'
    rw [hphase] at hg'
    split_ifs at hg' with heq
    exact absurd (by rw [hg']; rfl) (hexcl g')
  · intro g' round' hlt
    rw [hphase] at hlt
    split_ifs at hlt with heq
    · refine hloc.left g' round' ?_
      rw [heq, hwait]
      exact hlt
    · exact hloc.left g' round' hlt
  · intro g' round' hg'
    rw [hphase] at hg'
    split_ifs at hg'
    exact hloc.failed g' round' hg'
  · intro g' round' e hg'
    rw [hphase] at hg'
    split_ifs at hg'
    exact hloc.granted g' round' e hg'

theorem Inv.contribute (h : Inv cfg w) (henter : (w.procs p).calls g = .entered call round) :
    Inv cfg ((w.addContribution p g round).setProc p
      ((w.procs p).setCall g (.sent call round))) := by
  have hloc := h.loc p
  have hmid : ((w.procs p).calls g).midRound := by rw [henter]; rfl
  have hown := (h.proc p).candidates g hmid
  have hmember := hloc.member g (by rw [henter]; simp)
  have hnew : ¬ (w.contribs g round p).isSome := by
    intro hsome
    have hlt := hloc.contributed g round hsome
    rw [henter] at hlt
    exact Nat.lt_irrefl round hlt
  have hcontribs : ∀ g' round' q, ¬ (g' = g ∧ round' = round ∧ q = p) →
      (w.addContribution p g round).contribs g' round' q = w.contribs g' round' q :=
    fun _ _ _ hne => if_neg hne
  have hsettled : ∀ g' round', (w.outcome g' round').isSome → ∀ q ∈ cfg.members g',
      (w.addContribution p g round).contribs g' round' q = w.contribs g' round' q := by
    intro g' round' hok q hq
    refine hcontribs g' round' q ?_
    rintro ⟨rfl, rfl, rfl⟩
    exact hnew (h.complete g' round' hok q hq)
  -- a new contribution, or one that was there before
  have hcases : ∀ g' round' q a, (w.addContribution p g round).contribs g' round' q = some a →
      (g' = g ∧ round' = round ∧ q = p ∧ a = (w.procs p).lCIDs) ∨
        w.contribs g' round' q = some a := by
    intro g' round' q a ha
    by_cases hnow : g' = g ∧ round' = round ∧ q = p
    · refine .inl ⟨hnow.1, hnow.2.1, hnow.2.2, ?_⟩
      exact Option.some.inj (ha.symm.trans (if_pos hnow))
    · exact .inr ((hcontribs g' round' q hnow).symm.trans ha)
  have hsent : ∀ g', ((w.procs p).setCall g (.sent call round)).calls g' =
      if g' = g then .sent call round else (w.procs p).calls g' :=
    fun g' => calls_setCall (w.procs p) g g' _
  refine ⟨fun q => ?_, fun q => ?_, fun g' round' q a ha => ?_, fun g' round' q a ha => ?_,
    fun g' round' q a ha => ?_, fun g' round' hok q hq => ?_⟩
  · rw [procs_setProc]
    split_ifs
    · exact (h.proc p).setCall (by rw [henter]; rfl) (by rw [henter]; rfl)
    · exact h.proc q
  · rw [procs_setProc]
    split_ifs with hq
    swap
    · exact (h.loc q).mono (fun _ _ _ hok => hok)
        (fun g' round' => hcontribs g' round' q fun hnow => hq hnow.2.2) hsettled
        (fun _ _ _ _ => rfl)
    subst hq
    have hmono : ∀ g' ok round' r, w.outcome g' round' = some ok →
        Reduces (w.contribs g' round') (cfg.members g') r →
        Reduces ((w.addContribution q g round).contribs g' round') (cfg.members g') r := by
      intro g' ok round' r hok hr
      exact hr.congr (fun _ => Iff.rfl) (hsettled g' round' (by rw [hok]; rfl))
    refine ⟨?_, ?_, ?_, ?_, ?_, ?_, ?_, ?_⟩
    · intro g' hg'
      rw [hsent] at hg'
      split_ifs at hg' with heq
      · exact heq ▸ hmember
      · exact hloc.member g' hg'
    · intro g' round' hsome
      obtain ⟨a, ha⟩ := Option.isSome_iff_exists.mp hsome
      rw [hsent]
      rcases hcases g' round' q a ha with ⟨rfl, rfl, -, -⟩ | ha
      · rw [if_pos rfl]
        exact Nat.lt_succ_self _
      · have hlt := hloc.contributed g' round' (by rw [ha]; rfl)
        split_ifs with heq
        · rw [heq, henter] at hlt
          exact hlt.trans (Nat.lt_succ_self _)
        · exact hlt
    · intro g' call' round' hg'
      rw [hsent] at hg'
      split_ifs at hg'
      exact hloc.entered g' call' round' hg'
    · intro g' round' hg'
      rw [hsent] at hg'
      split_ifs at hg' with heq
      · obtain rfl := Option.some.inj hg'
        exact if_pos ⟨heq, rfl, rfl⟩
      · exact (hcontribs g' round' q fun hnow => heq hnow.1).trans (hloc.inReduction g' round' hg')
    · intro g' call' round' ok hg'
      rw [hsent] at hg'
      split_ifs at hg'
      obtain ⟨hok, hred⟩ := hloc.reduced g' call' round' ok hg'
      exact ⟨hok, fun htrue => hmono g' ok round' _ hok (hred htrue)⟩
    · intro g' round' hlt
      have hlt' : round' < ((w.procs q).calls g').round := by
        rw [hsent] at hlt
        split_ifs at hlt with heq
        · rw [heq, henter]
          exact hlt
        · exact hlt
      obtain ⟨hok, next, ⟨r, hr, hnext⟩, hzero⟩ := hloc.left g' round' hlt'
      exact ⟨hok, next, ⟨r, hmono g' true round' r hok hr, hnext⟩, hzero⟩
    · intro g' round' hg'
      rw [hsent] at hg'
      split_ifs at hg'
      exact hloc.failed g' round' hg'
    · intro g' round' e hg'
      rw [hsent] at hg'
      split_ifs at hg'
      obtain ⟨hok, next, ⟨r, hr, hnext⟩, hne, he⟩ := hloc.granted g' round' e hg'
      exact ⟨hok, next, ⟨r, hmono g' true round' r hok hr, hnext⟩, hne, he⟩
  · rcases hcases g' round' q a ha with ⟨rfl, rfl, rfl, rfl⟩ | ha
    · exact hown.nodup
    · exact h.nodup g' round' q a ha
  · rcases hcases g' round' q a ha with ⟨rfl, rfl, rfl, rfl⟩ | ha
    · exact fun e he => (hown.epoch e he).2
    · exact h.epoch g' round' q a ha
  · rcases hcases g' round' q a ha with ⟨rfl, rfl, rfl, rfl⟩ | ha
    · exact hloc.entered g' call round' henter
    · exact h.free g' round' q a ha
  · have hq' := hsettled g' round' hok q hq
    have hsome := h.complete g' round' hok q hq
    rw [← hq'] at hsome
    exact hsome

omit [DecidableEq P] in
theorem Inv.reduce (h : Inv cfg w) {ok : Bool}
    (hall : ∀ p ∈ cfg.members g, (w.contribs g round p).isSome)
    (hnone : w.outcome g round = none) :
    Inv cfg { w with outcome := fun g' round' =>
      if g' = g ∧ round' = round then some ok else w.outcome g' round' } := by
  refine ⟨h.proc, fun q => ?_, h.nodup, h.epoch, h.free, fun g' round' hok q hq => ?_⟩
  · refine (h.loc q).mono (fun g' round' ok' hok => ?_) (fun _ _ => rfl) (fun _ _ _ _ _ => rfl)
      (fun _ _ _ _ => rfl)
    refine (if_neg ?_).trans hok
    rintro ⟨rfl, rfl⟩
    rw [hnone] at hok
    cases hok
  · by_cases hnow : g' = g ∧ round' = round
    · obtain ⟨rfl, rfl⟩ := hnow
      exact hall q hq
    · simp only [hnow, if_false] at hok
      exact h.complete g' round' hok q hq

omit [DecidableEq P] [DecidableEq G] in
theorem LocalInv.setGCIDs (h : LocalInv cfg w p s)
    (hnone : ∀ g call round ok, s.calls g ≠ .reduced call round ok) (result : CidArray) :
    LocalInv cfg w p { s with gCIDs := result } where
  member := h.member
  contributed := h.contributed
  entered := h.entered
  inReduction := h.inReduction
  reduced g call round ok hg := absurd hg (hnone g call round ok)
  left := h.left
  failed := h.failed
  granted := h.granted

theorem Inv.returned (h : Inv cfg w) (hsent : (w.procs p).calls g = .sent call round) {ok : Bool}
    (hok : w.outcome g round = some ok) {s : Proc G} (hproc : ProcInv s)
    (hloc : LocalInv cfg w p s) (hcalls : s.calls = (w.procs p).calls)
    (hreduces : ok = true → Reduces (w.contribs g round) (cfg.members g) s.gCIDs) :
    Inv cfg (w.setProc p (s.setCall g (.reduced call round ok))) := by
  have hsent' : s.calls g = .sent call round := by rw [hcalls, hsent]
  refine h.setProc (hproc.setCall (by rw [hsent']; rfl) (by rw [hsent']; rfl)) ?_
  refine hloc.setCall rfl rfl rfl (hloc.member g (by rw [hsent']; simp)) ?_ ?_ ?_ ?_ ?_ ?_ ?_
  · rw [hsent']
    exact Nat.le_refl _
  · exact fun _ _ hphase => (by cases hphase)
  · intro round' hround
    refine hloc.inReduction g round' ?_
    rw [hsent']
    exact hround
  · intro call' round' ok' hphase
    obtain ⟨rfl, rfl, rfl⟩ := Phase.reduced.inj hphase
    exact ⟨hok, hreduces⟩
  · intro round' hle hlt
    rw [hsent'] at hle
    exact absurd hlt (Nat.not_lt.mpr hle)
  · exact fun _ hphase => (by cases hphase)
  · exact fun _ _ hphase => (by cases hphase)

theorem Inv.complete_true (h : Inv cfg w) (hsent : (w.procs p).calls g = .sent call round)
    (hok : w.outcome g round = some true) {tree : ReduxTree P} {result : CidArray}
    (heval : tree.eval (w.contribs g round) = some result)
    (hleaves : tree.leaves.Perm (cfg.members g)) :
    Inv cfg (w.setProc p ({ w.procs p with gCIDs := result }.setCall g
      (.reduced call round true))) := by
  have hmid : ((w.procs p).calls g).midRound := by rw [hsent]; rfl
  refine h.returned hsent hok ((h.proc p).setGCIDs result) ((h.loc p).setGCIDs ?_ result) rfl ?_
  · intro g' call' round' ok' hg'
    have heq : g' = g := (h.proc p).exclusive g' g (by rw [hg']; rfl) hmid
    rw [heq, hsent] at hg'
    cases hg'
  · intro _
    have hred := reduces_eval (fun q _ a ha => h.nodup g round q a ha) heval
    exact hred.congr (fun q => hleaves.mem_iff.symm) (fun _ _ => rfl)

omit [DecidableEq P] [DecidableEq G] in
theorem Inv.settles_spec (h : Inv cfg w) {next : Elem} {result : CidArray}
    (hred : Reduces (w.contribs g round) (cfg.members g) result)
    (hnext : takeMin (result.entries cfg.reduxSize) = next) (hne : next.cid ≠ 0) :
    next.epoch < 2 ^ 32 - 1 ∧ ∀ q ∈ cfg.members g, ∃ a, w.contribs g round q = some a ∧
      ∃ e ∈ a.avail, e.cid = next.cid ∧ e.epoch ≤ next.epoch := by
  subst hnext
  obtain ⟨hmem, -⟩ := takeMin_spec cfg.two_le (le_length_of_takeMin cfg.two_le hne)
  refine ⟨?_, fun q hq => ?_⟩
  · obtain ⟨q, -, a, ha, he⟩ := hred.attained _ hmem
    exact h.epoch g round q a ha _ he
  · obtain ⟨a, ha, hcid⟩ := (hred.mem_cids _).mp (List.mem_map_of_mem hmem) q hq
    obtain ⟨e, he, hcid⟩ := List.mem_map.mp hcid
    exact ⟨a, ha, e, he, hcid, hred.epoch_le _ hmem q hq a ha e he hcid⟩

theorem Inv.finish (h : Inv cfg w) (p : P) (g : G) :
    Inv cfg (w.setProc p ((w.procs p).finish cfg.reduxSize g)) := by
  have hloc := h.loc p
  rw [Proc.finish]
  split
  swap
  · exact h.setProc (h.proc p) hloc
  rename_i call round ok hred
  obtain ⟨hok, hreduces⟩ := hloc.reduced g call round ok hred
  have hmember := hloc.member g (by rw [hred]; simp)
  have hcontributed : ((w.procs p).calls g).contributed = round + 1 := by rw [hred]; rfl
  have hround : ((w.procs p).calls g).round = round := by rw [hred]; rfl
  simp only
  split_ifs with hfail hzero
  · -- the reduction has failed
    subst hfail
    refine h.setProc ((h.proc p).release hred rfl (.inl rfl) _) ?_
    refine hloc.setCall rfl rfl rfl hmember ?_ (fun _ _ hphase => (by cases hphase))
      (fun _ hphase => (by cases hphase)) (fun _ _ _ hphase => (by cases hphase)) ?_ ?_
      (fun _ _ hphase => (by cases hphase))
    · exact hcontributed.le
    · intro round' hle hlt
      rw [hround] at hle
      exact absurd hlt (Nat.not_lt.mpr hle)
    · intro round' hphase
      obtain ⟨rfl, -⟩ := Phase.done.inj hphase
      exact hok
  · -- the round is retried
    have htrue : ok = true := by simpa using hfail
    refine h.setProc ((h.proc p).release hred rfl (.inr rfl) _) ?_
    refine hloc.setCall rfl rfl rfl hmember ?_ (fun _ _ hphase => (by cases hphase))
      (fun _ hphase => (by cases hphase)) (fun _ _ _ hphase => (by cases hphase)) ?_
      (fun _ hphase => (by cases hphase)) (fun _ _ hphase => (by cases hphase))
    · exact hcontributed.le
    · intro round' hle hlt
      have hlt' : round' < round + 1 := hlt
      obtain rfl : round' = round := by omega
      exact ⟨htrue ▸ hok, _, ⟨_, hreduces htrue, rfl⟩, hzero⟩
  · -- a candidate is taken
    have htrue : ok = true := by simpa using hfail
    have hmid : ((w.procs p).calls g).midRound := by rw [hred]; rfl
    obtain ⟨hlt, hall⟩ := h.settles_spec (hreduces htrue) rfl hzero
    obtain ⟨a, ha, e, he, hcid, hle⟩ := hall p hmember
    have hown := hloc.inReduction g round (by rw [hred]; rfl)
    rw [hown, Option.some_inj] at ha
    subst ha
    have hepoch := ((h.proc p).candidates g hmid).epoch e he
    rw [hcid] at hepoch
    have hmod : ((takeMin ((w.procs p).gCIDs.entries cfg.reduxSize)).epoch + 1) % 2 ^ 32 =
        (takeMin ((w.procs p).gCIDs.entries cfg.reduxSize)).epoch + 1 :=
      Nat.mod_eq_of_lt (by omega)
    refine h.setProc ((h.proc p).grant hred (hcid ▸ List.mem_map_of_mem he) ?_ _) ?_
    · rw [hmod]
      omega
    · refine hloc.setCall rfl rfl rfl hmember ?_ (fun _ _ hphase => (by cases hphase))
        (fun _ hphase => (by cases hphase)) (fun _ _ _ hphase => (by cases hphase)) ?_
        (fun _ hphase => (by cases hphase)) ?_
      · exact hcontributed.le
      · intro round' hle hlt
        rw [hround] at hle
        exact absurd hlt (Nat.not_lt.mpr hle)
      · intro round' e' hphase
        obtain ⟨rfl, hres⟩ := Phase.done.inj hphase
        exact ⟨htrue ▸ hok, _, ⟨_, hreduces htrue, rfl⟩, hzero, (Option.some.inj hres).symm⟩

omit [DecidableEq G] in
theorem Inv.freeComm (h : Inv cfg w) (p : P) (comm : ℕ) :
    Inv cfg (w.setProc p ((w.procs p).free comm)) := by
  refine h.setProc ((h.proc p).free comm) ?_
  rw [Proc.free]
  cases (w.procs p).contextId comm with
  | none => exact h.loc p
  | some cid =>
    have hloc := h.loc p
    exact ⟨hloc.1, hloc.2, hloc.3, hloc.4, hloc.5, hloc.6, hloc.7, hloc.8⟩

end Events

/-- At a process, a call takes its turn only while no other call is in a round, and no
epoch is about to wrap. -/
def Event.OneAtATime (w : World P G) : Event P G → Prop
  | .enter p _ => (∀ g, ¬ ((w.procs p).calls g).midRound) ∧
      ∀ i, (w.procs p).epochs i < 2 ^ 32 - 1
  | _ => True

theorem Inv.step (h : Inv cfg w) (e : Event P G) (he : e.OneAtATime w) :
    Inv cfg (w.step cfg e) := by
  cases e with
  | call p g comm =>
    rw [World.step]
    split_ifs with hp
    · exact h.beginCall hp comm
    · exact h
  | enter p g =>
    rw [World.step]
    split
    · rename_i call start round hwait
      split_ifs with hlowest
      · exact h.enter he.1 he.2 hwait hlowest
      · exact h
    · exact h
  | contribute p g =>
    rw [World.step]
    split
    · rename_i call round henter
      exact h.contribute henter
    · exact h
  | reduce g round ok =>
    rw [World.step]
    split_ifs with hready
    · exact h.reduce hready.1 hready.2
    · exact h
  | complete p g tree =>
    rw [World.step]
    split
    swap
    · exact h
    rename_i call round hsent
    split
    · rename_i hok
      split
      · rename_i result heval
        split_ifs with hleaves
        · exact h.complete_true hsent hok heval hleaves
        · exact h
      · exact h
    · rename_i hok
      exact h.returned hsent hok (h.proc p) (h.loc p) rfl (fun htrue => (by cases htrue))
    · exact h
  | finish p g => exact h.finish p g
  | free p comm => exact h.freeComm p comm

end Cid

end Ulfm
