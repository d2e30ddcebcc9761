import Ulfm.Eta.Rounds
import Ulfm.Foundation.Trace

/-!
# The return code and the group of failed processes

A process that fails in its last round may be seen by some of the others and not by the
rest, who have already heard that it knows: they return `MPI_SUCCESS` and an empty
group, the first ones `MPI_ERR_PROC_FAILED`. If nobody marks a process whose last
message has been taken, then all the processes that return give the same answer.
-/

namespace Ulfm

open Function Finset List

namespace Eta

variable {np : ℕ} {cfg : Config np} {w : World np} {knows marks : Fin np → ℕ → Prop}
  {me : Fin np} {recv send : Fin np → Completion}

/-- Somebody has taken the last message of `z`: the one that tells that `z` knows, or
the one of the last round. -/
def World.LastTaken (w : World np) (z : Fin np) : Prop :=
  ∃ x, (w.procs x).Told z ∨ np + 1 ≤ w.taken x z

/-- The last message of `z` is taken in this call of `ompi_request_wait_all`. -/
def World.TakesLast (w : World np) (me : Fin np) (recv : Fin np → Completion) (z : Fin np) : Prop :=
  (w.procs me).Receives recv z ∧ ((w.next me z).knows = 1#32 ∨ (w.procs me).round = np + 1)

/-- No process is marked whose last message has been or is being taken, or which has
returned; and the last message of a process that is marked is not taken. -/
def Event.Agreed (w : World np) : Event np → Prop
  | .waitAll me recv send =>
    (∀ z, (w.procs me).Fails recv send z →
      ¬w.TakesLast me recv z ∧ ¬w.LastTaken z ∧ (w.procs z).phase ≠ .returned) ∧
    ∀ z, w.TakesLast me recv z → ∀ x, ¬(w.procs x).Crashed z
  | _ => True

instance (w : World np) : DecidablePred w.LastTaken := fun z =>
  inferInstanceAs (Decidable (∃ x, (w.procs x).Told z ∨ np + 1 ≤ w.taken x z))

instance (w : World np) (me : Fin np) (recv : Fin np → Completion) :
    DecidablePred (w.TakesLast me recv) := fun _ => inferInstanceAs (Decidable (_ ∧ (_ ∨ _)))

instance (w : World np) : ∀ e : Event np, Decidable (e.Agreed w)
  | .start .. => isTrue trivial
  | .post _ => isTrue trivial
  | .waitAll me recv send => inferInstanceAs (Decidable ((∀ z, (w.procs me).Fails recv send z →
        ¬w.TakesLast me recv z ∧ ¬w.LastTaken z ∧ (w.procs z).phase ≠ .returned) ∧
      ∀ z, w.TakesLast me recv z → ∀ x, ¬(w.procs x).Crashed z))
  | .crash _ => isTrue trivial

/-- A rank whose failure had been acknowledged at the beginning. -/
def Proc.Acked (p : Proc np) (z : Fin np) : Prop := getElem (p.procStatus z) 1 Proc.acked_lt = true

/-- What holds in every run whose events are `Agreed`. -/
structure Uniform (w : World np) (marks : Fin np → ℕ → Prop) : Prop where
  exclusive : ∀ x z, (w.procs x).Crashed z → ¬w.LastTaken z ∧ (w.procs z).phase ≠ .returned
  marked : ∀ y s, marks y s → ∃ z, (w.procs y).Crashed z ∧ s ≤ w.taken y z + 1
  unacked : ∀ y z, (w.procs y).Crashed z → (w.procs y).Acked z ∨ ∃ s, marks y s
  acked : ∀ y z, (w.procs y).Acked z → w.dead z = true ∧ (w.procs z).round ≤ 1
  sendOpen : ∀ i j, (w.procs i).Posted j → (w.procs i).sendOpen j →
    (w.procs i).round ≤ w.taken i j + 1 ∨ (w.procs i).Told j

theorem uniform_init : Uniform (World.init np) (fun _ _ => False) := by
  refine ⟨fun x z hc => ?_, fun y s hm => hm.elim, fun y z hc => ?_, fun y z ha => ?_,
    fun i j hp => hp.elim⟩
  · simp [Proc.Crashed, World.init] at hc
  · simp [Proc.Crashed, World.init] at hc
  · simp [Proc.Acked, World.init] at ha

theorem Uniform.crash (h : Uniform w marks) (i : Fin np) :
    Uniform (w.step cfg (.crash i)) marks := by
  refine ⟨h.exclusive, h.marked, h.unacked, fun y z ha => ⟨?_, (h.acked y z ha).2⟩, h.sendOpen⟩
  change update w.dead i true z = true
  rcases eq_or_ne z i with rfl | hne
  · exact update_self ..
  · rw [update_of_ne hne]
    exact (h.acked y z ha).1

theorem Inv.round_le_one (hinv : Inv cfg w knows marks) (halive : w.dead me = false)
    (hidle : (w.procs me).phase = .idle) (z : Fin np) : (w.procs z).round ≤ 1 := by
  have hround := (hinv.sending me).idle hidle
  have htaken : w.taken z me = 0 := by
    have h1 := (hinv.taking z me).le_sent
    have h2 := (hinv.sending me).length z
    omega
  rcases eq_or_ne z me with rfl | hne
  · omega
  · by_cases hz : (w.procs z).phase = .idle
    · rw [(hinv.sending z).idle hz]
      exact Nat.zero_le 1
    · rcases (hinv.taking z me).settled hz hne with hs | ht | hc
      · omega
      · obtain ⟨s, hs, hknows⟩ := (hinv.taking z me).told.1 ht
        have := hinv.sound.two_le me s hknows
        omega
      · rw [(hinv.taking z me).crashed hc] at halive
        cases halive

theorem Uniform.start (h : Uniform w marks) (hinv : Inv cfg w knows marks)
    (halive : w.dead me = false) (hidle : (w.procs me).phase = .idle) {cranks : List (Fin np)}
    (hcranks : ∀ i ∈ cranks, w.dead i) :
    Uniform (w.setProc me (.start cfg me cranks)) marks := by
  have hme := w.setProc_procs_self me (.start cfg me cranks)
  have hne : ∀ i, i ≠ me → (w.setProc me (.start cfg me cranks)).procs i = w.procs i :=
    fun i hi => w.setProc_procs_of_ne hi _
  have hround := hinv.round_le_one halive hidle
  have hstatus : ∀ z, (Proc.start cfg me cranks).Acked z ↔ z ∈ cranks := by
    intro z
    rw [Proc.Acked, Proc.start]
    by_cases hz : z ∈ cranks
    · simp [hz, statusAcrashed, statusCrashed]
    · simp [hz]
  have hnot : ∀ z, ¬w.LastTaken z := by
    rintro z ⟨x, ht | hall⟩
    · obtain ⟨s, -, hknows⟩ := (hinv.taking x z).told.1 ht
      have h1 := hinv.sound.two_le z s hknows
      have h2 := (hinv.sending z).known s hknows
      have h3 := hround z
      omega
    · have h1 := (hinv.taking x z).le_sent
      have h2 := (hinv.sending z).length x
      have h3 := hround z
      have h4 := me.pos
      omega
  have hlast : ∀ z, ¬(w.setProc me (.start cfg me cranks)).LastTaken z := by
    rintro z ⟨x, ht | hall⟩
    · rcases eq_or_ne x me with rfl | hx
      · rw [hme] at ht
        exact (start_procStatus cfg x cranks z).2 ht
      · rw [hne x hx] at ht
        exact hnot z ⟨x, .inl ht⟩
    · exact hnot z ⟨x, .inr hall⟩
  have hmarks : ∀ s, ¬marks me s := by
    intro s hs
    have h1 := (hinv.sending me).marked s hs
    have h2 := (hinv.sending me).idle hidle
    omega
  refine ⟨fun x z hc => ⟨hlast z, ?_⟩, fun y s hm => ?_, fun y z hc => ?_, fun y z ha => ?_,
    fun i j hp hopen => ?_⟩
  · rcases eq_or_ne z me with rfl | hz
    · rw [hme]
      exact fun hp => (by cases hp)
    · rw [hne z hz]
      rcases eq_or_ne x me with rfl | hx
      · exact hinv.not_returned halive hidle hz.symm
      · rw [hne x hx] at hc
        exact (h.exclusive x z hc).2
  · have hy : y ≠ me := by
      rintro rfl
      exact hmarks s hm
    rw [hne y hy]
    exact h.marked y s hm
  · rcases eq_or_ne y me with rfl | hy
    · rw [hme] at hc ⊢
      exact .inl ((hstatus z).2 ((start_procStatus cfg y cranks z).1 hc))
    · rw [hne y hy] at hc ⊢
      exact h.unacked y z hc
  · rcases eq_or_ne y me with rfl | hy
    · rw [hme] at ha
      have hdead := hcranks z ((hstatus z).1 ha)
      have hz : z ≠ y := by
        rintro rfl
        rw [hdead] at halive
        cases halive
      rw [hne z hz]
      exact ⟨hdead, hround z⟩
    · rw [hne y hy] at ha
      obtain ⟨hdead, hle⟩ := h.acked y z ha
      have hz : z ≠ me := by
        rintro rfl
        rw [hdead] at halive
        cases halive
      rw [hne z hz]
      exact ⟨hdead, hle⟩
  · rcases eq_or_ne i me with rfl | hi
    · rw [hme] at hp
      exact absurd hp (Nat.not_lt_zero _)
    · rw [hne i hi] at hp hopen ⊢
      exact h.sendOpen i j hp hopen

theorem Uniform.post (h : Uniform w marks) (hinv : Inv cfg w knows marks) {i : Fin np}
    (hphase : (w.procs me).phase = .posting i) : Uniform (w.post me i) marks := by
  have hq := postedRank me hphase
  have hme : (w.post me i).procs me = ((w.procs me).postRequests me i).nextRank i := update_self ..
  have hne : ∀ j, j ≠ me → (w.post me i).procs j = w.procs j := fun j hj => update_of_ne hj ..
  have hcrashed : ∀ x z, ((w.post me i).procs x).Crashed z ↔ (w.procs x).Crashed z := by
    intro x z
    rcases eq_or_ne x me with rfl | hx
    · rw [hme, hq.crashed]
    · rw [hne x hx]
  have htold : ∀ x z, ((w.post me i).procs x).Told z ↔ (w.procs x).Told z := by
    intro x z
    rcases eq_or_ne x me with rfl | hx
    · rw [hme, hq.told]
    · rw [hne x hx]
  have hacked : ∀ x z, ((w.post me i).procs x).Acked z ↔ (w.procs x).Acked z := by
    intro x z
    rcases eq_or_ne x me with rfl | hx
    · rw [hme, Proc.Acked, Proc.Acked, hq.acked]
    · rw [hne x hx]
  have hround : ∀ x, ((w.post me i).procs x).round = (w.procs x).round := by
    intro x
    rcases eq_or_ne x me with rfl | hx
    · rw [hme, hq.round]
    · rw [hne x hx]
  have hlast : ∀ z, (w.post me i).LastTaken z ↔ w.LastTaken z :=
    fun z => exists_congr fun x => or_congr (htold x z) Iff.rfl
  refine ⟨fun x z hc => ⟨?_, ?_⟩, fun y s hm => ?_, fun y z hc => ?_, fun y z ha => ?_,
    fun x j hp hopen => ?_⟩
  · rw [hlast z]
    exact (h.exclusive x z ((hcrashed x z).1 hc)).1
  · rcases eq_or_ne z me with rfl | hz
    · rw [hme]
      rcases hq.phase with hp | hp
      · rw [hp]
        exact fun hp => (by cases hp)
      · rw [hp]
        exact fun hp => (by cases hp)
    · rw [hne z hz]
      exact (h.exclusive x z ((hcrashed x z).1 hc)).2
  · obtain ⟨z, hz, hs⟩ := h.marked y s hm
    exact ⟨z, (hcrashed y z).2 hz, hs⟩
  · rw [hacked]
    exact h.unacked y z ((hcrashed y z).1 hc)
  · rw [hround]
    exact h.acked y z ((hacked y z).1 ha)
  · rw [hround, htold]
    rcases eq_or_ne x me with rfl | hx
    · rw [hme] at hp hopen
      rcases eq_or_ne j i with rfl | hj
      · rw [hq.sendOpen_self, Proc.needToSend] at hopen
        simp only [ne_eq, isSet_crashed, isSet_knowsIKnow, Bool.and_eq_true, Bool.not_eq_true',
          decide_eq_true_eq] at hopen
        have hidle : (w.procs x).phase ≠ .idle := by
          rw [hphase]
          exact fun hp => (by cases hp)
        rcases (hinv.taking x j).settled hidle hopen.1.1 with hs | hs | hs
        · exact .inl hs
        · exact .inr hs
        · rw [Proc.Crashed, hopen.1.2] at hs
          cases hs
      · rw [hq.sendOpen j hj] at hopen
        exact h.sendOpen x j ((hq.posted j hp).resolve_right hj) hopen
    · rw [hne x hx] at hp hopen
      exact h.sendOpen x j hp hopen

theorem waitAll_procs_self (cfg : Config np) (w : World np) (me : Fin np)
    (recv send : Fin np → Completion) : ∃ q : Proc np,
    (w.waitAll cfg me recv send).procs me = q ∧
    q.procStatus = ((w.harvested cfg me recv send).procs me).procStatus ∧
    (q = (w.harvested cfg me recv send).procs me ∨ q.phase = .posting 0 ∨ q.phase = .returned) := by
  refine ⟨_, rfl, ?_⟩
  rw [World.waitAll_eq, World.setProc_procs_self]
  split_ifs with hnr
  · exact ⟨rfl, .inl rfl⟩
  · rw [Proc.endRound]
    split_ifs
    all_goals simp

theorem waitAll_procs_of_ne {i : Fin np} (hi : i ≠ me) :
    (w.waitAll cfg me recv send).procs i = w.procs i :=
  update_of_ne hi ..

section

variable (h : Uniform w marks) (hinv : Inv cfg w knows marks) (hsize : cfg.valueSize = 4 ∨ np ≤ 1)
  (hop : SemilatticeOn (fun bs => bs.length = cfg.valueSize) cfg.reduce)
include h hinv hsize hop

theorem Uniform.waitAll (halive : w.dead me = false) (hphase : (w.procs me).phase = .waiting)
    (hreport : w.MayReport me recv send) (hagreed : (Event.waitAll me recv send).Agreed w) :
    Uniform (w.waitAll cfg me recv send) (marksAfter w marks me recv send) := by
  obtain ⟨hfails, htakes⟩ := hagreed
  have hv := hinv.visited hphase hreport hsize hop
  have hspec := hinv.harvested_spec hphase hreport hsize hop
  obtain ⟨q, hme, hstatus, hqphase⟩ := waitAll_procs_self cfg w me recv send
  have hne : ∀ i, i ≠ me → (w.waitAll cfg me recv send).procs i = w.procs i :=
    fun i hi => waitAll_procs_of_ne hi
  have hnotdead : ∀ z, w.dead z = true → z ≠ me := by
    rintro z hz rfl
    rw [hz] at halive
    cases halive
  have hdead : ∀ x z, (w.procs x).Crashed z → z ≠ me :=
    fun x z hc => hnotdead z ((hinv.taking x z).crashed hc)
  have hfailed : ∀ z, (w.procs me).Fails recv send z → z ≠ me := by
    rintro z (⟨hopen, hf⟩ | ⟨hopen, hf⟩)
    · exact hnotdead z (hreport.2.1 z hopen hf)
    · exact hnotdead z (hreport.2.2.1 z hopen hf)
  have hcrashed : ∀ x z, ((w.waitAll cfg me recv send).procs x).Crashed z ↔
      (w.procs x).Crashed z ∨ x = me ∧ (w.procs me).Fails recv send z := by
    intro x z
    rcases eq_or_ne x me with rfl | hx
    · rw [hme, Proc.Crashed, hstatus, and_iff_right rfl]
      exact (hv z).crashed
    · rw [hne x hx]
      exact (or_iff_left fun hc => hx hc.1).symm
  have hacked : ∀ x z, ((w.waitAll cfg me recv send).procs x).Acked z ↔ (w.procs x).Acked z := by
    intro x z
    rcases eq_or_ne x me with rfl | hx
    · rw [hme, Proc.Acked, Proc.Acked, hstatus, (hv z).acked]
    · rw [hne x hx]
  have htaken : ∀ x z, w.taken x z ≤ (w.waitAll cfg me recv send).taken x z :=
    World.taken_le_harvested cfg w me recv send
  have hlast : ∀ z, (w.waitAll cfg me recv send).LastTaken z →
      w.LastTaken z ∨ w.TakesLast me recv z := by
    rintro z ⟨x, ht⟩
    rcases eq_or_ne x me with rfl | hx
    · rcases ht with ht | ht
      · rw [hme, Proc.Told, hstatus] at ht
        rcases (hv z).told.1 ht with ht | ⟨hr, hk⟩
        · exact .inl ⟨x, .inl ht⟩
        · exact .inr ⟨hr, .inl hk⟩
      · have heq : (w.waitAll cfg x recv send).taken x z =
            if (w.procs x).Receives recv z then w.taken x z + 1 else w.taken x z :=
          World.taken_harvested cfg w x recv send z
        rw [heq] at ht
        split_ifs at ht with hr
        · have hround := (hinv.receives_round hphase hr).2
          have hle := (hinv.sending x).round_le (by rw [hphase]; exact fun hp => (by cases hp))
          exact .inr ⟨hr, .inr (by omega)⟩
        · exact .inl ⟨x, .inr ht⟩
    · have heq : (w.waitAll cfg me recv send).taken x z = w.taken x z :=
        if_neg fun hc => hx hc.1
      rw [hne x hx, heq] at ht
      exact .inl ⟨x, ht⟩
  have hround : ∀ z, (w.procs me).Fails recv send z → (w.procs me).round ≤ w.taken me z + 1 := by
    intro z hz
    have hnot : ¬(w.procs me).Told z := fun ht => (hfails z hz).2.1 ⟨me, .inl ht⟩
    have hposted : (w.procs me).Posted z := by
      rw [Proc.Posted, hphase]
      trivial
    rcases hz with ⟨hopen, -⟩ | ⟨hopen, -⟩
    · exact ((hinv.taking me z).isOpen hposted hopen).2.ge
    · exact (h.sendOpen me z hposted hopen).resolve_right hnot
  refine ⟨fun x z hc => ?_, fun y s hm => ?_, fun y z hc => ?_, fun y z ha => ?_,
    fun i j hp hopen => ?_⟩
  · rcases (hcrashed x z).1 hc with hc | ⟨-, hz⟩
    · refine ⟨fun hl => ?_, ?_⟩
      · rcases hlast z hl with hl | hl
        · exact (h.exclusive x z hc).1 hl
        · exact htakes z hl x hc
      · rw [hne z (hdead x z hc)]
        exact (h.exclusive x z hc).2
    · refine ⟨fun hl => ?_, ?_⟩
      · rcases hlast z hl with hl | hl
        · exact (hfails z hz).2.1 hl
        · exact (hfails z hz).1 hl
      · rw [hne z (hfailed z hz)]
        exact (hfails z hz).2.2
  · rcases hm with hm | ⟨rfl, rfl, z, hz⟩
    · obtain ⟨z, hz, hs⟩ := h.marked y s hm
      exact ⟨z, (hcrashed y z).2 (.inl hz), hs.trans (Nat.add_le_add_right (htaken y z) 1)⟩
    · exact ⟨z, (hcrashed y z).2 (.inr ⟨rfl, hz⟩),
        (hround z hz).trans (Nat.add_le_add_right (htaken y z) 1)⟩
  · rw [hacked]
    rcases (hcrashed y z).1 hc with hc | ⟨rfl, hz⟩
    · rcases h.unacked y z hc with ha | ⟨s, hs⟩
      · exact .inl ha
      · exact .inr ⟨s, .inl hs⟩
    · exact .inr ⟨(w.procs y).round, .inr ⟨rfl, rfl, z, hz⟩⟩
  · obtain ⟨hz, hle⟩ := h.acked y z ((hacked y z).1 ha)
    rw [hne z (hnotdead z hz)]
    exact ⟨hz, hle⟩
  · rcases eq_or_ne i me with rfl | hi
    · rw [hme] at hp hopen ⊢
      rcases hqphase with hq | hq | hq
      · have hposted : (w.procs i).Posted j := by
          rw [Proc.Posted, hphase]
          trivial
        rw [hq] at hopen ⊢
        have hround' : ((w.harvested cfg i recv send).procs i).round = (w.procs i).round :=
          hspec.round
        rw [hround']
        rcases h.sendOpen i j hposted ((hv j).sendOpen.1 hopen).1 with hs | hs
        · exact .inl (hs.trans (Nat.add_le_add_right (htaken i j) 1))
        · exact .inr ((hv j).told.2 (.inl hs))
      · rw [Proc.Posted, hq] at hp
        exact absurd hp (Nat.not_lt_zero _)
      · rw [Proc.Posted, hq] at hp
        exact hp.elim
    · have heq : (w.waitAll cfg me recv send).taken i j = w.taken i j :=
        if_neg fun hc => hi hc.1
      rw [hne i hi] at hp hopen ⊢
      rw [heq]
      exact h.sendOpen i j hp hopen

theorem Uniform.step {e : Event np} (hagreed : e.Agreed w) :
    ∃ knows' marks', Inv cfg (w.step cfg e) knows' marks' ∧ Uniform (w.step cfg e) marks' := by
  cases e with
  | start me cranks =>
    rw [World.step]
    split_ifs with hstart
    · exact ⟨knows, marks, hinv.start hstart.1 hstart.2.1 hstart.2.2,
        h.start hinv hstart.1 hstart.2.1 hstart.2.2⟩
    · exact ⟨knows, marks, hinv, h⟩
  | post me =>
    rw [World.step]
    cases hphase : (w.procs me).phase with
    | posting i =>
      by_cases hi : w.dead me = false ∧ i < np
      · simp only [hi, and_self, dite_true]
        exact ⟨knows, marks, hinv.post hphase, h.post hinv hphase⟩
      · simp only [hi, dite_false]
        exact ⟨knows, marks, hinv, h⟩
    | idle | waiting | returned => exact ⟨knows, marks, hinv, h⟩
  | waitAll me recv send =>
    rw [World.step]
    split_ifs with hwait
    · obtain ⟨knows', hinv'⟩ := hinv.waitAll hsize hop hwait.1 hwait.2.1 hwait.2.2
      exact ⟨knows', _, hinv', h.waitAll hinv hsize hop hwait.1 hwait.2.1 hwait.2.2 hagreed⟩
    · exact ⟨knows, marks, hinv, h⟩
  | crash i => exact ⟨knows, marks, hinv.crash i, h.crash i⟩

end

section Answer

variable (h : Uniform w marks) (hinv : Inv cfg w knows marks)
include h hinv

theorem Uniform.crashed_of_returned {y q z : Fin np} (hz : (w.procs y).Crashed z)
    (hq : (w.procs q).phase = .returned) : (w.procs q).Crashed z := by
  obtain ⟨hlast, hphase⟩ := h.exclusive y z hz
  have hne : q ≠ z := by
    rintro rfl
    exact hphase hq
  rcases (hinv.taking q z).returned hq hne with ht | hc | hall
  · exact absurd ⟨q, .inl ht⟩ hlast
  · exact hc
  · exact absurd ⟨q, .inr hall⟩ hlast

theorem Uniform.round_le_of_marked {q y z : Fin np} (hq : (w.procs q).phase = .returned)
    (hpf : ¬(w.exchange knows).Holds marks ((w.procs q).round + 1) q)
    (hz : (w.procs y).Crashed z) : (w.procs z).round ≤ 1 ∧ q ≠ z := by
  have hcrashed := h.crashed_of_returned hinv hz hq
  refine ⟨?_, ?_⟩
  · rcases h.unacked q z hcrashed with ha | ⟨s, hs⟩
    · exact (h.acked q z ha).2
    · refine absurd ?_ hpf
      exact (Exchange.holds_of_origin hs).mono (Nat.succ_le_succ ((hinv.sending q).marked s hs).2)
  · rintro rfl
    exact (hinv.taking q q).self rfl |>.2 hcrashed

theorem Uniform.marks_lt {q : Fin np} (hq : (w.procs q).phase = .returned)
    (hpf : ¬(w.exchange knows).Holds marks ((w.procs q).round + 1) q) :
    ∀ y s, marks y s → s < 3 := by
  intro y s hs
  obtain ⟨z, hz, hsz⟩ := h.marked y s hs
  have h1 := (h.round_le_of_marked hinv hq hpf hz).1
  have h2 := (hinv.taking y z).le_sent
  have h3 := (hinv.sending z).length y
  omega

omit h in
theorem Inv.holds_round {i : Fin np} {t : ℕ} (ht : (w.exchange knows).Holds marks t i) :
    (w.exchange knows).Holds marks ((w.procs i).round + 1) i := by
  rcases le_total t ((w.procs i).round + 1) with hle | hge
  · exact ht.mono hle
  · induction t, hge using Nat.le_induction with
    | base => exact ht
    | succ t hge ih =>
      refine ih ((Exchange.holds_succ_iff (fun j => ?_) fun hm => ?_).1 ht)
      · exact (hinv.taking i j).le_round.trans_lt hge
      · have := ((hinv.sending i).marked t hm).2
        omega

variable {q y z : Fin np} (hq : (w.procs q).phase = .returned)
  (hpf : ¬(w.exchange knows).Holds marks ((w.procs q).round + 1) q)
  (hz : (w.procs y).Crashed z)
include hq hpf hz

/-- The failure flag reaches a new process in each round from the third on; beside these
processes there are the one that has failed, and the one that never gets the flag. -/
theorem Uniform.exists_chain {x : Fin np} {k m : ℕ} (hx : (w.exchange knows).First marks x k)
    (hmk : m ≤ k) : ∃ C : Finset (Fin np), C.card = m - 2 ∧ z ∉ C ∧ q ∉ C ∧
      ∀ i ∈ C, (w.exchange knows).Holds marks m i := by
  obtain ⟨C, hcard, hC⟩ := hx.exists_chain (h.marks_lt hinv hq hpf) hmk
  refine ⟨C, by omega, fun hmem => ?_, fun hmem => ?_, fun i hi => ?_⟩
  · obtain ⟨t, ht, -, hfirst⟩ := hC z hmem
    have hround := (h.round_le_of_marked hinv hq hpf hz).1
    exact hfirst.2 _ (by omega) (hinv.holds_round hfirst.1)
  · obtain ⟨t, -, -, hfirst⟩ := hC q hmem
    exact hpf (hinv.holds_round hfirst.1)
  · obtain ⟨t, -, ht, hfirst⟩ := hC i hi
    exact hfirst.1.mono ht

theorem Uniform.slack : (w.exchange knows).Slack marks := by
  intro i r x k hi hx
  obtain ⟨hround, hqz⟩ := h.round_le_of_marked hinv hq hpf hz
  obtain ⟨C, hcard, hzC, hqC, hC⟩ := h.exists_chain hinv hq hpf hz hx (Nat.min_le_left k r)
  by_cases hr : r ≤ 1
  · omega
  have hsub : C ⊆ (w.exchange knows).missing i r := by
    intro j hj
    exact Exchange.mem_missing_of_holds hi ((hC j hj).mono (Nat.min_le_right k r))
  have hextra : ∃ e ∈ (w.exchange knows).missing i r, e ∉ C := by
    rcases eq_or_ne i z with rfl | hne
    · refine ⟨q, mem_filter.2 ⟨mem_univ q, hqz, ?_⟩, hqC⟩
      have : w.taken i q ≤ _ := (hinv.taking i q).le_round
      exact this.trans_lt (by omega)
    · refine ⟨z, mem_filter.2 ⟨mem_univ z, hne.symm, ?_⟩, hzC⟩
      have : w.taken i z ≤ _ := (hinv.taking i z).le_sent.trans ((hinv.sending z).length i)
      exact this.trans_lt (by omega)
  obtain ⟨e, he, heC⟩ := hextra
  have hle := card_le_card (insert_subset he hsub)
  rw [card_insert_of_notMem heC] at hle
  omega

theorem Uniform.first_le {x : Fin np} {k : ℕ} (hx : (w.exchange knows).First marks x k) :
    k ≤ np := by
  obtain ⟨-, hqz⟩ := h.round_le_of_marked hinv hq hpf hz
  obtain ⟨C, hcard, hzC, hqC, -⟩ := h.exists_chain hinv hq hpf hz hx (le_refl k)
  have hqzC : q ∉ insert z C := by
    rw [mem_insert, not_or]
    exact ⟨hqz, hqC⟩
  have hle := card_le_univ (insert q (insert z C))
  rw [card_insert_of_notMem hqzC, card_insert_of_notMem hzC, Fintype.card_fin] at hle
  omega

omit hz in
theorem Uniform.holds_of_returned {p : Fin np} (hp : (w.procs p).phase = .returned) :
    ¬(w.exchange knows).Holds marks ((w.procs p).round + 1) p := by
  intro hx
  obtain ⟨y, s, hs⟩ := hx.exists_origin
  obtain ⟨z, hz, -⟩ := h.marked y s hs
  have hslack := h.slack hinv hq hpf hz
  obtain ⟨k, -, hk⟩ := hx.exists_first
  have hkn := h.first_le hinv hq hpf hz hk
  have hqp : q ≠ p := by
    rintro rfl
    exact hpf hx
  obtain ⟨-, hlate, htold⟩ := hinv.missed hslack hq hk hkn hpf
  rcases (hinv.taking q p).returned hq hqp with ht | hc | hall
  · exact htold ht
  · exact (h.exclusive q p hc).2 hp
  · omega

end Answer

/-- For a value of four bytes, or a single process, in every run in which nobody marks a
process whose last message has been taken or which has returned, and nobody takes the last
message of a process that is marked, all the processes that return have the same return code
and the same group of failed processes. -/
theorem eta_uniform_result (cfg : Config np) (hsize : cfg.valueSize = 4 ∨ np ≤ 1)
    (hop : SemilatticeOn (fun bs => bs.length = cfg.valueSize) cfg.reduce)
    (events : List (Event np))
    (hrun : Along (World.step cfg) (fun w e => e.Agreed w) (World.init np) events)
    (hw : events.foldl (World.step cfg) (World.init np) = w) {p q : Fin np}
    (hp : (w.procs p).phase = .returned) (hq : (w.procs q).phase = .returned) :
    (w.procs p).ret = (w.procs q).ret ∧ (w.procs p).failedGroup = (w.procs q).failedGroup := by
  have hreach : ∃ knows marks, Inv cfg (events.foldl (World.step cfg) (World.init np)) knows marks ∧
      Uniform (events.foldl (World.step cfg) (World.init np)) marks := by
    refine Along.invariant (I := fun w => ∃ knows marks, Inv cfg w knows marks ∧ Uniform w marks)
      (fun w e h he => ?_) ⟨_, _, inv_init cfg, uniform_init⟩ hrun
    obtain ⟨knows, marks, hinv, h⟩ := h
    exact h.step hinv hsize hop he
  rw [hw] at hreach
  obtain ⟨knows, marks, hinv, h⟩ := hreach
  have hout : ∀ p, (w.procs p).phase = .returned → ((w.procs p).out.pf ≠ 0#32 ↔
      (w.exchange knows).Holds marks ((w.procs p).round + 1) p) :=
    fun p hp => ((hinv.sending p).out (by rw [hp]; exact fun hc => (nomatch hc))).pf
  have hpf : (w.procs p).out.pf ≠ 0#32 ↔ (w.procs q).out.pf ≠ 0#32 := by
    rw [hout p hp, hout q hq]
    constructor
    · intro hx
      by_contra hnot
      exact h.holds_of_returned hinv hq hnot hp hx
    · intro hx
      by_contra hnot
      exact h.holds_of_returned hinv hp hnot hq hx
  refine ⟨?_, List.filter_congr fun z _ => ?_⟩
  · simp only [Proc.ret, hpf]
  · rw [isSet_crashed, isSet_crashed, Bool.eq_iff_iff]
    exact ⟨fun hc => h.crashed_of_returned hinv hc hq, fun hc => h.crashed_of_returned hinv hc hp⟩

section Runs

/-- Three processes that combine values of four bytes with `MPI_BAND`. -/
def bandThree : Config 3 where
  valueSize := 4
  contrib _ := replicate 4 255
  length_contrib _ := length_replicate
  reduce := bandBytes 0 0

/-- The posting loops of the processes 0 and 1. -/
def postTwo : List (Event 3) := [.post 0, .post 0, .post 0, .post 1, .post 1, .post 1]

/-- The process 2 fails before it has sent anything; the others find this in the first
round. -/
def earlyFailure : List (Event 3) :=
  [.start 0 [], .start 1 [], .crash 2] ++
  ((replicate 4 (postTwo ++
    [.waitAll 0 (fun i => if i = 2 then .procFailed else .success) (fun _ => .success),
      .waitAll 1 (fun i => if i = 2 then .procFailed else .success) (fun _ => .success)])).flatten)

theorem eta_uniform_result_early :
    ((earlyFailure.foldl (World.step bandThree) (World.init 3)).procs 0).ret = mpiErrProcFailed ∧
    ((earlyFailure.foldl (World.step bandThree) (World.init 3)).procs 0).ret =
      ((earlyFailure.foldl (World.step bandThree) (World.init 3)).procs 1).ret ∧
    ((earlyFailure.foldl (World.step bandThree) (World.init 3)).procs 0).failedGroup =
      ((earlyFailure.foldl (World.step bandThree) (World.init 3)).procs 1).failedGroup :=
  ⟨by decide +kernel, eta_uniform_result bandThree (.inl rfl) (bandBytes_semilatticeOn 0 0 4)
    earlyFailure
    (by decide +kernel) rfl (by decide +kernel) (by decide +kernel)⟩

/-- The process 2 fails in the third round, in which all know, when it has sent its
message to the process 0 and not yet to the process 1. -/
def lateFailure : List (Event 3) :=
  [.start 0 [], .start 1 [], .start 2 []] ++
  ((replicate 2 (postTwo ++ [.post 2, .post 2, .post 2,
    .waitAll 0 (fun _ => .success) (fun _ => .success),
    .waitAll 1 (fun _ => .success) (fun _ => .success),
    .waitAll 2 (fun _ => .success) (fun _ => .success)])).flatten) ++
  postTwo ++ [.post 2, .crash 2, .waitAll 0 (fun _ => .success) (fun _ => .success),
    .waitAll 1 (fun i => if i = 2 then .procFailed else .success) (fun _ => .success)]

/-- One of the two processes that are alive returns `MPI_SUCCESS` and no failed process,
the other `MPI_ERR_PROC_FAILED` and the process 2. -/
theorem late_failure_not_uniform :
    ((lateFailure.foldl (World.step bandThree) (World.init 3)).procs 0).phase = .returned ∧
    ((lateFailure.foldl (World.step bandThree) (World.init 3)).procs 1).phase = .returned ∧
    ((lateFailure.foldl (World.step bandThree) (World.init 3)).procs 0).ret = mpiSuccess ∧
    ((lateFailure.foldl (World.step bandThree) (World.init 3)).procs 1).ret = mpiErrProcFailed ∧
    ((lateFailure.foldl (World.step bandThree) (World.init 3)).procs 0).failedGroup = [] ∧
    ((lateFailure.foldl (World.step bandThree) (World.init 3)).procs 1).failedGroup = [2] :=
  ⟨by decide +kernel, by decide +kernel, by decide +kernel, by decide +kernel, by decide +kernel,
    by decide +kernel⟩

end Runs

end Eta

end Ulfm
