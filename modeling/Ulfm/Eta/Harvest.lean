import Ulfm.Eta.Definitions
import Mathlib.Data.List.Induction

/-!
# The loop over the completed requests

What a process finds in the array `in` after its receives, and what the loop over the
completed requests does to the status of each rank and to the message `out`.
-/

namespace Ulfm

open List Function

namespace Eta

section Status

variable {s : BitVec 32}

theorem isSet_twoPow {mask : BitVec 32} {k : ℕ} (h : mask = BitVec.twoPow 32 k) (hk : k < 32) :
    isSet s mask = s.getLsbD k := by
  subst h
  rw [isSet, BitVec.and_twoPow]
  have hne : BitVec.twoPow 32 k ≠ 0#32 := by
    intro h0
    have hbit := congrArg (fun v => BitVec.getLsbD v k) h0
    simp [hk] at hbit
  cases s.getLsbD k with
  | true => simpa using hne
  | false => simp

@[simp] theorem isSet_crashed : isSet s statusCrashed = s[0] := isSet_twoPow (by decide) (by decide)

@[simp] theorem isSet_toldMeHeKnows : isSet s statusToldMeHeKnows = s[2] :=
  isSet_twoPow (by decide) (by decide)

@[simp] theorem isSet_knowsIKnow : isSet s statusKnowsIKnow = s[3] :=
  isSet_twoPow (by decide) (by decide)

@[simp] theorem isSet_sendComplete : isSet s statusSendComplete = s[4] :=
  isSet_twoPow (by decide) (by decide)

@[simp] theorem isSet_recvComplete : isSet s statusRecvComplete = s[5] :=
  isSet_twoPow (by decide) (by decide)

/-- What becomes of the status of a rank whose receive is looked at. -/
def recvStatus (knows : BitVec 32) (c : Completion) (s : BitVec 32) : BitVec 32 :=
  if isSet s statusRecvComplete then s
  else match c with
    | .success => s ||| (knows * statusToldMeHeKnows ||| statusRecvComplete)
    | .procFailed => s ||| (statusCrashed ||| statusRecvComplete)
    | .pending => s

/-- What becomes of the status of a rank whose send is looked at. -/
def sendStatus (knows : BitVec 32) (c : Completion) (s : BitVec 32) : BitVec 32 :=
  if isSet s statusSendComplete then s
  else match c with
    | .success => s ||| (knows * statusKnowsIKnow ||| statusSendComplete)
    | .procFailed => s ||| (statusCrashed ||| statusSendComplete)
    | .pending => s

variable {knows : BitVec 32} {c : Completion}

theorem recvStatus_bits (hknows : s[5] = false → c = .success → knows = 0#32 ∨ knows = 1#32) :
    (recvStatus knows c s)[0] = (s[0] || !s[5] && c = .procFailed) ∧
    (recvStatus knows c s)[1] = s[1] ∧
    (recvStatus knows c s)[2] = (s[2] || !s[5] && c = .success && knows = 1#32) ∧
    (recvStatus knows c s)[3] = s[3] ∧
    (recvStatus knows c s)[4] = s[4] ∧
    (recvStatus knows c s)[5] = (s[5] || c ≠ .pending) := by
  rw [recvStatus.eq_def, isSet_recvComplete]
  cases hopen : s[5] with
  | true => simp [hopen]
  | false =>
    cases c with
    | success =>
      rcases hknows hopen rfl with rfl | rfl
      all_goals simp [statusToldMeHeKnows, statusRecvComplete]
    | procFailed => simp [statusCrashed, statusRecvComplete]
    | pending => simp [hopen]

theorem sendStatus_bits (hknows : knows = 0#32 ∨ knows = 1#32) :
    (sendStatus knows c s)[0] = (s[0] || !s[4] && c = .procFailed) ∧
    (sendStatus knows c s)[1] = s[1] ∧
    (sendStatus knows c s)[2] = s[2] ∧
    (s[3] = true → (sendStatus knows c s)[3] = true) ∧
    (sendStatus knows c s)[4] = (s[4] || c ≠ .pending) ∧
    (sendStatus knows c s)[5] = s[5] := by
  rw [sendStatus.eq_def, isSet_sendComplete]
  cases hopen : s[4] with
  | true => simp [hopen]
  | false =>
    cases c with
    | success =>
      rcases hknows with rfl | rfl
      all_goals simp +contextual [statusKnowsIKnow, statusSendComplete]
    | procFailed => simp +contextual [statusCrashed, statusSendComplete]
    | pending => simp [hopen]

end Status

variable {np : ℕ} {cfg : Config np}

theorem Msg.ofBytes_bytes (m : Msg) : Msg.ofBytes m.bytes = m := by
  cases m with
  | mk knows pf estValue => simp [Msg.ofBytes, Msg.bytes]

theorem Msg.length_bytes (m : Msg) : m.bytes.length = 8 + m.estValue.length := by
  simp [Msg.bytes]
  omega

namespace Proc

section Storage

variable {p : Proc np} {i j : Fin np} {m : Msg} {arrived : Fin np → Option Msg}

/-- The loop that stores the messages of the ranks in `l`. -/
def storeOver (cfg : Config np) (arrived : Fin np → Option Msg) (l : List (Fin np))
    (p : Proc np) : Proc np :=
  l.foldl (fun p i => match arrived i with | some m => p.store cfg i m | none => p) p

theorem storeOver_eq (cfg : Config np) (arrived : Fin np → Option Msg) (l : List (Fin np))
    (p : Proc np) :
    storeOver cfg arrived l p = { p with inBytes := (storeOver cfg arrived l p).inBytes } := by
  induction l generalizing p with
  | nil => rfl
  | cons i l ih =>
    have hcons : storeOver cfg arrived (i :: l) p = storeOver cfg arrived l
        (match arrived i with | some m => p.store cfg i m | none => p) := rfl
    rw [hcons, ih]
    cases arrived i with
    | none => rfl
    | some m => rfl

variable (hsize : cfg.valueSize = 4)
include hsize

theorem inAt_store_self (hm : m.estValue.length = 4) : (p.store cfg i m).inAt cfg i = m := by
  have hmsg : cfg.msgSize = m.bytes.length := by
    rw [m.length_bytes, hm, Config.msgSize, hsize, sizeofMsg]
  have hbytes : ((List.range cfg.msgSize).map fun k =>
      (p.store cfg i m).inBytes (i * sizeofMsg + k)) = m.bytes := by
    apply ext_getElem
    · simp [hmsg]
    · intro k hk hk'
      have hoff : (i : ℕ) * cfg.msgSize = i * sizeofMsg := by
        rw [Config.msgSize, hsize, sizeofMsg]
      simp [store, hoff, hk']
  rw [inAt, hbytes, Msg.ofBytes_bytes]

theorem inAt_store_of_ne (hm : m.estValue.length = 4) (hij : j ≠ i) :
    (p.store cfg i m).inAt cfg j = p.inAt cfg j := by
  have hval : (j : ℕ) ≠ i := fun h => hij (Fin.ext h)
  rw [inAt, inAt]
  refine congrArg Msg.ofBytes (map_congr_left fun k hk => ?_)
  have hk : k < 12 := by simpa [Config.msgSize, hsize, sizeofMsg] using hk
  have hout : ¬((i : ℕ) * cfg.msgSize ≤ j * sizeofMsg + k ∧
      (j : ℕ) * sizeofMsg + k < i * cfg.msgSize + m.bytes.length) := by
    rw [m.length_bytes, hm, Config.msgSize, hsize, sizeofMsg]
    omega
  simp only [store, hout, if_false]

theorem inAt_storeOver_of_notMem (hlen : ∀ i m, arrived i = some m → m.estValue.length = 4)
    {l : List (Fin np)} (hi : i ∉ l) :
    (storeOver cfg arrived l p).inAt cfg i = p.inAt cfg i := by
  induction l generalizing p with
  | nil => rfl
  | cons j l ih =>
    rw [mem_cons, not_or] at hi
    have hcons : storeOver cfg arrived (j :: l) p = storeOver cfg arrived l
        (match arrived j with | some m => p.store cfg j m | none => p) := rfl
    rw [hcons, ih hi.2]
    cases hj : arrived j with
    | none => rfl
    | some m => exact inAt_store_of_ne hsize (hlen j m hj) hi.1

theorem inAt_storeAll (hlen : ∀ i m, arrived i = some m → m.estValue.length = 4)
    (hi : arrived i = some m) : (p.storeAll cfg arrived).inAt cfg i = m := by
  have hover : ∀ (l : List (Fin np)) (p : Proc np), l.Nodup → i ∈ l →
      (storeOver cfg arrived l p).inAt cfg i = m := by
    intro l
    induction l with
    | nil => intro p _ hmem; exact absurd hmem not_mem_nil
    | cons j l ih =>
      intro p hnodup hmem
      rw [nodup_cons] at hnodup
      rcases mem_cons.1 hmem with rfl | hmem
      · have hcons : storeOver cfg arrived (i :: l) p =
            storeOver cfg arrived l (p.store cfg i m) := by
          simp only [storeOver, foldl_cons, hi]
        rw [hcons, inAt_storeOver_of_notMem hsize hlen hnodup.1]
        exact inAt_store_self hsize (hlen i m hi)
      · exact ih _ hnodup.2 hmem
  exact hover _ p (nodup_finRange np) (mem_finRange i)

end Storage

section Ranks

variable {recv send : Fin np → Completion} {got : Fin np → Msg} {p p' : Proc np}
  {i j : Fin np} {l : List (Fin np)}

/-- The receive from `i` succeeds. -/
def Receives (p : Proc np) (recv : Fin np → Completion) (i : Fin np) : Prop :=
  p.recvOpen i ∧ recv i = .success

/-- A request of the rank `i` fails. -/
def Fails (p : Proc np) (recv send : Fin np → Completion) (i : Fin np) : Prop :=
  p.recvOpen i ∧ recv i = .procFailed ∨ p.sendOpen i ∧ send i = .procFailed

/-- A request of the rank `i` is left pending. -/
def Pends (p : Proc np) (recv send : Fin np → Completion) (i : Fin np) : Prop :=
  p.recvOpen i ∧ recv i = .pending ∨ p.sendOpen i ∧ send i = .pending

instance : DecidablePred (p.Receives recv) := fun _ => inferInstanceAs (Decidable (_ ∧ _))

instance : DecidablePred (p.Fails recv send) := fun _ => inferInstanceAs (Decidable (_ ∨ _))

instance : DecidablePred (p.Pends recv send) := fun _ => inferInstanceAs (Decidable (_ ∨ _))

/-- The status of a rank after its two requests have been looked at, the receive of the
message `got i`. -/
structure Visited (recv send : Fin np → Completion) (got : Fin np → Msg) (p p' : Proc np)
    (i : Fin np) : Prop where
  crashed : (p'.procStatus i)[0] = true ↔ (p.procStatus i)[0] = true ∨ p.Fails recv send i
  acked : (p'.procStatus i)[1] = (p.procStatus i)[1]
  told : (p'.procStatus i)[2] = true ↔
    (p.procStatus i)[2] = true ∨ p.Receives recv i ∧ (got i).knows = 1#32
  knowsIKnow : (p.procStatus i)[3] = true → (p'.procStatus i)[3] = true
  recvOpen : p'.recvOpen i = true ↔ p.recvOpen i = true ∧ recv i = .pending
  sendOpen : p'.sendOpen i = true ↔ p.sendOpen i = true ∧ send i = .pending

/-- What the loop has done after the ranks in `l`. -/
structure Harvested (cfg : Config np) (recv send : Fin np → Completion) (got : Fin np → Msg)
    (p p' : Proc np) (l : List (Fin np)) : Prop where
  phase : p'.phase = p.phase
  round : p'.round = p.round
  knows : p'.out.knows = p.out.knows
  untouched : ∀ i, i ∉ l → p'.procStatus i = p.procStatus i
  visited : ∀ i ∈ l, Visited recv send got p p' i
  pf : p'.out.pf ≠ 0#32 ↔ p.out.pf ≠ 0#32 ∨
    ∃ i ∈ l, p.Fails recv send i ∨ p.Receives recv i ∧ (got i).pf ≠ 0#32
  estValue : p'.out.estValue = (l.filter fun i => p.Receives recv i).foldl
    (fun v i => cfg.reduce (got i).estValue v) p.out.estValue
  nbrecv : p'.nbrecv = p.nbrecv + l.countP fun i => p.Receives recv i
  nr : p'.nr = 0 ↔ p.nr = 0 ∧ ∀ i ∈ l, ¬p.Pends recv send i

section Visit

theorem harvestRecv_procStatus : (harvestRecv cfg i (recv i) p).procStatus =
    update p.procStatus i (recvStatus (p.inAt cfg i).knows (recv i) (p.procStatus i)) := by
  rw [harvestRecv.eq_def, recvOpen, recvStatus.eq_def]
  cases isSet (p.procStatus i) statusRecvComplete with
  | true => simp
  | false =>
    cases recv i with
    | success => rfl
    | procFailed => rfl
    | pending => simp

theorem harvestSend_procStatus : (harvestSend i (send i) p).procStatus =
    update p.procStatus i (sendStatus p.out.knows (send i) (p.procStatus i)) := by
  rw [harvestSend.eq_def, sendOpen, sendStatus.eq_def]
  cases isSet (p.procStatus i) statusSendComplete with
  | true => simp
  | false =>
    cases send i with
    | success => rfl
    | procFailed => rfl
    | pending => simp

theorem harvestRecv_rest (cfg : Config np) (recv : Fin np → Completion) (p : Proc np)
    (i : Fin np) : ∃ q : Proc np, harvestRecv cfg i (recv i) p = q ∧
    q.phase = p.phase ∧ q.round = p.round ∧ q.out.knows = p.out.knows ∧
    q.inBytes = p.inBytes ∧
    (q.out.pf ≠ 0#32 ↔ p.out.pf ≠ 0#32 ∨ p.recvOpen i ∧ recv i = .procFailed ∨
      p.Receives recv i ∧ (p.inAt cfg i).pf ≠ 0#32) ∧
    q.out.estValue = (if p.Receives recv i then
      cfg.reduce (p.inAt cfg i).estValue p.out.estValue else p.out.estValue) ∧
    q.nbrecv = p.nbrecv + (if p.Receives recv i then 1 else 0) ∧
    (q.nr = 0 ↔ p.nr = 0 ∧ ¬(p.recvOpen i ∧ recv i = .pending)) := by
  refine ⟨_, rfl, ?_⟩
  rw [harvestRecv.eq_def]
  by_cases hopen : p.recvOpen i
  · cases hc : recv i with
    | success => simp [hopen, hc, Receives, setStatus, BitVec.or_eq_zero_iff, or_iff_not_imp_left]
    | procFailed => simp [hopen, hc, Receives, setStatus]
    | pending => simp [hopen, hc, Receives]
  · simp [hopen, Receives]

theorem harvestSend_rest (send : Fin np → Completion) (p : Proc np) (i : Fin np) :
    ∃ q : Proc np, harvestSend i (send i) p = q ∧
    q.phase = p.phase ∧ q.round = p.round ∧ q.out.knows = p.out.knows ∧
    q.inBytes = p.inBytes ∧
    (q.out.pf ≠ 0#32 ↔ p.out.pf ≠ 0#32 ∨ p.sendOpen i ∧ send i = .procFailed) ∧
    q.out.estValue = p.out.estValue ∧ q.nbrecv = p.nbrecv ∧
    (q.nr = 0 ↔ p.nr = 0 ∧ ¬(p.sendOpen i ∧ send i = .pending)) := by
  refine ⟨_, rfl, ?_⟩
  rw [harvestSend.eq_def]
  by_cases hopen : p.sendOpen i
  · cases hc : send i with
    | success | procFailed => simp [hopen, setStatus]
    | pending => simp [hopen]
  · simp [hopen]

variable (hgot : p.Receives recv i → p.inAt cfg i = got i)
  (hin : p.Receives recv i → (got i).knows = 0#32 ∨ (got i).knows = 1#32)
include hgot hin

theorem harvestRecv_bits {q : Proc np} (hq : harvestRecv cfg i (recv i) p = q) :
    (q.procStatus i)[0] = ((p.procStatus i)[0] || !(p.procStatus i)[5] && recv i = .procFailed) ∧
    (q.procStatus i)[1] = (p.procStatus i)[1] ∧
    (q.procStatus i)[2] = ((p.procStatus i)[2] ||
      !(p.procStatus i)[5] && recv i = .success && (p.inAt cfg i).knows = 1#32) ∧
    (q.procStatus i)[3] = (p.procStatus i)[3] ∧ (q.procStatus i)[4] = (p.procStatus i)[4] ∧
    (q.procStatus i)[5] = ((p.procStatus i)[5] || recv i ≠ .pending) := by
  have hopen : (p.procStatus i)[5] = false → recv i = .success →
      (p.inAt cfg i).knows = 0#32 ∨ (p.inAt cfg i).knows = 1#32 := by
    intro h5 hc
    have hr : p.Receives recv i := ⟨by simp [recvOpen, h5], hc⟩
    rw [hgot hr]
    exact hin hr
  have hqs : q.procStatus i = recvStatus (p.inAt cfg i).knows (recv i) (p.procStatus i) := by
    rw [← hq, harvestRecv_procStatus, update_self]
  rw [hqs]
  exact recvStatus_bits hopen

theorem visited_visit (hout : p.out.knows = 0#32 ∨ p.out.knows = 1#32)
    (send : Fin np → Completion) :
    Visited recv send got p (harvestSend i (send i) (harvestRecv cfg i (recv i) p)) i := by
  obtain ⟨q, hq, -, -, hknows, -⟩ := harvestRecv_rest cfg recv p i
  have hsends : (harvestSend i (send i) q).procStatus i =
      sendStatus p.out.knows (send i) (q.procStatus i) := by
    rw [harvestSend_procStatus, update_self, hknows]
  obtain ⟨r0, r1, r2, r3, r4, r5⟩ := harvestRecv_bits hgot hin hq
  obtain ⟨s0, s1, s2, s3, s4, s5⟩ := sendStatus_bits (s := q.procStatus i) (c := send i) hout
  rw [hq]
  rw [← hsends] at s0 s1 s2 s3 s4 s5
  refine ⟨?_, ?_, ?_, ?_, ?_, ?_⟩
  · rw [s0, r0, r4]
    simp [Fails, Proc.recvOpen, Proc.sendOpen, or_assoc]
  · rw [s1, r1]
  · have htold : p.Receives recv i ∧ (got i).knows = 1#32 ↔
        p.Receives recv i ∧ (p.inAt cfg i).knows = 1#32 :=
      and_congr_right fun h => by rw [hgot h]
    rw [s2, r2, htold]
    simp [Receives, Proc.recvOpen, and_assoc]
  · rw [r3] at s3
    exact s3
  · simp [Proc.recvOpen, s5, r5]
  · simp [Proc.sendOpen, s4, r4]

theorem harvested_visit (hout : p.out.knows = 0#32 ∨ p.out.knows = 1#32)
    (send : Fin np → Completion) :
    Harvested cfg recv send got p (harvestSend i (send i) (harvestRecv cfg i (recv i) p)) [i] := by
  have hvisited := visited_visit hgot hin hout send
  obtain ⟨q, hq, hphase, hround, hknows, -, hpf, hest, hnb, hnr⟩ := harvestRecv_rest cfg recv p i
  obtain ⟨q', hq', hphase', hround', hknows', -, hpf', hest', hnb', hnr'⟩ :=
    harvestSend_rest send q i
  have hsend : q.sendOpen i = p.sendOpen i := by
    obtain ⟨-, -, -, -, h4, -⟩ := harvestRecv_bits hgot hin hq
    rw [sendOpen, sendOpen, isSet_sendComplete, isSet_sendComplete, h4]
  have hne : ∀ j, j ≠ i → q'.procStatus j = p.procStatus j := by
    intro j hj
    rw [← hq', harvestSend_procStatus, update_of_ne hj, ← hq, harvestRecv_procStatus,
      update_of_ne hj]
  have hpfgot : p.Receives recv i ∧ (p.inAt cfg i).pf ≠ 0#32 ↔
      p.Receives recv i ∧ (got i).pf ≠ 0#32 :=
    and_congr_right fun h => by rw [hgot h]
  rw [hq, hq'] at hvisited ⊢
  rw [hsend] at hpf' hnr'
  refine ⟨hphase'.trans hphase, hround'.trans hround, hknows'.trans hknows,
    fun j hj => hne j (by simpa using hj), ?_, ?_, ?_, ?_, ?_⟩
  · intro j hj
    rw [mem_singleton.1 hj]
    exact hvisited
  · rw [hpf', hpf, hpfgot]
    simp only [mem_singleton, exists_eq_left, Fails]
    exact or_assoc.trans (or_congr_right or_right_comm)
  · rw [hest', hest]
    by_cases h : p.Receives recv i
    · simp [h, hgot h]
    · simp [h]
  · rw [hnb', hnb]
    by_cases h : p.Receives recv i
    · simp [h]
    · simp [h]
  · rw [hnr', hnr]
    simp only [mem_singleton, forall_eq, Pends, not_or, and_assoc]

end Visit

theorem Harvested.refl : Harvested cfg recv send got p p [] := by
  refine ⟨rfl, rfl, rfl, fun _ _ => rfl, fun i hi => absurd hi not_mem_nil, ?_, rfl, rfl, ?_⟩
  · simp
  · simp

theorem Harvested.visit (h : Harvested cfg recv send got p p' l) (hi : i ∉ l) {q : Proc np}
    (hq : Harvested cfg recv send got p' q [i]) :
    Harvested cfg recv send got p q (l ++ [i]) := by
  have hstatus := h.untouched i hi
  have hrecvOpen : p'.recvOpen i = p.recvOpen i := by rw [recvOpen, recvOpen, hstatus]
  have hsendOpen : p'.sendOpen i = p.sendOpen i := by rw [sendOpen, sendOpen, hstatus]
  have hreceives : p'.Receives recv i ↔ p.Receives recv i := by
    rw [Receives, Receives, hrecvOpen]
  have hfails : p'.Fails recv send i ↔ p.Fails recv send i := by
    rw [Fails, Fails, hrecvOpen, hsendOpen]
  have hpends : p'.Pends recv send i ↔ p.Pends recv send i := by
    rw [Pends, Pends, hrecvOpen, hsendOpen]
  refine ⟨hq.phase.trans h.phase, hq.round.trans h.round, hq.knows.trans h.knows,
    fun j hj => ?_, fun j hj => ?_, ?_, ?_, ?_, ?_⟩
  · rw [mem_append, not_or] at hj
    rw [hq.untouched j hj.2, h.untouched j hj.1]
  · rcases mem_append.1 hj with hj | hj
    · have hne : j ∉ [i] := by
        rw [mem_singleton]
        intro heq
        exact hi (heq ▸ hj)
      have hsame := hq.untouched j hne
      have hv := h.visited j hj
      refine ⟨?_, ?_, ?_, ?_, ?_, ?_⟩
      · rw [hsame]; exact hv.crashed
      · rw [hsame]; exact hv.acked
      · rw [hsame]; exact hv.told
      · rw [hsame]; exact hv.knowsIKnow
      · rw [recvOpen, hsame]; exact hv.recvOpen
      · rw [sendOpen, hsame]; exact hv.sendOpen
    · obtain rfl := mem_singleton.1 hj
      have hv := hq.visited j hj
      refine ⟨?_, ?_, ?_, ?_, ?_, ?_⟩
      · rw [← hstatus, ← hfails]; exact hv.crashed
      · rw [← hstatus]; exact hv.acked
      · rw [← hstatus, ← hreceives]; exact hv.told
      · rw [← hstatus]; exact hv.knowsIKnow
      · rw [← hrecvOpen]; exact hv.recvOpen
      · rw [← hsendOpen]; exact hv.sendOpen
  · rw [hq.pf, h.pf]
    simp only [mem_singleton, exists_eq_left, hfails, hreceives, mem_append,
      or_assoc, or_and_right, exists_or]
  · rw [hq.estValue, h.estValue]
    have hfilter : ([i].filter fun j => p'.Receives recv j) =
        [i].filter fun j => p.Receives recv j := by
      refine filter_congr fun j hj => ?_
      rw [mem_singleton.1 hj]
      exact decide_eq_decide.2 hreceives
    simp only [hfilter, filter_append, foldl_append]
  · rw [hq.nbrecv, h.nbrecv]
    simp [countP_append, hreceives, Nat.add_assoc]
  · rw [hq.nr, h.nr]
    simp [hpends, or_imp, forall_and, and_assoc]

theorem harvest_spec (hgot : ∀ i, p.Receives recv i → p.inAt cfg i = got i)
    (hin : ∀ i, p.Receives recv i → (got i).knows = 0#32 ∨ (got i).knows = 1#32)
    (hout : p.out.knows = 0#32 ∨ p.out.knows = 1#32) (send : Fin np → Completion) :
    Harvested cfg recv send got { p with nr := 0, nbrecv := 0 } (p.harvest cfg recv send)
      (finRange np) := by
  set p₀ : Proc np := { p with nr := 0, nbrecv := 0 } with hp₀
  have hover : ∀ l : List (Fin np), l.Nodup → Harvested cfg recv send got p₀
        (l.foldl (fun p i => harvestSend i (send i) (harvestRecv cfg i (recv i) p)) p₀) l ∧
      (l.foldl (fun p i => harvestSend i (send i) (harvestRecv cfg i (recv i) p)) p₀).inBytes =
        p.inBytes := by
    intro l hl
    induction l using List.reverseRecOn with
    | nil => exact ⟨Harvested.refl, rfl⟩
    | append_singleton l i ih =>
      rw [nodup_append_comm, singleton_append, nodup_cons] at hl
      obtain ⟨h, hbytes⟩ := ih hl.2
      rw [foldl_append, foldl_cons, foldl_nil]
      generalize l.foldl (fun p i => harvestSend i (send i) (harvestRecv cfg i (recv i) p)) p₀ =
        q at h hbytes ⊢
      have hreceives : q.Receives recv i → p.Receives recv i := by
        rw [Receives, Receives, recvOpen, recvOpen, h.untouched i hl.1]
        exact id
      refine ⟨h.visit hl.1
        (harvested_visit (fun hr => ?_) (fun hr => hin i (hreceives hr)) ?_ send),
        ?_⟩
      · rw [inAt, hbytes]
        exact hgot i (hreceives hr)
      · rw [h.knows]
        exact hout
      · obtain ⟨q₁, hq₁, -, -, -, hbytes₁, -⟩ :=
          harvestRecv_rest cfg recv q i
        obtain ⟨q₂, hq₂, -, -, -, hbytes₂, -⟩ := harvestSend_rest send q₁ i
        rw [hq₁, hq₂, hbytes₂, hbytes₁, hbytes]
  exact (hover _ (nodup_finRange np)).1

theorem harvest_storeAll {arrived : Fin np → Option Msg}
    (hinAt : ∀ i, p.Receives recv i → (p.storeAll cfg arrived).inAt cfg i = got i)
    (hin : ∀ i, p.Receives recv i → (got i).knows = 0#32 ∨ (got i).knows = 1#32)
    (hout : p.out.knows = 0#32 ∨ p.out.knows = 1#32) (send : Fin np → Completion) :
    Harvested cfg recv send got { p with nr := 0, nbrecv := 0 }
      ((p.storeAll cfg arrived).harvest cfg recv send) (finRange np) := by
  have hstore : ∃ bytes, p.storeAll cfg arrived = { p with inBytes := bytes } :=
    ⟨_, storeOver_eq cfg arrived (List.finRange np) p⟩
  obtain ⟨bytes, hbytes⟩ := hstore
  rw [hbytes] at hinAt ⊢
  have h := harvest_spec (p := { p with inBytes := bytes }) hinAt hin hout send
  exact ⟨h.phase, h.round, h.knows, h.untouched, fun i hi =>
    ⟨(h.visited i hi).crashed, (h.visited i hi).acked, (h.visited i hi).told,
      (h.visited i hi).knowsIKnow, (h.visited i hi).recvOpen, (h.visited i hi).sendOpen⟩,
    h.pf, h.estValue, h.nbrecv, h.nr⟩

end Ranks

end Proc

end Eta

end Ulfm
