import Ulfm.Request.Recovery

/-!
# What the next call reports

A receive that has completed keeps its status: a pass changes at most its state. So
every report on it has the same error code, the one that the receive path has left, or
the one of a pending receive where the function looks at the flag first.
-/

namespace Ulfm

open List Function RecvWorld

/-- The calls that look at `req_any_source_pending` before the completion. -/
def RequestCall.readsFlag : RequestCall → Bool
  | .wait _ | .testSome _ | .waitSome _ => true
  | .test _ | .waitAny _ | .waitAll .. | .waitAllWake .. => false

/-- The calls with the request `i` and no other. -/
def RequestCall.Alone (i : Nat) : RequestCall → Prop
  | .test j | .wait j => j = i
  | .waitAny js | .testSome js | .waitSome js | .waitAll js _ _ => js = [i]
  | .waitAllWake .. => False

/-- The report of a receive that completed with the message `hdr`. -/
def messageReport (i : Nat) (r : RecvRequest) (hdr : MatchHdr) : Report :=
  ⟨i, true, if r.bytesExpected < hdr.length then mpiErrTruncate else mpiSuccess, .rank hdr.src,
    hdr.tag, hdr.length⟩

/-- The reports of a pass on the receive `i` that was `r` when the pass began. -/
structure Reports (i : Nat) (r : RecvRequest) (completed : Bool) (error : ℤ)
    (result : RecvWorld × List Report) : Prop where
  kept : ∃ state, result.1.requests i = { r with state := state }
  reports : ∀ rep ∈ result.2, rep.index = i →
    rep = ⟨i, completed, error, r.statusSource, r.statusTag, r.ucount⟩

section Frozen

variable {i j : Nat} {w : RecvWorld} {r : RecvRequest} {completed : Bool} {error : ℤ}

theorem Reports.nil (h : ∃ state, w.requests i = { r with state := state }) :
    Reports i r completed error (w, []) :=
  ⟨h, fun _ hrep => absurd hrep not_mem_nil⟩

theorem Reports.append {w' : RecvWorld} {reps reps' : List Report}
    (h : Reports i r completed error (w, reps)) (h' : Reports i r completed error (w', reps')) :
    Reports i r completed error (w', reps ++ reps') := by
  refine ⟨h'.kept, fun rep hrep hi => ?_⟩
  rcases mem_append.1 hrep with hrep | hrep
  · exact h.reports rep hrep hi
  · exact h'.reports rep hrep hi

theorem Reports.report (h : ∃ state, w.requests i = { r with state := state })
    {completed' : Bool} {error' : ℤ} (heq : i = j → completed' = completed ∧ error' = error) :
    Reports i r completed error (w, [w.report j completed' error']) := by
  refine ⟨h, fun rep hrep hi => ?_⟩
  rw [mem_singleton.1 hrep] at hi ⊢
  obtain rfl : j = i := hi
  obtain ⟨state, hstate⟩ := h
  obtain ⟨rfl, rfl⟩ := heq rfl
  rw [report, hstate]

theorem Reports.finishRequest (h : ∃ state, w.requests i = { r with state := state })
    (heq : i = j → completed = true ∧ error = r.error) :
    Reports i r completed error (w.finishRequest j) := by
  obtain ⟨state, hstate⟩ := h
  have hreport : Reports i r completed error (w, [w.report j true (w.requests j).error]) := by
    refine Reports.report ⟨state, hstate⟩ fun hij => ?_
    obtain ⟨hc, he⟩ := heq hij
    rw [← hij, hstate]
    exact ⟨hc.symm, he.symm⟩
  refine ⟨?_, hreport.reports⟩
  change ∃ state, (w.setRequest j (w.requests j).retire).requests i = { r with state := state }
  rcases eq_or_ne i j with rfl | hij
  · obtain ⟨state', hretire⟩ := RecvInv.retire_eq (w.requests i)
    rw [w.setRequest_self, hretire, hstate]
    exact ⟨state', rfl⟩
  · rw [w.setRequest_of_ne hij]
    exact ⟨state, hstate⟩

theorem RecvWorld.stateOk_of_ne (w : RecvWorld) (hij : i ≠ j) :
    (w.stateOk j).1.requests i = w.requests i := by
  rw [stateOk]
  cases (w.requests j).comm with
  | none => rfl
  | some c => exact w.setRequest_of_ne hij _

theorem Reports.test (hcomplete : (w.requests i).complete = true) (j : Nat) :
    Reports i (w.requests i) true (w.requests i).error (w.test j) := by
  have hkept : ∃ state, w.requests i = { w.requests i with state := state } := ⟨_, rfl⟩
  rw [RecvWorld.test]
  by_cases hinactive : (w.requests j).state = .inactive
  · rw [if_pos hinactive]
    exact Reports.nil hkept
  rw [if_neg hinactive]
  cases hj : (w.requests j).complete with
  | true =>
    simp only [hj, if_true, Bool.not_true, Bool.false_eq_true, false_and, if_false]
    exact Reports.finishRequest hkept fun _ => ⟨rfl, rfl⟩
  | false =>
    have hij : i ≠ j := by
      rintro rfl
      rw [hcomplete] at hj
      cases hj
    have hkept' : ∃ state, (w.stateOk j).1.requests i = { w.requests i with state := state } := by
      rw [w.stateOk_of_ne hij]
      exact hkept
    simp only [Bool.false_eq_true, if_false, Bool.not_eq_true']
    split_ifs
    · exact Reports.report hkept' fun h => absurd h hij
    · exact Reports.finishRequest hkept' fun h => absurd h hij
    · exact Reports.nil hkept'

theorem Reports.wait (hcomplete : (w.requests i).complete = true)
    (hactive : (w.requests i).state = .active) (j : Nat) :
    Reports i (w.requests i) (!(w.requests i).anySourcePending)
      (if (w.requests i).anySourcePending then mpiErrProcFailedPending else (w.requests i).error)
      (w.wait j) := by
  have hkept : ∃ state, w.requests i = { w.requests i with state := state } := ⟨_, rfl⟩
  rw [RecvWorld.wait]
  rcases eq_or_ne i j with rfl | hij
  · have hnot : ¬((w.requests i).persistent = true ∧ (w.requests i).state = .inactive) := by
      rw [hactive]
      rintro ⟨-, h⟩
      cases h
    simp only [hcomplete, if_true, Bool.false_eq_true, if_false, hnot]
    split_ifs with hpending
    · exact Reports.report hkept fun _ => ⟨by rw [hpending]; rfl, rfl⟩
    · exact Reports.finishRequest hkept fun _ =>
        ⟨by rw [Bool.not_eq_true] at hpending; rw [hpending]; rfl, rfl⟩
  · have hchecked : ∃ state, (if (w.requests j).complete then (w, false)
        else w.stateOk j).1.requests i = { w.requests i with state := state } := by
      split_ifs
      · exact hkept
      · rw [w.stateOk_of_ne hij]
        exact hkept
    generalize (if (w.requests j).complete then (w, false) else w.stateOk j) = checked at hchecked ⊢
    generalize (if (w.requests i).anySourcePending then mpiErrProcFailedPending
      else (w.requests i).error) = error
    split_ifs
    · exact Reports.nil hchecked
    · exact Reports.report hchecked fun h => absurd h hij
    · exact Reports.report hchecked fun h => absurd h hij
    · exact Reports.finishRequest hchecked fun h => absurd h hij

theorem Reports.waitAny (hcomplete : r.complete = true)
    (h : ∃ state, w.requests i = { r with state := state }) (js : List Nat) :
    Reports i r true r.error (w.waitAny js) := by
  induction js generalizing w with
  | nil => exact Reports.nil h
  | cons j js ih =>
    rw [waitAny]
    cases hj : (w.requests j).complete with
    | true =>
      simp only [if_true]
      split_ifs
      · exact ih h
      · exact Reports.finishRequest h fun _ => ⟨rfl, rfl⟩
    | false =>
      have hij : i ≠ j := by
        rintro rfl
        obtain ⟨state, hstate⟩ := h
        rw [hstate] at hj
        exact absurd hcomplete (by rw [show r.complete = false from hj]; decide)
      have h' : ∃ state, (w.stateOk j).1.requests i = { r with state := state } := by
        rw [w.stateOk_of_ne hij]
        exact h
      simp only [Bool.false_eq_true, if_false]
      split_ifs
      · exact ih h
      · exact ih h'
      · exact Reports.report h' fun hc => absurd hc hij
      · exact Reports.finishRequest h' fun hc => absurd hc hij
      · exact ih h

theorem RecvWorld.collect_requests (w : RecvWorld) (hcomplete : (w.requests i).complete = true)
    (js : List Nat) : (w.collect js).1.requests i = w.requests i := by
  induction js generalizing w with
  | nil => rfl
  | cons j js ih =>
    rw [RecvWorld.collect]
    by_cases hinactive : (w.requests j).state = .inactive
    · rw [if_pos hinactive]
      exact ih w hcomplete
    rw [if_neg hinactive]
    cases hj : (w.requests j).complete with
    | true => exact ih w hcomplete
    | false =>
      have hij : i ≠ j := by
        rintro rfl
        rw [hcomplete] at hj
        cases hj
      have hsame := w.stateOk_of_ne hij
      simp only [Bool.false_eq_true, if_false]
      rw [ih _ (by rw [hsame]; exact hcomplete), hsame]

theorem Reports.reportSome (h : ∃ state, w.requests i = { r with state := state })
    (js : List Nat) :
    Reports i r (!r.anySourcePending)
      (if r.anySourcePending then mpiErrProcFailedPending else r.error) (w.reportSome js) := by
  induction js generalizing w with
  | nil => exact Reports.nil h
  | cons j js ih =>
    have hflag : i = j → (w.requests j).anySourcePending = r.anySourcePending := by
      rintro rfl
      obtain ⟨state, hstate⟩ := h
      rw [hstate]
    rw [reportSome]
    cases hpending : (w.requests j).anySourcePending with
    | true =>
      simp only [if_true]
      refine Reports.append (Reports.report h fun hij => ?_) (ih h)
      rw [← hflag hij, hpending]
      exact ⟨rfl, rfl⟩
    | false =>
      simp only [Bool.false_eq_true, if_false]
      have hfinish : Reports i r (!r.anySourcePending)
          (if r.anySourcePending then mpiErrProcFailedPending else r.error)
          (w.finishRequest j) := by
        refine Reports.finishRequest h fun hij => ?_
        rw [← hflag hij, hpending]
        exact ⟨rfl, rfl⟩
      exact Reports.append hfinish (ih hfinish.kept)

section

variable (hcomplete : (w.requests i).complete = true)
include hcomplete

theorem Reports.doSome (js : List Nat) : Reports i (w.requests i) (!(w.requests i).anySourcePending)
      (if (w.requests i).anySourcePending then mpiErrProcFailedPending else (w.requests i).error)
      (w.doSome js) := by
  have hsame := w.collect_requests hcomplete js
  exact Reports.reportSome ⟨(w.requests i).state, hsame⟩ _

theorem writeBack_of_complete {s s' : WaitState}
    {js : List Nat} (hrequests : s.requests = js.map fun j => (w.requests j).toRequest)
    (hs' : s'.requests = s.requests ∨ s'.requests = s.requests.map fun r => (s.check r).1) :
    (w.writeBack js s'.requests).requests i = w.requests i := by
  rcases hs' with hs' | hs'
  · rw [hs', hrequests, writeBack_requests]
    split_ifs
    · rfl
    · rfl
  · have hcheck : (s.check (w.requests i).toRequest).1 = (w.requests i).toRequest := by
      rw [WaitState.check]
      cases (w.requests i).comm with
      | none => rfl
      | some c => simp [hcomplete]
    rw [hs', hrequests, map_map,
      w.writeBack_requests js ((fun r => (s.check r).1) ∘ fun j => (w.requests j).toRequest)]
    split_ifs
    · rw [comp_apply, hcheck]
    · rfl

theorem Reports.afterSettled (hquery : (w.requests i).query = none) {s : WaitState} {js : List Nat}
    (hrequests : s.requests = js.map fun j => (w.requests j).toRequest)
    {settled : WaitState.Settled} (hsettled : SettledInv s settled) :
    Reports i (w.requests i) true (w.requests i).error (w.afterSettled js settled) := by
  cases settled with
  | sleeping s' start pending startFailed =>
    have hsame := writeBack_of_complete hcomplete hrequests
      (Or.inr (hsettled.asleep _ _ _ _ rfl))
    exact Reports.nil ⟨(w.requests i).state, hsame⟩
  | finished s' failed =>
    have hsame := writeBack_of_complete hcomplete hrequests
      (hsettled.requests s' failed rfl).1
    rw [RecvWorld.afterSettled]
    set w' := w.writeBack js s'.requests
    have hretire : ∀ (js : List Nat) (w' : RecvWorld),
        (∃ state, w'.requests i = { w.requests i with state := state }) →
        ∃ state, (js.foldl (fun w j => if skipped failed (w.requests j).toRequest then w
          else w.setRequest j (w.requests j).retire) w').requests i =
            { w.requests i with state := state } := by
      intro js
      induction js with
      | nil => exact fun _ h => h
      | cons j js ih =>
        intro w' h
        rw [foldl_cons]
        split_ifs
        · exact ih w' h
        · have hkept := Reports.finishRequest (j := j) h fun _ => ⟨rfl, rfl⟩
          exact ih _ hkept.kept
    refine ⟨hretire js w' ⟨(w.requests i).state, hsame⟩, fun rep hrep hi => ?_⟩
    obtain ⟨j, -, rfl⟩ := mem_map.1 hrep
    obtain rfl : j = i := hi
    have hstatus : finishStatus failed (w.requests j).toRequest = (w.requests j).error := by
      rw [finishStatus, skipped, hcomplete, Request.reported, hquery]
      simp
    rw [RecvWorld.report, hsame, hstatus, hcomplete]

theorem Reports.call
    (hactive : (w.requests i).state = .active) (hquery : (w.requests i).query = none)
    (call : RequestCall) :
    Reports i (w.requests i) (!(call.readsFlag && (w.requests i).anySourcePending))
      (if call.readsFlag && (w.requests i).anySourcePending then mpiErrProcFailedPending
        else (w.requests i).error) (w.call call) := by
  cases call with
  | test j => exact Reports.test hcomplete j
  | wait j => exact Reports.wait hcomplete hactive j
  | waitAny js => exact Reports.waitAny hcomplete ⟨_, rfl⟩ js
  | waitAll js completed failed =>
    have hsettled := settledInv_start (w.waitState js completed failed)
    exact Reports.afterSettled hcomplete hquery rfl hsettled
  | waitAllWake js completed failed start pending startFailed =>
    have hsettled := settledInv_settle (w.waitState js completed failed) start pending startFailed
    exact Reports.afterSettled hcomplete hquery rfl hsettled
  | testSome js | waitSome js => exact Reports.doSome hcomplete js

theorem exists_report_of_alone
    (hactive : (w.requests i).state = .active) {call : RequestCall} (halone : call.Alone i) :
    ∃ rep ∈ (w.call call).2, rep.index = i := by
  cases call with
  | test j =>
    obtain rfl : j = i := halone
    simp [RecvWorld.call, RecvWorld.test, hcomplete, hactive, finishRequest,
      report]
  | wait j =>
    obtain rfl : j = i := halone
    simp only [RecvWorld.call, RecvWorld.wait, hcomplete, hactive, if_true, Bool.false_eq_true,
      if_false, reduceCtorEq, and_false]
    split_ifs
    · simp [report]
    · simp [finishRequest, report]
  | waitAny js =>
    obtain rfl : js = [i] := halone
    simp [RecvWorld.call, RecvWorld.waitAny, hcomplete, hactive, finishRequest,
      report]
  | waitAll js completed failed =>
    obtain rfl : js = [i] := halone
    have hsettled : (w.waitState [i] completed failed).numCompleted =
        (w.waitState [i] completed failed).requests.length := by
      simp [WaitState.numCompleted, waitState, hcomplete]
    rw [RecvWorld.call, RecvWorld.waitAll, WaitState.outerLoop]
    simp only [hsettled, if_true]
    split_ifs
    · simp [afterSettled, report]
    · simp [afterSettled, report]
  | waitAllWake => exact absurd halone id
  | testSome js | waitSome js =>
    obtain rfl : js = [i] := halone
    simp only [RecvWorld.call, doSome, RecvWorld.collect, hcomplete, hactive,
      reduceCtorEq, if_true, if_false, Bool.not_true, Bool.false_eq_true, false_and,
      nil_append, List.append_nil, reportSome]
    split_ifs
    · simp [report]
    · simp [finishRequest, report]

end

end Frozen

/-- A receive that has just been posted on the communicator `c`. -/
structure Posted (c : Nat) (r : RecvRequest) : Prop extends UserRecv c r where
  active : r.state = .active
  incomplete : r.complete = false
  flag : r.anySourcePending = false
  matched : r.matched = none

theorem Posted.inv {c : Nat} {r : RecvRequest} (h : Posted c r) : RecvInv c r := by
  have hincomplete : ∀ {P : Prop}, r.complete = true → P := by
    intro P hc
    rw [h.incomplete] at hc
    cases hc
  refine ⟨h.toUserRecv, fun _ => h.active, fun hdr hm => ?_, hincomplete, hincomplete, fun hp => ?_⟩
  · rw [h.matched] at hm
    cases hm
  · rw [h.flag] at hp
    cases hp

/-- The reports on a stale receive are those of its message exactly when the message is
too long for the buffer and the call does not find the flag set. -/
theorem RecvInv.messageReport_iff {c : Nat} {r : RecvRequest} (h : RecvInv c r) (hstale : Stale r)
    (hcomplete : r.complete = true) {hdr : MatchHdr} (hmatched : r.matched = some hdr) (i : Nat)
    (flagged : Bool) :
    (⟨i, !flagged, if flagged then mpiErrProcFailedPending else r.error, r.statusSource,
      r.statusTag, r.ucount⟩ : Report) = messageReport i r hdr ↔
        r.bytesExpected < hdr.length ∧ flagged = false := by
  obtain ⟨hsource, htag, hlength⟩ := h.header hdr hmatched
  have hcount := (h.complete hcomplete).2.2
  rw [messageReport, hsource, htag, hcount, hlength, ← hlength]
  cases flagged with
  | true => simp
  | false =>
    by_cases hlong : r.bytesExpected < r.bytesPacked
    · simp [hlong, h.truncated hcomplete hlong]
    · have herror : r.error = mpiErrProcFailedPending :=
        hstale.resolve_right fun hs => hlong hs.2
      simp [hlong, herror, mpiErrProcFailedPending, mpiSuccess]

/-- A receive from any source that has been reported as pending stays posted until a
message has matched it and all its data has arrived. The calls that report it then tell
of that message, and not of the failure, exactly when the message is longer than the
buffer and, for the calls that look at the flag first, a call made after the
acknowledgement has cleared the flag. -/
theorem pending_recv_reports {i c : Nat} {w₀ : RecvWorld} (hposted : Posted c (w₀.requests i))
    (hrevoked : (w₀.comms c).revoked = false) (events : List RecvEvent)
    (hpending : ∃ rep ∈ (w₀.run events).2, rep.index = i ∧ rep.error = mpiErrProcFailedPending) :
    let w := (w₀.run events).1
    let r := w.requests i
    (r.complete = false → r.state = .active) ∧
      (r.complete = true → ∃ hdr, r.matched = some hdr ∧ r.bytesReceived = hdr.length) ∧
      ∀ hdr, r.matched = some hdr → r.complete = true → r.state = .active →
        (∀ call : RequestCall, call.Alone i → ∃ rep ∈ (w.call call).2, rep.index = i) ∧
        ∀ call : RequestCall, (∃ rep ∈ (w.call call).2, rep.index = i) →
          ((∀ rep ∈ (w.call call).2, rep.index = i → rep = messageReport i r hdr) ↔
            r.bytesExpected < hdr.length ∧
              (call.readsFlag = true → r.anySourcePending = false)) := by
  intro w r
  have hpass : PassInv i c w₀ (w₀.run events) := WorldInv.run ⟨hposted.inv, hrevoked⟩ events
  have hinv : RecvInv c r := hpass.inv.recv
  have hstale : Stale r := by
    obtain ⟨rep, hrep, hi, he⟩ := hpending
    exact hpass.reported rep hrep hi he
  refine ⟨hinv.active, fun hcomplete => ?_, fun hdr hmatched hcomplete hactive =>
    ⟨fun call halone => exists_report_of_alone hcomplete hactive halone, fun call hcall => ?_⟩⟩
  · obtain ⟨hsome, hreceived, -⟩ := hinv.complete hcomplete
    obtain ⟨hdr, hmatched⟩ := Option.isSome_iff_exists.1 hsome
    exact ⟨hdr, hmatched, hreceived.trans (hinv.header hdr hmatched).2.2⟩
  · have hreports := (Reports.call hcomplete hactive hinv.query call).reports
    have hflag : (call.readsFlag && r.anySourcePending) = false ↔
        (call.readsFlag = true → r.anySourcePending = false) := by
      cases call.readsFlag with
      | true => simp
      | false => simp
    rw [← hflag, ← hinv.messageReport_iff hstale hcomplete hmatched i]
    constructor
    · intro hall
      obtain ⟨rep, hrep, hi⟩ := hcall
      rw [← hall rep hrep hi]
      exact (hreports rep hrep hi).symm
    · intro heq rep hrep hi
      rw [hreports rep hrep hi]
      exact heq

section Runs

/-- A receive of four bytes from any source on the communicator 0. -/
def postedRecv : RecvRequest where
  complete := false
  error := mpiSuccess
  state := .active
  persistent := false
  query := none
  anySourcePending := false
  peer := .anySource
  tag := 7
  isProbe := false
  comm := some 0
  cancels := true
  statusSource := .anySource
  statusTag := 7
  ucount := 0
  bytesExpected := 4
  bytesPacked := 0
  bytesReceived := 0
  matched := none

def postedWorld : RecvWorld where
  requests := fun _ => postedRecv
  comms := fun _ => ⟨false, false, true, true, 0, fun _ => true⟩
  ftEnabled := true

theorem posted_postedRecv : Posted 0 (postedWorld.requests 0) :=
  ⟨⟨rfl, rfl, rfl, rfl, rfl, rfl⟩, rfl, rfl, rfl, rfl⟩

/-- The process 1 fails, a test tells of it and the failure is acknowledged. Then a
message from the process 2 arrives. -/
def recoveryEvents (length : Nat) : List RecvEvent :=
  [.failure 0 1, .call (.test 0), .ack 0, .arrive 0 ⟨2, 7, length⟩, .data 0 length]

/-- A message of eight bytes: the next test tells of it. -/
theorem pending_recv_reports_long :
    Posted 0 (postedWorld.requests 0) ∧ (postedWorld.comms 0).revoked = false ∧
      (∃ rep ∈ (postedWorld.run (recoveryEvents 8)).2,
        rep.index = 0 ∧ rep.error = mpiErrProcFailedPending) ∧
      ∀ rep ∈ ((postedWorld.run (recoveryEvents 8)).1.call (.test 0)).2, rep.index = 0 →
        rep = ⟨0, true, mpiErrTruncate, .rank 2, 7, 8⟩ := by
  have hpending : ∃ rep ∈ (postedWorld.run (recoveryEvents 8)).2,
      rep.index = 0 ∧ rep.error = mpiErrProcFailedPending := by decide
  refine ⟨posted_postedRecv, rfl, hpending, ?_⟩
  obtain ⟨-, -, hcalls⟩ := pending_recv_reports posted_postedRecv rfl (recoveryEvents 8) hpending
  obtain ⟨halone, hcall⟩ := hcalls ⟨2, 7, 8⟩ rfl rfl rfl
  exact (hcall (.test 0) (halone (.test 0) rfl)).2 ⟨by decide, by decide⟩

/-- A message that fits: the next test reports the receive as pending once more. -/
theorem pending_again : Posted 0 (postedWorld.requests 0) ∧ (postedWorld.comms 0).revoked = false ∧
      (∃ rep ∈ (postedWorld.run (recoveryEvents 4)).2,
        rep.index = 0 ∧ rep.error = mpiErrProcFailedPending) ∧
      ((postedWorld.run (recoveryEvents 4)).1.requests 0).complete = true ∧
      ((postedWorld.run (recoveryEvents 4)).1.call (.test 0)).2 =
        [⟨0, true, mpiErrProcFailedPending, .rank 2, 7, 4⟩] ∧
      ((postedWorld.run (recoveryEvents 4)).1.call (.wait 0)).2 =
        [⟨0, false, mpiErrProcFailedPending, .rank 2, 7, 4⟩] := by
  refine ⟨posted_postedRecv, rfl, ?_, ?_, ?_, ?_⟩
  · decide
  · decide
  · decide
  · decide

end Runs

end Ulfm
