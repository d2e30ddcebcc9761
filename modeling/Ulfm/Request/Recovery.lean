import Mathlib.Data.List.Induction
import Ulfm.Request.AnySource

/-!
# What becomes of a receive that was reported as pending

The check of the state of a receive from any source writes
`MPI_ERR_PROC_FAILED_PENDING` into its status, and the receive path leaves the error
code alone when a message is received in full. So the next call reports the old code
again, unless the message is too long; and the functions that look at the flag
`req_any_source_pending` before the completion report the old state even then, as long
as no call has cleared the flag after the acknowledgement.
-/

namespace Ulfm

open List Function Request RecvRequest RecvWorld WaitState

/-- A posted receive from any source with a tag of the user, on the communicator `c`. -/
structure UserRecv (c : Nat) (r : RecvRequest) : Prop where
  peer : r.peer = .anySource
  notProbe : r.isProbe = false
  notFt : requestTagIsFt r.tag = false
  notCollective : requestTagIsCollective r.tag = false
  comm : r.comm = some c
  query : r.query = none

/-- The error code of a receive that has been reported as pending. -/
def Stale (r : RecvRequest) : Prop :=
  r.error = mpiErrProcFailedPending ∨ r.complete = true ∧ r.bytesExpected < r.bytesPacked

/-- What holds of a receive from any source in every run. -/
structure RecvInv (c : Nat) (r : RecvRequest) : Prop extends UserRecv c r where
  active : r.complete = false → r.state = .active
  header : ∀ hdr, r.matched = some hdr →
    r.statusSource = .rank hdr.src ∧ r.statusTag = hdr.tag ∧ r.bytesPacked = hdr.length
  complete : r.complete = true → r.matched.isSome ∧ r.bytesReceived = r.bytesPacked ∧
    r.ucount = r.bytesPacked
  truncated : r.complete = true → r.bytesExpected < r.bytesPacked → r.error = mpiErrTruncate
  pending : r.anySourcePending = true → Stale r

namespace RecvInv

variable {c : Nat} {r : RecvRequest} {comm : RequestComm}

theorem stateError_eq (h : UserRecv c r) (hrevoked : comm.revoked = false)
    (hcomplete : r.complete = false) :
    r.toRequest.stateError comm =
      if comm.anySourceEnabled then none else some (mpiErrProcFailedPending, true) := by
  cases henabled : comm.anySourceEnabled with
  | true =>
    simp [stateError, hcomplete, hrevoked, h.peer, henabled, RequestComm.isProcActive,
      h.notCollective]
  | false =>
    simp [stateError, hcomplete, hrevoked, h.peer, henabled, h.notFt, h.notProbe]

theorem checkState_eq (h : UserRecv c r) (hrevoked : comm.revoked = false)
    (hcomplete : r.complete = false) (ftEnabled : Bool) :
    r.checkState ftEnabled comm = if !ftEnabled then (r, true)
      else if comm.anySourceEnabled then ({ r with anySourcePending := false }, true)
      else ({ r with error := mpiErrProcFailedPending, anySourcePending := true }, false) := by
  have herror := stateError_eq h hrevoked hcomplete
  cases hft : ftEnabled with
  | false => simp [RecvRequest.checkState, Request.stateOk]
  | true =>
    cases henabled : comm.anySourceEnabled with
    | true =>
      rw [henabled] at herror
      simp [RecvRequest.checkState, Request.stateOk, herror]
    | false =>
      rw [henabled] at herror
      simp [RecvRequest.checkState, Request.stateOk, herror, mpiErrProcFailed,
        mpiErrProcFailedPending]

theorem Stale.error (hcomplete : r.complete = false) (h : Stale r) :
    r.error = mpiErrProcFailedPending :=
  h.resolve_right fun hc => by simp [hcomplete] at hc

/-- The check of the state keeps the invariant, and a receive that it does not find in
order has the code of a pending one. -/
theorem checkState (h : RecvInv c r) (hrevoked : comm.revoked = false)
    (hcomplete : r.complete = false) (ftEnabled : Bool) :
    RecvInv c (r.checkState ftEnabled comm).1 ∧ (Stale r → Stale (r.checkState ftEnabled comm).1) ∧
      ((r.checkState ftEnabled comm).2 = false → Stale (r.checkState ftEnabled comm).1 ∧
        (r.checkState ftEnabled comm).1.anySourcePending = true) ∧
      (r.checkState ftEnabled comm).1.complete = false := by
  rw [checkState_eq h.toUserRecv hrevoked hcomplete]
  have hstale := Stale.error hcomplete
  have hincomplete : ∀ {P : Prop}, r.complete = true → P := fun hc => by simp [hcomplete] at hc
  split_ifs
  · exact ⟨h, id, fun hc => (nomatch hc), hcomplete⟩
  · refine ⟨⟨⟨h.peer, h.notProbe, h.notFt, h.notCollective, h.comm, h.query⟩, h.active, h.header,
      hincomplete, hincomplete, fun hp => (nomatch hp)⟩, fun hs => .inl (hstale hs),
      fun hc => (nomatch hc), hcomplete⟩
  · exact ⟨⟨⟨h.peer, h.notProbe, h.notFt, h.notCollective, h.comm, h.query⟩, h.active, h.header,
      hincomplete, hincomplete, fun _ => .inl rfl⟩, fun _ => .inl rfl,
      fun _ => ⟨.inl rfl, rfl⟩, hcomplete⟩

theorem retire_eq (r : RecvRequest) : ∃ state, r.retire = { r with state := state } := by
  rw [RecvRequest.retire]
  split_ifs
  · exact ⟨_, rfl⟩
  · exact ⟨r.state, rfl⟩

theorem retire (h : RecvInv c r) (hcomplete : r.complete = true) :
    RecvInv c r.retire ∧ (Stale r → Stale r.retire) := by
  obtain ⟨state, hstate⟩ := retire_eq r
  rw [hstate]
  refine ⟨⟨⟨h.peer, h.notProbe, h.notFt, h.notCollective, h.comm, h.query⟩, fun hc => ?_, h.header,
    h.complete, h.truncated, h.pending⟩, id⟩
  rw [hcomplete] at hc
  cases hc

theorem recvReqMatched (h : RecvInv c r) (hcomplete : r.complete = false) (hdr : MatchHdr) :
    RecvInv c (r.recvReqMatched hdr) ∧ (Stale r → Stale (r.recvReqMatched hdr)) := by
  have hstale := Stale.error hcomplete
  refine ⟨⟨⟨h.peer, h.notProbe, h.notFt, h.notCollective, h.comm, h.query⟩, h.active,
    fun hdr' hm => ?_, fun hc => ?_, fun hc => ?_, fun hp => .inl (hstale (h.pending hp))⟩,
    fun hs => .inl (hstale hs)⟩
  · obtain rfl := Option.some.inj hm
    exact ⟨rfl, rfl, rfl⟩
  · rw [show (r.recvReqMatched hdr).complete = r.complete from rfl, hcomplete] at hc
    cases hc
  · rw [show (r.recvReqMatched hdr).complete = r.complete from rfl, hcomplete] at hc
    cases hc

theorem receiveData (h : RecvInv c r) (hcomplete : r.complete = false) (hmatched : r.matched.isSome)
    {n : Nat} (hn : r.bytesReceived + n ≤ r.bytesPacked) :
    RecvInv c (r.receiveData n) ∧ (Stale r → Stale (r.receiveData n)) := by
  have hstale := Stale.error hcomplete
  have hincomplete : ∀ {P : Prop}, r.complete = true → P := fun hc => by simp [hcomplete] at hc
  by_cases hall : r.bytesPacked ≤ r.bytesReceived + n
  · have hsum : r.bytesReceived + n = r.bytesPacked := Nat.le_antisymm hn hall
    by_cases hlong : r.bytesExpected < r.bytesPacked
    · have heq : r.receiveData n = { r with
          bytesReceived := r.bytesReceived + n
          ucount := r.bytesPacked
          error := mpiErrTruncate
          complete := true } := by
        simp [RecvRequest.receiveData, recvRequestPmlComplete, hmatched, hall, hlong]
      rw [heq]
      exact ⟨⟨⟨h.peer, h.notProbe, h.notFt, h.notCollective, h.comm, h.query⟩,
        fun hc => (nomatch hc), h.header, fun _ => ⟨hmatched, hsum, rfl⟩, fun _ _ => rfl,
        fun _ => .inr ⟨rfl, hlong⟩⟩, fun _ => .inr ⟨rfl, hlong⟩⟩
    · have heq : r.receiveData n = { r with
          bytesReceived := r.bytesReceived + n
          ucount := r.bytesReceived + n
          complete := true } := by
        simp [RecvRequest.receiveData, recvRequestPmlComplete, hmatched, hall, hlong]
      rw [heq]
      exact ⟨⟨⟨h.peer, h.notProbe, h.notFt, h.notCollective, h.comm, h.query⟩,
        fun hc => (nomatch hc), h.header, fun _ => ⟨hmatched, hsum, hsum⟩,
        fun _ hl => absurd hl hlong, fun hp => .inl (hstale (h.pending hp))⟩,
        fun hs => .inl (hstale hs)⟩
  · have heq : r.receiveData n = { r with bytesReceived := r.bytesReceived + n } := by
      simp [RecvRequest.receiveData, hall]
    rw [heq]
    exact ⟨⟨⟨h.peer, h.notProbe, h.notFt, h.notCollective, h.comm, h.query⟩, h.active, h.header,
      hincomplete, hincomplete, fun hp => .inl (hstale (h.pending hp))⟩,
      fun hs => .inl (hstale hs)⟩

end RecvInv

section Passes

variable {i j c : Nat} {w : RecvWorld}

/-- The receive `i` on the communicator `c`, which is not revoked. -/
structure WorldInv (i c : Nat) (w : RecvWorld) : Prop where
  recv : RecvInv c (w.requests i)
  revoked : (w.comms c).revoked = false

/-- A pass of a function keeps the invariant, and what it reports as pending is stale. -/
structure PassInv (i c : Nat) (w : RecvWorld) (result : RecvWorld × List Report) : Prop where
  inv : WorldInv i c result.1
  stale : Stale (w.requests i) → Stale (result.1.requests i)
  reported : ∀ rep ∈ result.2, rep.index = i → rep.error = mpiErrProcFailedPending →
    Stale (result.1.requests i)

theorem PassInv.refl (h : WorldInv i c w) : PassInv i c w (w, []) :=
  ⟨h, id, fun _ hrep => absurd hrep not_mem_nil⟩

theorem PassInv.trans {w' : RecvWorld} {reps : List Report} {result : RecvWorld × List Report}
    (h : PassInv i c w (w', reps)) (h' : PassInv i c w' result) :
    PassInv i c w (result.1, reps ++ result.2) := by
  refine ⟨h'.inv, fun hs => h'.stale (h.stale hs), fun rep hrep hi he => ?_⟩
  rcases mem_append.1 hrep with hrep | hrep
  · exact h'.stale (h.reported rep hrep hi he)
  · exact h'.reported rep hrep hi he

theorem RecvWorld.setRequest_self (w : RecvWorld) (i : Nat) (r : RecvRequest) :
    (w.setRequest i r).requests i = r :=
  update_self ..

theorem RecvWorld.setRequest_of_ne (w : RecvWorld) (hij : i ≠ j) (r : RecvRequest) :
    (w.setRequest j r).requests i = w.requests i :=
  update_of_ne hij ..

section

variable (h : WorldInv i c w)
include h

theorem WorldInv.setRequest_of_ne (hij : i ≠ j) (r : RecvRequest) :
    PassInv i c w (w.setRequest j r, []) := by
  have hsame := w.setRequest_of_ne hij r
  refine ⟨⟨?_, h.revoked⟩, ?_, fun _ hrep => absurd hrep not_mem_nil⟩
  · rw [hsame]
    exact h.recv
  · rw [hsame]
    exact id

theorem WorldInv.stateOk (hj : (w.requests j).complete = false) :
    PassInv i c w ((w.stateOk j).1, []) ∧ (i = j → (w.stateOk j).2 = false →
      Stale ((w.stateOk j).1.requests i) ∧
        ((w.stateOk j).1.requests i).anySourcePending = true) := by
  rcases eq_or_ne i j with rfl | hij
  · have hok : w.stateOk i = (w.setRequest i ((w.requests i).checkState w.ftEnabled (w.comms c)).1,
        ((w.requests i).checkState w.ftEnabled (w.comms c)).2) := by
      rw [RecvWorld.stateOk, h.recv.comm]
    obtain ⟨hinv, hstale, hbad, -⟩ := h.recv.checkState h.revoked hj w.ftEnabled
    have hself := w.setRequest_self i ((w.requests i).checkState w.ftEnabled (w.comms c)).1
    rw [hok]
    refine ⟨⟨⟨?_, h.revoked⟩, ?_, fun _ hrep => absurd hrep not_mem_nil⟩, fun _ => ?_⟩
    · rw [hself]
      exact hinv
    · rw [hself]
      exact hstale
    · rw [hself]
      exact hbad
  · refine ⟨?_, fun hc => absurd hc hij⟩
    rw [RecvWorld.stateOk]
    cases (w.requests j).comm with
    | none => exact PassInv.refl h
    | some d => exact h.setRequest_of_ne hij _

theorem WorldInv.report {completed : Bool} {error : ℤ}
    (hstale : i = j → error = mpiErrProcFailedPending → Stale (w.requests i)) :
    PassInv i c w (w, [w.report j completed error]) := by
  refine ⟨h, id, fun rep hrep hi he => ?_⟩
  rw [mem_singleton.1 hrep] at hi he
  exact hstale hi.symm he

theorem WorldInv.finishRequest (hj : i = j → (w.requests j).complete = true) :
    PassInv i c w (w.finishRequest j) := by
  have hreport : PassInv i c w (w, [w.report j true (w.requests j).error]) := by
    refine h.report fun hij he => ?_
    rw [hij]
    exact .inl he
  have hset : PassInv i c w (w.setRequest j (w.requests j).retire, []) := by
    rcases eq_or_ne i j with rfl | hij
    · obtain ⟨hinv, hstale⟩ := h.recv.retire (hj rfl)
      have hself := w.setRequest_self i (w.requests i).retire
      refine ⟨⟨?_, h.revoked⟩, ?_, fun _ hrep => absurd hrep not_mem_nil⟩
      · rw [hself]
        exact hinv
      · rw [hself]
        exact hstale
    · exact h.setRequest_of_ne hij _
  have hboth := hreport.trans hset
  rw [List.append_nil] at hboth
  exact hboth

theorem WorldInv.test (j : Nat) : PassInv i c w (w.test j) := by
  rw [RecvWorld.test]
  by_cases hinactive : (w.requests j).state = .inactive
  · rw [if_pos hinactive]
    exact PassInv.refl h
  · rw [if_neg hinactive]
    cases hcomplete : (w.requests j).complete with
    | true =>
      simp only [hcomplete, if_true, Bool.not_true, Bool.false_eq_true, false_and, if_false]
      exact h.finishRequest fun _ => hcomplete
    | false =>
      obtain ⟨hpass, hbad⟩ := h.stateOk hcomplete
      simp only [Bool.false_eq_true, if_false, Bool.not_eq_true']
      split_ifs with hpending hdone
      · exact hpass.trans (hpass.inv.report fun hij _ => (hbad hij hpending.1).1)
      · exact hpass.trans (hpass.inv.finishRequest fun _ => hdone)
      · exact hpass

theorem WorldInv.wait (j : Nat) : PassInv i c w (w.wait j) := by
  rw [RecvWorld.wait]
  cases hcomplete : (w.requests j).complete with
  | true =>
    simp only [if_true, Bool.false_eq_true, if_false]
    split_ifs with hpending hpersistent
    · refine h.report fun hij _ => h.recv.pending ?_
      rw [hij]
      exact hpending
    · exact h.report fun _ he => absurd he (by decide)
    · exact h.finishRequest fun _ => hcomplete
  | false =>
    obtain ⟨hpass, hbad⟩ := h.stateOk hcomplete
    simp only [Bool.false_eq_true, if_false]
    cases hok : (w.stateOk j).2 with
    | true => exact hpass
    | false =>
      simp only [Bool.false_eq_true, if_false]
      split_ifs with hpending hpersistent
      · exact hpass.trans (hpass.inv.report fun hij _ => (hbad hij hok).1)
      · exact hpass.trans (hpass.inv.report fun _ he => absurd he (by decide))
      · refine hpass.trans (hpass.inv.finishRequest fun hij => absurd ?_ hpending)
        rw [← hij]
        exact hij ▸ (hbad hij hok).2

theorem WorldInv.waitAny (js : List Nat) : PassInv i c w (w.waitAny js) := by
  induction js generalizing w with
  | nil => exact PassInv.refl h
  | cons j js ih =>
    rw [waitAny]
    by_cases hinactive : (w.requests j).state = .inactive
    · rw [if_pos hinactive]
      exact ih h
    rw [if_neg hinactive]
    cases hcomplete : (w.requests j).complete with
    | true =>
      simp only [if_true]
      exact h.finishRequest fun _ => hcomplete
    | false =>
      simp only [Bool.false_eq_true, if_false]
      by_cases hactive : (w.requests j).state = .active
      · obtain ⟨hpass, hbad⟩ := h.stateOk hcomplete
        rw [if_pos hactive]
        cases hok : (w.stateOk j).2 with
        | true => exact hpass.trans (ih hpass.inv)
        | false =>
          simp only [Bool.false_eq_true, if_false]
          split_ifs with hpending
          · exact hpass.trans (hpass.inv.report fun hij _ => (hbad hij hok).1)
          · refine hpass.trans (hpass.inv.finishRequest fun hij => absurd ?_ hpending)
            exact hij ▸ (hbad hij hok).2
      · rw [if_neg hactive]
        exact ih h

end

/-- The receive is complete, or it has been found pending in this pass. -/
def Collected (i c : Nat) (w : RecvWorld) : Prop :=
  (w.requests i).complete = true ∨ (w.requests i).anySourcePending = true ∧
    w.ftEnabled = true ∧ (w.comms c).anySourceEnabled = false

theorem WorldInv.collected_stateOk (h : WorldInv i c w) (hj : (w.requests j).complete = false) :
    (i = j → (w.stateOk j).2 = false → Collected i c (w.stateOk j).1) ∧
      (Collected i c w → Collected i c (w.stateOk j).1) := by
  rcases eq_or_ne i j with rfl | hij
  · have hok : w.stateOk i = (w.setRequest i ((w.requests i).checkState w.ftEnabled (w.comms c)).1,
        ((w.requests i).checkState w.ftEnabled (w.comms c)).2) := by
      rw [RecvWorld.stateOk, h.recv.comm]
    rw [hok, Collected, w.setRequest_self, RecvInv.checkState_eq h.recv.toUserRecv h.revoked hj]
    refine ⟨fun _ hbad => ?_, fun hcol => ?_⟩
    · split_ifs at hbad ⊢ with hft henabled
      have hft : w.ftEnabled = true := by simpa using hft
      have henabled : (w.comms c).anySourceEnabled = false := by simpa using henabled
      exact .inr ⟨rfl, hft, henabled⟩
    · rcases hcol with hc | ⟨hp, hft, henabled⟩
      · rw [hj] at hc
        cases hc
      · simp only [hft, henabled, Bool.not_true, Bool.false_eq_true, if_false]
        exact .inr ⟨trivial, hft, henabled⟩
  · refine ⟨fun hc => absurd hc hij, fun hcol => ?_⟩
    rw [RecvWorld.stateOk]
    cases (w.requests j).comm with
    | none => exact hcol
    | some d =>
      rw [Collected, w.setRequest_of_ne hij]
      exact hcol

theorem WorldInv.collect (h : WorldInv i c w) (js : List Nat) :
    PassInv i c w ((w.collect js).1, []) ∧
      (i ∈ (w.collect js).2 ∨ Collected i c w → Collected i c (w.collect js).1) := by
  induction js generalizing w with
  | nil => exact ⟨PassInv.refl h, fun hcol => hcol.resolve_left not_mem_nil⟩
  | cons j js ih =>
    rw [RecvWorld.collect]
    by_cases hinactive : (w.requests j).state = .inactive
    · rw [if_pos hinactive]
      exact ih h
    · rw [if_neg hinactive]
      cases hcomplete : (w.requests j).complete with
      | true =>
        obtain ⟨hpass, hcol⟩ := ih h
        simp only [hcomplete, if_true, Bool.not_true, Bool.false_eq_true, false_and, if_false]
        refine ⟨hpass, fun hor => hcol ?_⟩
        rcases hor with hmem | hw
        · rcases mem_append.1 hmem with hmem | hmem
          · have hij : i = j := by simpa using hmem
            exact .inr (.inl (by rw [hij]; exact hcomplete))
          · exact .inl hmem
        · exact .inr hw
      | false =>
        obtain ⟨hpass, hbad⟩ := h.stateOk hcomplete
        obtain ⟨hnew, hkeep⟩ := h.collected_stateOk hcomplete
        obtain ⟨hrest, hcol⟩ := ih hpass.inv
        simp only [Bool.false_eq_true, if_false]
        refine ⟨hpass.trans hrest, fun hor => hcol ?_⟩
        rcases hor with hmem | hw
        · rcases mem_append.1 hmem with hmem | hmem
          · right
            by_cases hdone : ((w.stateOk j).1.requests j).complete = true
            · have hij : i = j := by
                rw [if_pos hdone] at hmem
                split_ifs at hmem
                all_goals simpa using hmem
              exact .inl (by rw [hij]; exact hdone)
            · rw [if_neg hdone] at hmem
              split_ifs at hmem with hpending
              · have hij : i = j := by simpa using hmem
                exact hnew hij (by simpa using hpending.1)
              · exact absurd hmem not_mem_nil
          · exact .inl hmem
        · exact .inr (hkeep hw)

theorem WorldInv.reportSome (h : WorldInv i c w) (js : List Nat)
    (hcol : i ∈ js → Collected i c w) : PassInv i c w (w.reportSome js) := by
  induction js generalizing w with
  | nil => exact PassInv.refl h
  | cons j js ih =>
    rw [reportSome]
    split_ifs with hpending
    · refine PassInv.trans (h.report fun hij _ => h.recv.pending ?_)
        (ih h fun hmem => hcol (mem_cons_of_mem j hmem))
      rw [hij]
      exact hpending
    · have hfinish : i = j → (w.requests j).complete = true := by
        rintro rfl
        rcases hcol mem_cons_self with hc | ⟨hp, -⟩
        · exact hc
        · exact absurd hp hpending
      have hpass := h.finishRequest hfinish
      refine PassInv.trans hpass (ih hpass.inv fun hmem => ?_)
      have hold := hcol (mem_cons_of_mem j hmem)
      change Collected i c (w.setRequest j (w.requests j).retire)
      rw [Collected]
      rcases eq_or_ne i j with rfl | hij
      · rw [w.setRequest_self]
        obtain ⟨state, hstate⟩ := RecvInv.retire_eq (w.requests i)
        rw [hstate]
        exact hold
      · rw [w.setRequest_of_ne hij]
        exact hold

theorem WorldInv.doSome (h : WorldInv i c w) (js : List Nat) : PassInv i c w (w.doSome js) := by
  obtain ⟨hpass, hcol⟩ := h.collect js
  exact hpass.trans (hpass.inv.reportSome _ fun hmem => hcol (.inl hmem))

section WaitAll

/-- The requests when the call leaves its loop or sleeps: they are the ones at the
beginning, or the fault-tolerance loop has gone over them. -/
structure SettledInv (s : WaitState) (settled : WaitState.Settled) : Prop where
  requests : ∀ s' failed, settled = .finished s' failed →
    (s'.requests = s.requests ∨ s'.requests = s.requests.map fun r => (s.check r).1) ∧
      (0 < failed ∨ ∀ r ∈ s'.requests, r.complete = true)
  asleep : ∀ s' start pending startFailed, settled = .sleeping s' start pending startFailed →
    s'.requests = s.requests.map fun r => (s.check r).1

theorem settledInv_finished {s : WaitState} {failed : Nat}
    (h : 0 < failed ∨ ∀ r ∈ s.requests, r.complete = true) :
    SettledInv s (.finished s failed) := by
  refine ⟨fun s' failed' heq => ?_, fun s' _ _ _ heq => (nomatch heq)⟩
  obtain ⟨rfl, rfl⟩ := WaitState.Settled.finished.inj heq
  exact ⟨.inl rfl, h⟩

theorem settledInv_innerBody (s : WaitState) (start pending startFailed failed : Nat) :
    SettledInv s (s.innerBody start pending startFailed failed) := by
  rw [innerBody]
  split_ifs with hfailed
  · exact settledInv_finished (.inl (by omega))
  · by_cases hscan : 0 < failed + s.scan.2
    · simp only [hscan, if_true]
      refine ⟨fun s' failed' heq => ?_, fun s' _ _ _ heq => (nomatch heq)⟩
      obtain ⟨rfl, rfl⟩ := WaitState.Settled.finished.inj heq
      exact ⟨.inr rfl, .inl hscan⟩
    · simp only [hscan, if_false]
      refine ⟨fun s' failed' heq => (nomatch heq), fun s' _ _ _ heq => ?_⟩
      obtain ⟨rfl, -⟩ := WaitState.Settled.sleeping.inj heq
      rfl

theorem settledInv_outerLoop (s : WaitState) (failed : Nat) :
    SettledInv s (s.outerLoop s.numCompleted failed) := by
  rw [outerLoop]
  split_ifs with hall
  · refine settledInv_finished (.inr ?_)
    simpa [numCompleted, countP_eq_length] using hall
  · exact settledInv_innerBody ..

theorem settledInv_start (s : WaitState) :
    SettledInv s (if 0 < s.numFailed then .finished s s.numFailed
      else s.outerLoop s.numCompleted 0) := by
  split_ifs with hfailed
  · exact settledInv_finished (.inl hfailed)
  · exact settledInv_outerLoop ..

theorem settledInv_settle (s : WaitState) (start pending startFailed : Nat) :
    SettledInv s (s.settle start pending startFailed) := by
  rw [settle]
  split_ifs
  · exact settledInv_innerBody ..
  · exact settledInv_outerLoop ..

theorem RecvWorld.writeBack_requests (w : RecvWorld) (js : List Nat) (g : Nat → Request) (k : Nat) :
    (w.writeBack js (js.map g)).requests k =
      if k ∈ js then { w.requests k with toRequest := g k } else w.requests k := by
  induction js generalizing w with
  | nil => rfl
  | cons j js ih =>
    rw [map_cons, writeBack, ih]
    rcases eq_or_ne k j with rfl | hkj
    · rw [w.setRequest_self, if_pos mem_cons_self]
      split_ifs
      · rfl
      · rfl
    · have hmem : k ∈ j :: js ↔ k ∈ js := by simp [hkj]
      rw [w.setRequest_of_ne hkj]
      simp only [hmem]

theorem WorldInv.check (h : WorldInv i c w) {s : WaitState} (hft : s.ftEnabled = w.ftEnabled)
    (hcomms : s.comms = w.comms) :
    RecvInv c { w.requests i with toRequest := (s.check (w.requests i).toRequest).1 } ∧
      (Stale (w.requests i) →
        Stale { w.requests i with toRequest := (s.check (w.requests i).toRequest).1 }) := by
  rw [WaitState.check, h.recv.comm, hft, hcomms]
  cases hcomplete : (w.requests i).complete with
  | true =>
    simp only [Bool.not_true, Bool.false_eq_true, false_and, if_false]
    exact ⟨h.recv, id⟩
  | false =>
    obtain ⟨hinv, hstale, -⟩ := h.recv.checkState h.revoked hcomplete w.ftEnabled
    have heq : { w.requests i with
        toRequest := ((w.requests i).toRequest.stateOk w.ftEnabled (w.comms c)).1 } =
        ((w.requests i).checkState w.ftEnabled (w.comms c)).1 := by
      have hnot : ((w.requests i).stateError (w.comms c)).map (·.1) ≠ some mpiErrProcFailed := by
        rw [RecvInv.stateError_eq h.recv.toUserRecv h.revoked hcomplete]
        split_ifs
        · simp
        · simp [mpiErrProcFailed, mpiErrProcFailedPending]
      simp only [RecvRequest.checkState, hnot, false_and, and_false, if_false]
    simp only [Bool.not_false, h.recv.active hcomplete, and_self, if_true]
    rw [heq]
    exact ⟨hinv, hstale⟩

theorem WorldInv.retireAll (h : WorldInv i c w) (failed : Nat) (js : List Nat)
    (hdone : i ∈ js → 0 < failed ∨ (w.requests i).complete = true) :
    PassInv i c w (js.foldl (fun w j => if skipped failed (w.requests j).toRequest then w
      else w.setRequest j (w.requests j).retire) w, []) := by
  induction js generalizing w with
  | nil => exact PassInv.refl h
  | cons j js ih =>
    rw [foldl_cons]
    split_ifs with hskip
    · exact ih h fun hmem => hdone (mem_cons_of_mem j hmem)
    · have hcomplete : i = j → (w.requests j).complete = true := by
        rintro rfl
        rcases hdone mem_cons_self with hpos | hc
        · simpa [skipped, hpos] using hskip
        · exact hc
      obtain ⟨hinv, hstale, -⟩ := h.finishRequest hcomplete
      have hpass : PassInv i c w (w.setRequest j (w.requests j).retire, []) :=
        ⟨hinv, hstale, fun _ hrep => absurd hrep not_mem_nil⟩
      refine hpass.trans (ih hinv fun hmem => ?_)
      refine (hdone (mem_cons_of_mem j hmem)).imp_right fun hc => ?_
      rcases eq_or_ne i j with rfl | hij
      · obtain ⟨state, hstate⟩ := RecvInv.retire_eq (w.requests i)
        rw [w.setRequest_self, hstate]
        exact hc
      · rw [w.setRequest_of_ne hij]
        exact hc

theorem WorldInv.writeBack (h : WorldInv i c w) {s s' : WaitState} {js : List Nat}
    (hrequests : s.requests = js.map fun j => (w.requests j).toRequest)
    (hft : s.ftEnabled = w.ftEnabled) (hcomms : s.comms = w.comms)
    (hs' : s'.requests = s.requests ∨ s'.requests = s.requests.map fun r => (s.check r).1) :
    PassInv i c w (w.writeBack js s'.requests, []) ∧
      (i ∈ js → ((w.writeBack js s'.requests).requests i).toRequest ∈ s'.requests) := by
  have hmap : ∃ g : Nat → Request, s'.requests = js.map g ∧
      (g i = (w.requests i).toRequest ∨ g i = (s.check (w.requests i).toRequest).1) := by
    rcases hs' with hs' | hs'
    · exact ⟨_, hs'.trans hrequests, .inl rfl⟩
    · refine ⟨fun j => (s.check (w.requests j).toRequest).1, ?_, .inr rfl⟩
      rw [hs', hrequests, map_map]
      rfl
  have hcomms' : ∀ (js : List Nat) (rs : List Request) (w : RecvWorld),
      (w.writeBack js rs).comms = w.comms := by
    intro js
    induction js with
    | nil => intro rs w; rfl
    | cons j js ih =>
      intro rs w
      cases rs with
      | nil => rfl
      | cons r rs => exact ih rs _
  obtain ⟨g, hg, hgi⟩ := hmap
  have hi : RecvInv c ((w.writeBack js s'.requests).requests i) ∧
      (Stale (w.requests i) → Stale ((w.writeBack js s'.requests).requests i)) := by
    rw [hg, writeBack_requests]
    split_ifs
    · rcases hgi with hgi | hgi
      · rw [hgi]
        exact ⟨h.recv, id⟩
      · rw [hgi]
        exact h.check hft hcomms
    · exact ⟨h.recv, id⟩
  refine ⟨⟨⟨hi.1, ?_⟩, hi.2, fun _ hrep => absurd hrep not_mem_nil⟩, fun hmem => ?_⟩
  · rw [hcomms']
    exact h.revoked
  · rw [hg, writeBack_requests, if_pos hmem]
    exact mem_map_of_mem hmem

theorem WorldInv.afterSettled (h : WorldInv i c w) {s : WaitState} {js : List Nat}
    (hrequests : s.requests = js.map fun j => (w.requests j).toRequest)
    (hft : s.ftEnabled = w.ftEnabled) (hcomms : s.comms = w.comms) {settled : WaitState.Settled}
    (hsettled : SettledInv s settled) : PassInv i c w (w.afterSettled js settled) := by
  cases settled with
  | sleeping s' start pending startFailed =>
    exact (h.writeBack hrequests hft hcomms (.inr (hsettled.asleep _ _ _ _ rfl))).1
  | finished s' failed =>
    obtain ⟨hs', hdone⟩ := hsettled.requests s' failed rfl
    obtain ⟨hpass, hmem'⟩ := h.writeBack hrequests hft hcomms hs'
    rw [RecvWorld.afterSettled]
    set w' := w.writeBack js s'.requests
    have hretire : PassInv i c w' _ := hpass.inv.retireAll failed js fun hmem => ?_
    · refine ⟨hretire.inv, fun hs => hretire.stale (hpass.stale hs), fun rep hrep hi he => ?_⟩
      obtain ⟨j, -, rfl⟩ := mem_map.1 hrep
      obtain rfl : j = i := hi
      refine hretire.stale (.inl ?_)
      have hquery : (w'.requests j).toRequest.reported = (w'.requests j).error := by
        rw [Request.reported, hpass.inv.recv.query]
        rfl
      have he : finishStatus failed (w'.requests j).toRequest = mpiErrProcFailedPending := he
      rw [finishStatus, hquery] at he
      split_ifs at he with hskip hpending
      · exact hpending
      · exact absurd he (by decide)
      · exact he
    · exact hdone.imp_right fun hall => hall _ (hmem' hmem)

end WaitAll

theorem WorldInv.call (h : WorldInv i c w) (call : RequestCall) : PassInv i c w (w.call call) := by
  cases call with
  | test j => exact h.test j
  | wait j => exact h.wait j
  | waitAny js => exact h.waitAny js
  | waitAll js completed failed =>
    have hsettled := settledInv_start (w.waitState js completed failed)
    exact h.afterSettled rfl rfl rfl hsettled
  | waitAllWake js completed failed start pending startFailed =>
    have hsettled := settledInv_settle (w.waitState js completed failed) start pending startFailed
    exact h.afterSettled rfl rfl rfl hsettled
  | testSome js | waitSome js => exact h.doSome js

theorem WorldInv.step (h : WorldInv i c w) (e : RecvEvent) : PassInv i c w (w.step e) := by
  have hcomms : ∀ (d : Nat) (comm : RequestComm), comm.revoked = (w.comms d).revoked →
      PassInv i c w ({ w with comms := Function.update w.comms d comm }, []) := by
    intro d comm hrevoked
    refine ⟨⟨h.recv, ?_⟩, id, fun _ hrep => absurd hrep not_mem_nil⟩
    change (Function.update w.comms d comm c).revoked = false
    rcases eq_or_ne c d with rfl | hne
    · rw [update_self, hrevoked]
      exact h.revoked
    · rw [Function.update_of_ne hne]
      exact h.revoked
  have hset : ∀ (r : RecvRequest), RecvInv c r → (Stale (w.requests i) → Stale r) →
      PassInv i c w (w.setRequest i r, []) := by
    intro r hinv hstale
    have hself := w.setRequest_self i r
    refine ⟨⟨?_, h.revoked⟩, ?_, fun _ hrep => absurd hrep not_mem_nil⟩
    · rw [hself]
      exact hinv
    · rw [hself]
      exact hstale
  cases e with
  | failure d rank | ack d => exact hcomms d _ rfl
  | arrive j hdr =>
    rw [RecvWorld.step]
    split_ifs with hpost
    · rcases eq_or_ne i j with rfl | hij
      · obtain ⟨hinv, hstale⟩ := h.recv.recvReqMatched hpost.2.1 hdr
        exact hset _ hinv hstale
      · exact h.setRequest_of_ne hij _
    · exact PassInv.refl h
  | data j n =>
    rw [RecvWorld.step]
    split_ifs with hpost
    · rcases eq_or_ne i j with rfl | hij
      · obtain ⟨hinv, hstale⟩ := h.recv.receiveData hpost.1 hpost.2.1 hpost.2.2
        exact hset _ hinv hstale
      · exact h.setRequest_of_ne hij _
    · exact PassInv.refl h
  | call call => exact h.call call

theorem WorldInv.run (h : WorldInv i c w) (events : List RecvEvent) :
    PassInv i c w (w.run events) := by
  induction events using List.reverseRecOn with
  | nil => exact PassInv.refl h
  | append_singleton events e ih =>
    have hrun : w.run (events ++ [e]) = (((w.run events).1.step e).1,
        (w.run events).2 ++ ((w.run events).1.step e).2) := by
      rw [RecvWorld.run, foldl_append]
      rfl
    rw [hrun]
    exact ih.trans (ih.inv.step e)

end Passes

end Ulfm
