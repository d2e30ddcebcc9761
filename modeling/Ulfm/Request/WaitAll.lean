import Ulfm.Request.Definitions

/-!
# The error contract of `wait_all`

`WaitContract` says what a caller relies on: success only if every request is
complete without an error, and a report only if one of the given requests has
failed. The code meets it as long as nothing but the given requests ends the wait
(`Undisturbed`): no request elsewhere in the process fails meanwhile, no inactive
request carries an error of its last use, no generalized request is broken whose
query function says that it is not and, without a status array, no any-source
receive is left pending. The invariant of the loop is that, whenever the call
sleeps, none of the given requests is complete with an error and the global counter
of failures is the one it started from.
-/

namespace Ulfm

open List Function Request

namespace Request

/-- A generalized request is one of `MPI_COMM_WORLD` without a peer and a tag. -/
def Wf (r : Request) : Prop :=
  r.query.isSome = true → r.comm = some mpiCommWorld ∧ r.peer = .procNull ∧ r.tag = mpiAnyTag

/-- A receive from any source that a failure leaves pending. -/
def WaitsAny (r : Request) : Prop :=
  r.state = .active ∧ r.peer = .anySource ∧ r.isProbe = false ∧ requestTagIsFt r.tag = false

/-- The fields that a wait does not change. -/
def SameKind (r r₀ : Request) : Prop :=
  r.state = r₀.state ∧ r.query = r₀.query ∧ r.peer = r₀.peer ∧ r.tag = r₀.tag ∧
    r.isProbe = r₀.isProbe ∧ r.comm = r₀.comm

theorem Wf.of_sameKind {r r₀ : Request} (h : r₀.Wf) (hkind : r.SameKind r₀) : r.Wf := by
  obtain ⟨-, hquery, hpeer, htag, -, hcomm⟩ := hkind
  rw [Wf, hquery, hcomm, hpeer, htag]
  exact h

/-- The request is complete with an error. -/
def Erroneous (r : Request) : Prop :=
  r.complete = true ∧ r.state ≠ .inactive ∧ r.reported ≠ mpiSuccess

end Request

/-- The communicator does not leave receives from any source pending. -/
def RequestComm.AllowsAny (comm : RequestComm) : Prop :=
  comm.anySourceEnabled = true ∨ comm.revoked = true

namespace WaitState

/-- A request has failed: it is complete with an error, or it is a receive from any
source that the check reports as pending. -/
def Failed (w : WaitState) (r : Request) : Prop :=
  r.Erroneous ∨ (r.complete = false ∧ r.state = .active ∧ ∃ c pending, r.comm = some c ∧
    r.stateError (w.comms c) = some (mpiErrProcFailedPending, pending))

end WaitState

/-- What the call promises about the requests it leaves the loop with. -/
structure WaitContract (w : WaitState) (res : WaitResult) : Prop where
  success : res.code = mpiSuccess → ∀ r ∈ w.requests,
    r.complete = true ∧ (r.state = .inactive ∨ r.reported = mpiSuccess)
  report : (res.code ≠ mpiSuccess ∨ ∃ e ∈ res.statuses, e ≠ mpiSuccess) →
    ∃ r ∈ w.requests, w.Failed r

/-- Nothing but the given requests can end the wait. -/
structure Undisturbed (statuses : Bool) (w : WaitState) (events : List WaitEvent) : Prop where
  inactive : ∀ r ∈ w.requests, r.state = .inactive → r.error = mpiSuccess ∧ r.reported = mpiSuccess
  foreign : ∀ e, .foreign e ∈ events → e = mpiSuccess
  anySource : statuses = false → ∀ r ∈ w.requests, r.WaitsAny → ∀ c, r.comm = some c →
    (w.comms c).AllowsAny ∧ ∀ s, .comm c s ∈ events → s.AllowsAny
  generalized : ∀ r ∈ w.requests, r.query = some mpiSuccess → r.error = mpiSuccess ∧
    (w.comms mpiCommWorld).revoked = false ∧ ∀ s, .comm mpiCommWorld s ∈ events → s.revoked = false

/-! ## The result loops -/

section Finish

variable {failed : Nat} {requests : List Request}

theorem finishStatus_of_skipped {r : Request} (h : skipped failed r = true) :
    finishStatus failed r ≠ mpiSuccess := by
  rw [finishStatus, if_pos h]
  split <;> decide

theorem foldl_finishCode_eq_success {code : ℤ} :
    requests.foldl (finishCode failed) code = mpiSuccess ↔
      code = mpiSuccess ∧ ∀ r ∈ requests, finishStatus failed r = mpiSuccess := by
  induction requests generalizing code with
  | nil => simp
  | cons r l ih =>
    rw [foldl_cons, ih, finishCode, forall_mem_cons]
    by_cases h : finishStatus failed r = mpiSuccess
    · simp [h]
    · have hcode : mpiErrInStatus ≠ mpiSuccess := by decide
      simp [h, hcode]

theorem foldl_ignoreCode_eq_success {code : ℤ} :
    requests.foldl (ignoreCode failed) code = mpiSuccess ↔ code = mpiSuccess ∧
        ∀ r ∈ requests, skipped failed r = true ∨ ignoreStatus r = mpiSuccess := by
  induction requests generalizing code with
  | nil => simp
  | cons r l ih =>
    rw [foldl_cons, ih, ignoreCode, forall_mem_cons]
    have hproc : mpiErrProcFailed ≠ mpiSuccess := by decide
    have hrev : mpiErrRevoked ≠ mpiSuccess := by decide
    have hstat : mpiErrInStatus ≠ mpiSuccess := by decide
    by_cases hs : skipped failed r = true
    · simp [hs]
    · simp only [hs, Bool.false_eq_true, if_false, false_or]
      by_cases h : ignoreStatus r = mpiSuccess
      · have h54 : ¬ (mpiSuccess = mpiErrProcFailed ∨ mpiSuccess = mpiErrRevoked) := by decide
        simp [h, h54]
      · by_cases hft : ignoreStatus r = mpiErrProcFailed ∨ ignoreStatus r = mpiErrRevoked
        · simp [hft, h]
        · by_cases hc : code = mpiSuccess
          · simp [hft, h, hc, hstat]
          · simp [hft, h, hc]

end Finish

namespace WaitState

/-- How the loop is left: with all requests complete and none failed, or because of
a request of the array that the result loop reports. -/
def Concluded (statuses : Bool) (w : WaitState) (failed : Nat) : Prop :=
  (failed = 0 ∧ ∀ r ∈ w.requests, r.complete = true) ∨
    (0 < failed ∧ if statuses then ∃ r ∈ w.requests, w.Failed r
      else ∃ r ∈ w.requests, r.Erroneous)

/-- The inactive requests of a state carry no error. -/
def InactiveClean (w : WaitState) : Prop :=
  ∀ r ∈ w.requests, r.state = .inactive → r.error = mpiSuccess ∧ r.reported = mpiSuccess

theorem Concluded.contract {statuses : Bool} {w : WaitState} {failed : Nat}
    (h : Concluded statuses w failed) (hclean : w.InactiveClean) :
    WaitContract w (finish statuses failed w.requests) := by
  cases statuses with
  | true =>
    have hskip : ∀ r ∈ w.requests, finishStatus failed r = mpiSuccess →
        skipped failed r = false ∧ r.reported = mpiSuccess := by
      intro r _ hr
      by_cases hs : skipped failed r = true
      · exact absurd hr (finishStatus_of_skipped hs)
      · rw [finishStatus, if_neg hs] at hr
        exact ⟨by simpa using hs, hr⟩
    have hreport : ∀ r ∈ w.requests, finishStatus failed r ≠ mpiSuccess →
        ∃ r ∈ w.requests, w.Failed r := by
      intro r hr hne
      rcases h with ⟨hzero, hall⟩ | ⟨-, hfailed⟩
      · have hs : ¬ skipped failed r = true := by simp [skipped, hzero]
        rw [finishStatus, if_neg hs] at hne
        exact ⟨r, hr, .inl ⟨hall r hr, fun hi => hne (hclean r hr hi).2, hne⟩⟩
      · exact hfailed
    refine ⟨?_, ?_⟩
    · intro hcode r hr
      obtain ⟨hs, hrep⟩ := hskip r hr ((foldl_finishCode_eq_success.mp hcode).2 r hr)
      refine ⟨?_, .inr hrep⟩
      rcases h with ⟨-, hall⟩ | ⟨hpos, -⟩
      · exact hall r hr
      · simpa [skipped, hpos] using hs
    · rintro (hcode | ⟨e, he, hne⟩)
      · by_contra hnone
        refine hcode (foldl_finishCode_eq_success.mpr ⟨rfl, ?_⟩)
        intro r hr
        by_contra hbad
        exact hnone (hreport r hr hbad)
      · obtain ⟨r, hr, rfl⟩ := mem_map.mp he
        exact hreport r hr hne
  | false =>
    refine ⟨?_, ?_⟩
    · intro hcode r hr
      have hgood := (foldl_ignoreCode_eq_success.mp hcode).2
      have hstatus : ∀ r ∈ w.requests, r.complete = true →
          r.state = .inactive ∨ r.reported = mpiSuccess := by
        intro r hr hc
        rcases hgood r hr with hs | hrc
        · simp [skipped, hc] at hs
        · rw [ignoreStatus] at hrc
          by_cases hi : r.state = .inactive
          · exact .inl hi
          · rw [if_neg hi] at hrc
            exact .inr hrc
      rcases h with ⟨-, hall⟩ | ⟨-, q, hq, hqc, hqi, hqe⟩
      · exact ⟨hall r hr, hstatus r hr (hall r hr)⟩
      · exact absurd (hstatus q hq hqc) (not_or.mpr ⟨hqi, hqe⟩)
    · rintro (hcode | ⟨e, he, -⟩)
      · by_contra hnone
        refine hcode (foldl_ignoreCode_eq_success.mpr ⟨rfl, ?_⟩)
        intro r hr
        by_contra hbad
        push Not at hbad
        obtain ⟨hs, hrc⟩ := hbad
        have hi : ¬ r.state = .inactive := by
          intro hi
          rw [ignoreStatus, if_pos hi] at hrc
          exact hrc rfl
        rw [ignoreStatus, if_neg hi] at hrc
        have hc : r.complete = true := by
          rcases h with ⟨-, hall⟩ | ⟨hpos, -⟩
          · exact hall r hr
          · simpa [skipped, hpos] using hs
        exact hnone ⟨r, hr, .inl ⟨hc, hi, hrc⟩⟩
      · cases he

/-! ## The invariant of the wait -/

/-- What holds of the requests and the communicators whenever the call runs. -/
structure Sane (statuses : Bool) (w₀ : WaitState) (w : WaitState) : Prop where
  wf : ∀ r ∈ w.requests, r.Wf
  clean : w.InactiveClean
  kind : ∀ r ∈ w.requests, ∃ r₀ ∈ w₀.requests, r.SameKind r₀
  anySource : statuses = false → ∀ r ∈ w.requests, r.WaitsAny → ∀ c, r.comm = some c →
    (w.comms c).AllowsAny
  quiet : ∀ r ∈ w.requests, r.query = some mpiSuccess → r.error = mpiSuccess
  world : ∀ r₀ ∈ w₀.requests, r₀.query = some mpiSuccess → (w.comms mpiCommWorld).revoked = false

theorem Sane.waitsAny {statuses : Bool} {w₀ w : WaitState} (h : Sane statuses w₀ w) {r : Request}
    (hr : r ∈ w.requests) (hw : r.WaitsAny) :
    ∃ r₀ ∈ w₀.requests, r₀.WaitsAny ∧ r₀.comm = r.comm := by
  obtain ⟨r₀, hr₀, hstate, -, hpeer, htag, hprobe, hcomm⟩ := h.kind r hr
  obtain ⟨h1, h2, h3, h4⟩ := hw
  exact ⟨r₀, hr₀, ⟨hstate ▸ h1, hpeer ▸ h2, hprobe ▸ h3, htag ▸ h4⟩, hcomm.symm⟩

theorem Sane.not_revoked {statuses : Bool} {w₀ w : WaitState} (h : Sane statuses w₀ w) {r : Request}
    (hr : r ∈ w.requests) (hq : r.query = some mpiSuccess) :
    (w.comms mpiCommWorld).revoked = false := by
  obtain ⟨r₀, hr₀, -, hquery, -⟩ := h.kind r hr
  exact h.world r₀ hr₀ (hquery.symm.trans hq)

theorem Sane.exists_erroneous {statuses : Bool} {w₀ w : WaitState} (h : Sane statuses w₀ w)
    (hpos : 0 < w.numFailed) : ∃ r ∈ w.requests, r.Erroneous := by
  obtain ⟨r, hr, hfail⟩ := countP_pos_iff.mp hpos
  simp only [Bool.and_eq_true, decide_eq_true_eq] at hfail
  obtain ⟨hc, he⟩ := hfail
  refine ⟨r, hr, hc, fun hi => he (h.clean r hr hi).1, ?_⟩
  rw [reported]
  cases hq : r.query with
  | none => exact he
  | some q =>
    intro hzero
    rw [Option.getD_some] at hzero
    exact he (h.quiet r hr (hq.trans (congrArg some hzero)))

theorem concluded_of_erroneous {statuses : Bool} {w : WaitState} {failed : Nat}
    (hpos : 0 < failed) (h : ∃ r ∈ w.requests, r.Erroneous) : Concluded statuses w failed := by
  refine .inr ⟨hpos, ?_⟩
  cases statuses with
  | false => exact h
  | true =>
    obtain ⟨r, hr, he⟩ := h
    exact ⟨r, hr, .inl he⟩

theorem all_complete {w : WaitState} (h : w.numCompleted = w.requests.length) :
    ∀ r ∈ w.requests, r.complete = true :=
  countP_eq_length.mp h

section Replace

variable {statuses : Bool} {w₀ w : WaitState} {i : Nat} {r : Request}

theorem Sane.set {r' : Request} (h : Sane statuses w₀ w) (hi : w.requests[i]? = some r)
    (hkind : r'.SameKind r) (hquiet : r'.query = some mpiSuccess → r'.error = mpiSuccess)
    (hclean : r'.state = .inactive → r'.error = mpiSuccess ∧ r'.reported = mpiSuccess) :
    Sane statuses w₀ { w with requests := w.requests.set i r' } := by
  have hr : r ∈ w.requests := mem_of_getElem? hi
  have hmem : ∀ q ∈ w.requests.set i r', q = r' ∨ q ∈ w.requests := fun q hq =>
    (mem_or_eq_of_mem_set hq).symm
  refine ⟨?_, ?_, ?_, ?_, ?_, h.world⟩
  · intro q hq
    rcases hmem q hq with rfl | hold
    · exact (h.wf r hr).of_sameKind hkind
    · exact h.wf q hold
  · intro q hq
    rcases hmem q hq with rfl | hold
    · exact hclean
    · exact h.clean q hold
  · intro q hq
    rcases hmem q hq with rfl | hold
    · obtain ⟨r₀, hr₀, h1, h2, h3, h4, h5, h6⟩ := h.kind r hr
      obtain ⟨k1, k2, k3, k4, k5, k6⟩ := hkind
      exact ⟨r₀, hr₀, k1.trans h1, k2.trans h2, k3.trans h3, k4.trans h4, k5.trans h5, k6.trans h6⟩
    · exact h.kind q hold
  · intro hs q hq hany c hc
    rcases hmem q hq with rfl | hold
    · obtain ⟨k1, -, k3, k4, k5, k6⟩ := hkind
      obtain ⟨a1, a2, a3, a4⟩ := hany
      exact h.anySource hs r hr ⟨k1 ▸ a1, k3 ▸ a2, k5 ▸ a3, k4 ▸ a4⟩ c (k6 ▸ hc)
    · exact h.anySource hs q hold hany c hc
  · intro q hq
    rcases hmem q hq with rfl | hold
    · exact hquiet
    · exact h.quiet q hold

theorem numFailed_set (r' : Request) (hi : w.requests[i]? = some r) :
    ({ w with requests := w.requests.set i r' } : WaitState).numFailed +
        (if r.complete && decide (r.error ≠ mpiSuccess) then 1 else 0) =
      w.numFailed + (if r'.complete && decide (r'.error ≠ mpiSuccess) then 1 else 0) := by
  have hlt : i < w.requests.length := by
    by_contra hge
    rw [getElem?_eq_none (Nat.not_lt.mp hge)] at hi
    cases hi
  have hget : w.requests[i] = r := by
    rw [getElem?_eq_getElem hlt] at hi
    exact Option.some.inj hi
  have hsplit := countP_set (p := fun q : Request => q.complete && decide (q.error ≠ mpiSuccess))
    (a := r') hlt
  simp only [numFailed]
  rw [hsplit, hget]
  by_cases hold : (r.complete && decide (r.error ≠ mpiSuccess)) = true
  · have hpos : 0 < w.requests.countP fun q => q.complete && decide (q.error ≠ mpiSuccess) :=
      countP_pos_iff.mpr ⟨r, hget ▸ getElem_mem hlt, hold⟩
    simp only [hold, if_true]
    omega
  · rw [Bool.not_eq_true] at hold
    simp only [hold, Bool.false_eq_true, if_false]
    omega

end Replace

/-- One event keeps the invariant, and the global counter of failures moves with
the number of failed requests of the array. -/
theorem Sane.apply {statuses : Bool} {w₀ w : WaitState} {events : List WaitEvent} {e : WaitEvent}
    (h : Sane statuses w₀ w) (hu : Undisturbed statuses w₀ events) (he : e ∈ events) :
    Sane statuses w₀ (w.apply e) ∧
      (w.apply e).failed + w.numFailed = w.failed + (w.apply e).numFailed := by
  cases e with
  | complete i err =>
    rw [WaitState.apply]
    cases hi : w.requests[i]? with
    | none => exact ⟨h, rfl⟩
    | some r =>
      simp only
      by_cases hskip : r.complete = true ∨ r.state ≠ .active
      · rw [if_pos hskip]
        exact ⟨h, rfl⟩
      · rw [if_neg hskip]
        push Not at hskip
        obtain ⟨hincomplete, hactive⟩ := hskip
        have hset : Sane statuses w₀
            { w with requests := w.requests.set i (r.completeWith err) } := by
          refine h.set hi ⟨rfl, rfl, rfl, rfl, rfl, rfl⟩ ?_ ?_
          · intro hq
            change r.query = some mpiSuccess at hq
            have hsome : r.query.isSome = true := by
              rw [hq]
              rfl
            rw [completeWith, if_pos hsome]
            exact h.quiet r (mem_of_getElem? hi) hq
          · intro hin
            change r.state = .inactive at hin
            rw [hactive] at hin
            cases hin
        have hcount := numFailed_set (r.completeWith err) hi
        have hold : (r.complete && decide (r.error ≠ mpiSuccess)) = false := by
          simp [hincomplete]
        refine ⟨⟨hset.wf, hset.clean, hset.kind, hset.anySource, hset.quiet, hset.world⟩, ?_⟩
        rw [hold] at hcount
        simp only [Bool.false_eq_true, if_false, Nat.add_zero] at hcount
        change (if (r.completeWith err).error = mpiSuccess then w.failed else w.failed + 1) +
          w.numFailed = w.failed + ({ w with
            requests := w.requests.set i (r.completeWith err) } : WaitState).numFailed
        rw [hcount]
        have hc : (r.completeWith err).complete = true := rfl
        by_cases hz : (r.completeWith err).error = mpiSuccess
        · simp [hz]
        · simp only [hz, hc, if_false, ne_eq, not_false_eq_true, decide_true, Bool.and_self,
            if_true]
          omega
  | foreign err =>
    have hzero : err = mpiSuccess := hu.foreign err he
    refine ⟨⟨h.wf, h.clean, h.kind, h.anySource, h.quiet, h.world⟩, ?_⟩
    subst hzero
    rfl
  | comm c s =>
    refine ⟨⟨h.wf, h.clean, h.kind, ?_, h.quiet, ?_⟩, rfl⟩
    · intro hs r hr hany d hd
      change (Function.update w.comms c s d).AllowsAny
      by_cases hdc : d = c
      · subst hdc
        rw [update_self]
        obtain ⟨r₀, hr₀, hany₀, hcomm₀⟩ := h.waitsAny hr hany
        exact (hu.anySource hs r₀ hr₀ hany₀ d (hcomm₀.trans hd)).2 s he
      · rw [Function.update_of_ne hdc]
        exact h.anySource hs r hr hany d hd
    · intro r₀ hr₀ hq
      change (Function.update w.comms c s mpiCommWorld).revoked = false
      by_cases hc : mpiCommWorld = c
      · subst hc
        rw [update_self]
        exact (hu.generalized r₀ hr₀ hq).2.2 s he
      · rw [Function.update_of_ne hc]
        exact h.world r₀ hr₀ hq
  | cancels i flag =>
    rw [WaitState.apply]
    cases hi : w.requests[i]? with
    | none => exact ⟨h, rfl⟩
    | some r =>
      have hr := mem_of_getElem? hi
      have hcount := numFailed_set { r with cancels := flag } hi
      refine ⟨h.set hi ⟨rfl, rfl, rfl, rfl, rfl, rfl⟩ (h.quiet r hr) (h.clean r hr), ?_⟩
      simp only at hcount ⊢
      omega

theorem Sane.applyAll {statuses : Bool} {w₀ w : WaitState} {events batch : List WaitEvent}
    (h : Sane statuses w₀ w) (hu : Undisturbed statuses w₀ events) (hsub : batch ⊆ events) :
    Sane statuses w₀ (w.applyAll batch) ∧
      (w.applyAll batch).failed + w.numFailed = w.failed + (w.applyAll batch).numFailed := by
  induction batch generalizing w with
  | nil => exact ⟨h, rfl⟩
  | cons e batch ih =>
    obtain ⟨hsane, hcount⟩ := h.apply hu (hsub mem_cons_self)
    obtain ⟨hsane', hcount'⟩ := ih hsane fun x hx => hsub (mem_cons_of_mem _ hx)
    refine ⟨hsane', ?_⟩
    change ((w.apply e).applyAll batch).failed + _ =
      w.failed + ((w.apply e).applyAll batch).numFailed
    omega

/-! ## The fault-tolerance loop -/

section Check

variable {w : WaitState} {r : Request}

theorem check_cases (w : WaitState) (r : Request) : w.check r = (r, true) ∨
      (r.complete = false ∧ r.state = .active ∧ ∃ c, r.comm = some c ∧
        (w.check r = ({ r with anySourcePending := false }, true) ∨
          ∃ e pending, r.stateError (w.comms c) = some (e, pending) ∧
            ((e = mpiErrProcFailedPending ∧
                w.check r = ({ r with error := e, anySourcePending := pending }, false)) ∨
              w.check r =
                ({ r with error := e, anySourcePending := pending, complete := true }, false) ∨
              w.check r = ({ r with error := e, anySourcePending := pending }, true)))) := by
  by_cases hn : r.comm = none
  · exact .inl (by simp only [check, hn])
  obtain ⟨c, hc⟩ := Option.ne_none_iff_exists'.mp hn
  have hcheck : w.check r = if !r.complete ∧ r.state = .active then
      r.stateOk w.ftEnabled (w.comms c) else (r, true) := by
    simp only [check, hc]
  by_cases hrun : (!r.complete) = true ∧ r.state = .active
  · rw [hcheck, if_pos hrun, Request.stateOk]
    by_cases hft : (!w.ftEnabled) = true
    · exact .inl (if_pos hft)
    · refine .inr ⟨by simpa using hrun.1, hrun.2, c, hc, ?_⟩
      rw [if_neg hft]
      cases he : r.stateError (w.comms c) with
      | none => exact .inl rfl
      | some ep =>
        obtain ⟨e, pending⟩ := ep
        refine .inr ⟨e, pending, rfl, ?_⟩
        by_cases hp : e = mpiErrProcFailedPending
        · exact .inl ⟨hp, if_pos hp⟩
        · by_cases hcan : r.cancels = true
          · exact .inr (.inl ((if_neg hp).trans (if_pos hcan)))
          · exact .inr (.inr ((if_neg hp).trans (if_neg hcan)))
  · exact .inl (hcheck.trans (if_neg hrun))

theorem check_of_complete (hc : r.complete = true) : w.check r = (r, true) := by
  rcases check_cases w r with h | ⟨hinc, -⟩
  · exact h
  · rw [hc] at hinc
    cases hinc

theorem check_sameKind : (w.check r).1.SameKind r := by
  rcases check_cases w r with h | ⟨-, -, c, -, h | ⟨e, pending, -, ⟨-, h⟩ | h | h⟩⟩ <;> rw [h] <;>
    exact ⟨rfl, rfl, rfl, rfl, rfl, rfl⟩

theorem check_eq_self (h : r.state ≠ .active) : (w.check r).1 = r := by
  rcases check_cases w r with h' | ⟨-, hs, -⟩
  · rw [h']
  · exact absurd hs h

theorem stateError_of_procNull {comm : RequestComm} (hpeer : r.peer = .procNull)
    (hrevoked : comm.revoked = false) : r.stateError comm = none := by
  simp [stateError, hpeer, hrevoked]

theorem stateError_ne_success {comm : RequestComm} {e : ℤ} {pending : Bool}
    (h : r.stateError comm = some (e, pending)) : e ≠ mpiSuccess := by
  rw [stateError] at h
  split_ifs at h <;> (cases h; decide)

theorem waitsAny_of_stateError {comm : RequestComm} {pending : Bool} (hs : r.state = .active)
    (h : r.stateError comm = some (mpiErrProcFailedPending, pending)) :
    r.WaitsAny ∧ ¬ comm.AllowsAny := by
  have hrev : mpiErrRevoked ≠ mpiErrProcFailedPending := by decide
  have hproc : mpiErrProcFailed ≠ mpiErrProcFailedPending := by decide
  rw [stateError] at h
  by_cases h1 : r.complete = true
  · simp [h1] at h
  rw [if_neg h1] at h
  by_cases h2 : (comm.revoked && !requestTagIsFt r.tag) = true
  · simp [h2, hrev] at h
  rw [if_neg h2] at h
  by_cases h3 : r.peer = .procNull ∨ (comm.isIntra ∧ r.peer = .rank comm.myRank)
  · simp [h3] at h
  rw [if_neg h3] at h
  by_cases h4 : r.peer = .anySource ∧ !comm.anySourceEnabled ∧ !requestTagIsFt r.tag
  · rw [if_pos h4] at h
    obtain ⟨hpeer, hany, htag⟩ := h4
    have hprobe : r.isProbe = false := by
      cases hp : r.isProbe with
      | false => rfl
      | true => simp [hp, hproc] at h
    refine ⟨⟨hs, hpeer, hprobe, by simpa using htag⟩, ?_⟩
    rintro (hyes | hyes)
    · simp [hyes] at hany
    · simp [hyes, htag] at h2
  · rw [if_neg h4] at h
    split_ifs at h <;> simp [hproc] at h

theorem check_broken (hwf : r.Wf)
    (hquiet : r.query = some mpiSuccess → (w.comms mpiCommWorld).revoked = false)
    (h : (w.check r).2 = false) :
    (w.check r).1.Erroneous ∨ ((w.check r).1.complete = false ∧ r.state = .active ∧
      ∃ c pending, r.comm = some c ∧
        r.stateError (w.comms c) = some (mpiErrProcFailedPending, pending)) := by
  rcases check_cases w r with h' | ⟨hinc, hs, c, hc, h' | ⟨e, pending, he, ⟨hp, h'⟩ | h' | h'⟩⟩
  · rw [h'] at h
    cases h
  · rw [h'] at h
    cases h
  · rw [h']
    exact .inr ⟨hinc, hs, c, pending, hc, hp ▸ he⟩
  · rw [h']
    refine .inl ⟨rfl, ?_, ?_⟩
    · simp [hs]
    · change r.query.getD e ≠ mpiSuccess
      cases hq : r.query with
      | none => exact stateError_ne_success he
      | some q =>
        rintro rfl
        obtain ⟨hcomm, hpeer, -⟩ := hwf (by rw [hq]; rfl)
        obtain rfl := Option.some.inj (hc.symm.trans hcomm)
        rw [stateError_of_procNull hpeer (hquiet hq)] at he
        exact nomatch he
  · rw [h'] at h
    cases h

theorem check_error (hwf : r.Wf) (hquery : r.query = some mpiSuccess)
    (hrevoked : (w.comms mpiCommWorld).revoked = false) : (w.check r).1.error = r.error := by
  obtain ⟨hcomm, hpeer, -⟩ := hwf (by rw [hquery]; rfl)
  rcases check_cases w r with h' | ⟨-, -, c, hc, h' | ⟨e, pending, he, -⟩⟩
  · rw [h']
  · rw [h']
  · obtain rfl := Option.some.inj (hc.symm.trans hcomm)
    rw [stateError_of_procNull hpeer hrevoked] at he
    exact nomatch he

theorem check_ok (h : (w.check r).2 = true) : (w.check r).1.complete = r.complete := by
  rcases check_cases w r with h' | ⟨hinc, hs, c, hc, h' | ⟨e, pending, he, ⟨hp, h'⟩ | h' | h'⟩⟩
  all_goals rw [h'] at h ⊢
  all_goals cases h

end Check

section Scan

variable {statuses : Bool} {w₀ w : WaitState}

theorem Sane.scan (h : Sane statuses w₀ w) : Sane statuses w₀ w.scan.1 := by
  refine ⟨?_, ?_, ?_, ?_, ?_, h.world⟩
  · intro q hq
    obtain ⟨r, hr, rfl⟩ := mem_map.mp hq
    exact (h.wf r hr).of_sameKind check_sameKind
  · intro q hq
    obtain ⟨r, hr, rfl⟩ := mem_map.mp hq
    intro hi
    have hir : r.state = .inactive := check_sameKind.1 ▸ hi
    rw [check_eq_self (by simp [hir])]
    exact h.clean r hr hir
  · intro q hq
    obtain ⟨r, hr, rfl⟩ := mem_map.mp hq
    obtain ⟨r₀, hr₀, h1, h2, h3, h4, h5, h6⟩ := h.kind r hr
    obtain ⟨k1, k2, k3, k4, k5, k6⟩ := check_sameKind (w := w) (r := r)
    exact ⟨r₀, hr₀, k1.trans h1, k2.trans h2, k3.trans h3, k4.trans h4, k5.trans h5, k6.trans h6⟩
  · intro hs q hq hany c hc
    obtain ⟨r, hr, rfl⟩ := mem_map.mp hq
    obtain ⟨k1, -, k3, k4, k5, k6⟩ := check_sameKind (w := w) (r := r)
    obtain ⟨a1, a2, a3, a4⟩ := hany
    exact h.anySource hs r hr ⟨k1 ▸ a1, k3 ▸ a2, k5 ▸ a3, k4 ▸ a4⟩ c (k6 ▸ hc)
  · intro q hq hquery
    obtain ⟨r, hr, rfl⟩ := mem_map.mp hq
    have hquery : r.query = some mpiSuccess := check_sameKind.2.1 ▸ hquery
    rw [check_error (h.wf r hr) hquery (h.not_revoked hr hquery)]
    exact h.quiet r hr hquery

theorem scan_erroneous (h : ∃ r ∈ w.requests, r.Erroneous) :
    ∃ r ∈ w.scan.1.requests, r.Erroneous := by
  obtain ⟨r, hr, he⟩ := h
  refine ⟨r, mem_map.mpr ⟨r, hr, ?_⟩, he⟩
  rw [check_of_complete he.1]

theorem Sane.concluded_scan (h : Sane statuses w₀ w) {failed : Nat} (hfailed : 0 < failed)
    (hpos : 0 < w.scan.2) : Concluded statuses w.scan.1 failed := by
  obtain ⟨r, hr, hbroken⟩ := countP_pos_iff.mp hpos
  have hmem : (w.check r).1 ∈ w.scan.1.requests := mem_map.mpr ⟨r, hr, rfl⟩
  rcases check_broken (h.wf r hr) (h.not_revoked hr) (by simpa using hbroken) with
    he | ⟨hinc, hs, c, pending, hc, he⟩
  · exact concluded_of_erroneous hfailed ⟨_, hmem, he⟩
  · refine .inr ⟨hfailed, ?_⟩
    cases hst : statuses with
    | false =>
      obtain ⟨hany, hnot⟩ := waitsAny_of_stateError hs he
      exact absurd (h.anySource hst r hr hany c hc) hnot
    | true =>
      obtain ⟨k1, -, k3, k4, k5, k6⟩ := check_sameKind (w := w) (r := r)
      refine ⟨_, hmem, .inr ⟨hinc, k1.trans hs, c, pending, k6.trans hc, ?_⟩⟩
      have hrinc : r.complete = false := by
        by_contra hcomp
        rw [check_of_complete (by simpa using hcomp)] at hinc
        exact hcomp hinc
      have hsame : (w.check r).1.complete = r.complete := hinc.trans hrinc.symm
      rw [stateError] at he ⊢
      rw [k3, k4, k5, hsame]
      exact he

theorem scan_of_zero (h : w.scan.2 = 0) :
    w.scan.1.numFailed = w.numFailed ∧ w.scan.1.failed = w.failed := by
  have hok : ∀ r ∈ w.requests, (w.check r).2 = true := by
    intro r hr
    have := countP_eq_zero.mp h r hr
    simpa using this
  have hcount : (w.requests.countP fun r => !r.complete && (w.check r).1.complete) = 0 := by
    refine countP_eq_zero.mpr fun r hr => ?_
    rw [check_ok (hok r hr)]
    simp
  refine ⟨?_, ?_⟩
  · change (w.requests.map fun r => (w.check r).1).countP _ = w.requests.countP _
    rw [countP_map]
    refine countP_congr fun r hr => ?_
    rw [comp_apply, check_ok (hok r hr)]
    by_cases hc : r.complete = true
    · rw [check_of_complete hc]
    · simp [hc]
  · change w.failed + _ = w.failed
    rw [hcount, Nat.add_zero]

end Scan

/-! ## The loop -/

/-- The call has left the loop for a good reason, or it sleeps with no failed
request and the counter of failures it started from. -/
def Settled.Sound (statuses : Bool) (w₀ : WaitState) : Settled → Prop
  | .finished w failed => Concluded statuses w failed ∧ w.InactiveClean
  | .sleeping w _ _ startFailed =>
    Sane statuses w₀ w ∧ w.numFailed = 0 ∧ w.failed = startFailed

section Loop

variable {statuses : Bool} {w₀ w : WaitState}

theorem Sane.innerBody (h : Sane statuses w₀ w) {start pending startFailed failed : Nat}
    (hcounter : 0 < w.failed - startFailed → 0 < w.numFailed) (hle : startFailed ≤ w.failed)
    (hfailed : 0 < failed → 0 < w.numFailed)
    (hnone : failed = 0 → w.failed = startFailed → w.numFailed = 0) :
    (w.innerBody start pending startFailed failed).Sound statuses w₀ := by
  rw [WaitState.innerBody]
  by_cases h1 : 0 < w.failed - startFailed
  · rw [if_pos h1]
    refine ⟨concluded_of_erroneous ?_ (h.exists_erroneous (hcounter h1)), h.clean⟩
    exact Nat.lt_of_lt_of_le h1 (Nat.le_add_left _ _)
  rw [if_neg h1]
  by_cases h2 : 0 < failed + w.scan.2
  · simp only [h2, if_true]
    refine ⟨?_, h.scan.clean⟩
    by_cases hb : 0 < w.scan.2
    · exact h.concluded_scan h2 hb
    · have hpos : 0 < failed := by omega
      exact concluded_of_erroneous h2 (scan_erroneous (h.exists_erroneous (hfailed hpos)))
  · simp only [h2, if_false]
    obtain ⟨hcount, hglobal⟩ := scan_of_zero (w := w) (by omega)
    refine ⟨h.scan, ?_, ?_⟩
    · rw [hcount]
      exact hnone (by omega) (by omega)
    · rw [hglobal]
      omega

theorem Sane.outerLoop (h : Sane statuses w₀ w) :
    (w.outerLoop w.numCompleted w.numFailed).Sound statuses w₀ := by
  rw [WaitState.outerLoop]
  by_cases hall : w.numCompleted = w.requests.length
  · rw [if_pos hall]
    refine ⟨?_, h.clean⟩
    by_cases hpos : 0 < w.numFailed
    · exact concluded_of_erroneous hpos (h.exists_erroneous hpos)
    · exact .inl ⟨by omega, all_complete hall⟩
  · rw [if_neg hall]
    refine h.innerBody ?_ (Nat.le_refl _) id fun hz _ => hz
    intro hpos
    rw [Nat.sub_self] at hpos
    exact absurd hpos (Nat.lt_irrefl 0)

theorem Settled.Sound.settle {start pending startFailed : Nat} {events batch : List WaitEvent}
    (h : (Settled.sleeping w start pending startFailed).Sound statuses w₀)
    (hu : Undisturbed statuses w₀ events) (hsub : batch ⊆ events) :
    ((w.applyAll batch).settle start pending startFailed).Sound statuses w₀ := by
  obtain ⟨hsane, hzero, hstart⟩ := h
  obtain ⟨hsane', hcount⟩ := hsane.applyAll hu hsub
  rw [WaitState.settle]
  by_cases hwait : (w.applyAll batch).completed - start < pending
  · rw [if_pos hwait]
    refine hsane'.innerBody ?_ ?_ ?_ ?_ <;> omega
  · rw [if_neg hwait]
    exact hsane'.outerLoop

theorem waitLoop_concluded {s : Settled} {env : List (List WaitEvent)} {events : List WaitEvent}
    (h : s.Sound statuses w₀) (hu : Undisturbed statuses w₀ events)
    (hsub : env.flatten ⊆ events) {w' : WaitState} {failed : Nat}
    (hrun : waitLoop s env = some (w', failed)) :
    Concluded statuses w' failed ∧ w'.InactiveClean := by
  induction env generalizing s with
  | nil =>
    cases s with
    | finished w f =>
      cases hrun
      exact h
    | sleeping w start pending startFailed => cases hrun
  | cons batch env ih =>
    cases s with
    | finished w f =>
      cases hrun
      exact h
    | sleeping w start pending startFailed =>
      rw [flatten_cons] at hsub
      refine ih (h.settle hu ?_) ?_ hrun
      · exact fun e he => hsub (mem_append_left _ he)
      · exact fun e he => hsub (mem_append_right _ he)

theorem Sane.start (hwf : ∀ r ∈ w.requests, r.Wf) {events : List WaitEvent}
    (hu : Undisturbed statuses w events) : Sane statuses w w :=
  ⟨hwf, hu.inactive, fun r hr => ⟨r, hr, rfl, rfl, rfl, rfl, rfl, rfl⟩,
    fun hs r hr hany c hc => (hu.anySource hs r hr hany c hc).1,
    fun r hr hq => (hu.generalized r hr hq).1, fun r hr hq => (hu.generalized r hr hq).2.1⟩

theorem waitCompletion_concluded {first : List WaitEvent} {env : List (List WaitEvent)}
    (hwf : ∀ r ∈ w.requests, r.Wf) (hu : Undisturbed statuses w (first ++ env.flatten))
    {w' : WaitState} {failed : Nat} (hrun : w.waitCompletion first env = some (w', failed)) :
    Concluded statuses w' failed ∧ w'.InactiveClean := by
  have hsane := Sane.start hwf hu
  obtain ⟨hsane', -⟩ := hsane.applyAll hu (subset_append_left first env.flatten)
  rw [WaitState.waitCompletion] at hrun
  by_cases h1 : 0 < w.numFailed
  · rw [if_pos h1] at hrun
    cases hrun
    exact ⟨concluded_of_erroneous h1 (hsane.exists_erroneous h1), hsane.clean⟩
  rw [if_neg h1] at hrun
  by_cases h2 : w.numCompleted = w.requests.length
  · rw [if_pos h2] at hrun
    cases hrun
    exact ⟨.inl ⟨rfl, all_complete h2⟩, hsane.clean⟩
  rw [if_neg h2] at hrun
  by_cases h3 : 0 < (w.applyAll first).numFailed
  · simp only [h3, if_true] at hrun
    cases hrun
    exact ⟨concluded_of_erroneous h3 (hsane'.exists_erroneous h3), hsane'.clean⟩
  · simp only [h3, if_false] at hrun
    have hzero : (w.applyAll first).numFailed = 0 := by omega
    have hloop := hsane'.outerLoop
    rw [hzero] at hloop
    exact waitLoop_concluded hloop hu (subset_append_right first env.flatten) hrun

end Loop

end WaitState

/-- For every array of requests, with or without a status array, and every order of
events during the wait, the call keeps its contract if nothing but the given
requests ends the wait. -/
theorem requestDefaultWaitAll_contract (statuses : Bool) (w : WaitState) (first : List WaitEvent)
    (env : List (List WaitEvent)) (hwf : ∀ r ∈ w.requests, r.Wf)
    (hu : Undisturbed statuses w (first ++ env.flatten)) (w' : WaitState) (res : WaitResult)
    (hrun : requestDefaultWaitAll statuses w first env = some (w', res)) :
    WaitContract w' res := by
  rw [requestDefaultWaitAll] at hrun
  obtain ⟨⟨v, failed⟩, hcompletion, heq⟩ := Option.map_eq_some_iff.mp hrun
  cases heq
  obtain ⟨hconcluded, hclean⟩ := WaitState.waitCompletion_concluded hwf hu hcompletion
  exact hconcluded.contract hclean

/-! ## Two receives -/

/-- A communicator with no failed process. -/
def healthyComm : RequestComm where
  revoked := false
  collRevoked := false
  anySourceEnabled := true
  isIntra := true
  myRank := 0
  active := fun _ => true

/-- A receive from rank 1 that has been started. -/
def startedReceive : Request where
  complete := false
  error := mpiSuccess
  state := .active
  persistent := false
  query := none
  anySourcePending := false
  peer := .rank 1
  tag := 7
  isProbe := false
  comm := some 0
  cancels := true

def twoReceives : WaitState where
  requests := [startedReceive, startedReceive]
  comms := fun _ => healthyComm
  ftEnabled := true
  completed := 0
  failed := 0

theorem twoReceives_wf : ∀ r ∈ twoReceives.requests, r.Wf := by
  intro r hr hq
  have hreceive : r = startedReceive := by simpa [twoReceives] using hr
  rw [hreceive] at hq
  cases hq

/-- The receives complete while another request of the process succeeds. -/
theorem requestDefaultWaitAll_contract_twoReceives :
    ∃ w' res, requestDefaultWaitAll true twoReceives [] [[.foreign mpiSuccess],
        [.complete 1 mpiSuccess, .complete 0 mpiSuccess]] = some (w', res) ∧
          WaitContract w' res := by
  refine ⟨_, _, rfl, ?_⟩
  refine requestDefaultWaitAll_contract true twoReceives [] [[.foreign mpiSuccess],
    [.complete 1 mpiSuccess, .complete 0 mpiSuccess]] twoReceives_wf ⟨?_, ?_, ?_, ?_⟩ _ _ rfl
  · intro r hr hi
    have hreceive : r = startedReceive := by simpa [twoReceives] using hr
    rw [hreceive] at hi
    cases hi
  · intro e he
    simpa using he
  · intro h
    cases h
  · intro r hr hq
    have hreceive : r = startedReceive := by simpa [twoReceives] using hr
    rw [hreceive] at hq
    cases hq

/-- A request that is not in the array fails during the wait. Without a status
array the call then returns `MPI_SUCCESS` while both of its requests are pending. -/
theorem foreign_failure_ends_wait : ¬ ∀ (statuses : Bool) (w : WaitState) (first : List WaitEvent)
    (env : List (List WaitEvent)), (∀ r ∈ w.requests, r.Wf) → ∀ w' res,
      requestDefaultWaitAll statuses w first env = some (w', res) → WaitContract w' res := by
  intro h
  have hcontract := h false twoReceives [] [[.foreign mpiErrProcFailed]] twoReceives_wf _ _ rfl
  have hdone := (hcontract.success rfl startedReceive mem_cons_self).1
  cases hdone

end Ulfm
