import Ulfm.Request.Calls
import Ulfm.Request.WaitAll

/-!
# Errors of consumed requests

A call that consumes a completed request with an error does not return `MPI_SUCCESS`,
but for two functions that forget the error of a persistent request:
`ompi_request_default_test_any` returns success for it, and the loops at the end of
`ompi_request_default_test_all` go on to the next request.
-/

namespace Ulfm

open List CallResult ArrayCall

section Codes

theorem foldl_code_eq_success {f : ℤ → Request → ℤ} {Fine : Request → Prop}
    (hf : ∀ code r, f code r = mpiSuccess ↔ code = mpiSuccess ∧ Fine r) {code : ℤ}
    {requests : List Request} :
    requests.foldl f code = mpiSuccess ↔ code = mpiSuccess ∧ ∀ r ∈ requests, Fine r := by
  induction requests generalizing code with
  | nil => simp
  | cons r rest ih => rw [foldl_cons, ih, hf, forall_mem_cons, and_assoc]

theorem errInStatus_ne_success : mpiErrInStatus ≠ mpiSuccess := by decide

namespace WaitState

theorem testAllCode_eq_success (code : ℤ) (r : Request) : testAllCode code r = mpiSuccess ↔
      code = mpiSuccess ∧
        (r.state = .inactive ∨ r.persistent = true ∨ r.reported = mpiSuccess) := by
  rw [testAllCode]
  split_ifs with hinactive hpersistent hreported
  · simp [hinactive]
  · simp [hpersistent]
  · simp [hreported]
  · simp [hinactive, hpersistent, hreported, errInStatus_ne_success]

theorem testSomeCode_eq_success (statuses : Bool) (code : ℤ) (r : Request) :
    testSomeCode statuses code r = mpiSuccess ↔
      code = mpiSuccess ∧ (r.anySourcePending = false ∧ (seen statuses r).error = mpiSuccess) := by
  rw [testSomeCode]
  split_ifs with hpending herror
  · simp [hpending, errInStatus_ne_success]
  · simp [hpending, herror]
  · simp [herror, errInStatus_ne_success]

theorem waitSomeCode_eq_success (statuses : Bool) (code : ℤ) (r : Request) :
    waitSomeCode statuses code r = mpiSuccess ↔
      code = mpiSuccess ∧ (r.anySourcePending = false ∧ r.reported = mpiSuccess) := by
  rw [waitSomeCode]
  split_ifs with hpending herror hreported
  · have hne : r.error ≠ mpiSuccess := by
      rcases herror.2 with h | h
      · rw [h]
        decide
      · rw [h]
        decide
    simp [hpending, hne]
  · simp [hpending, errInStatus_ne_success]
  · simp [hpending, hreported]
  · simp [hreported, errInStatus_ne_success]

end WaitState

end Codes

namespace WaitState

section Checks

variable {w : WaitState}

theorem checkPending_kind (w : WaitState) (r : Request) :
    (w.checkPending r).1.state = r.state ∧ (w.checkPending r).1.persistent = r.persistent := by
  have hstate : ∀ comm, (r.stateOk w.ftEnabled comm).1.state = r.state ∧
      (r.stateOk w.ftEnabled comm).1.persistent = r.persistent := by
    intro comm
    rw [Request.stateOk]
    by_cases hft : (!w.ftEnabled) = true
    · rw [if_pos hft]
      exact ⟨rfl, rfl⟩
    · rw [if_neg hft]
      cases r.stateError comm with
      | none => exact ⟨rfl, rfl⟩
      | some found =>
        simp only
        split_ifs
        · exact ⟨rfl, rfl⟩
        · exact ⟨rfl, rfl⟩
        · exact ⟨rfl, rfl⟩
  rw [checkPending]
  split_ifs
  · exact ⟨rfl, rfl⟩
  · rw [WaitState.stateOk]
    cases r.comm with
    | none => exact ⟨rfl, rfl⟩
    | some c => exact hstate (w.comms c)

def PassesBy (w : WaitState) (r : Request) : Prop :=
  r.state = .inactive ∨
    reportsPending (w.checkPending r) = false ∧ (w.checkPending r).1.complete = false

/-- `test_any` takes a request of the array as complete. -/
def TakesComplete (w : WaitState) (requests : List Request) (taken : Request) : Prop :=
  ∃ l₁ r l₂, requests = l₁ ++ r :: l₂ ∧ (∀ s ∈ l₁, w.PassesBy s) ∧ r.state ≠ .inactive ∧
    reportsPending (w.checkPending r) = false ∧ (w.checkPending r).1.complete = true ∧
    taken = (w.checkPending r).1

theorem takesComplete_cons_of_passesBy {s taken : Request} {rest : List Request}
    (hs : w.PassesBy s) : w.TakesComplete (s :: rest) taken ↔ w.TakesComplete rest taken := by
  constructor
  · rintro ⟨l₁, r, l₂, hsplit, hpassed, hstate, hpending, hcomplete, htaken⟩
    cases l₁ with
    | nil =>
      obtain ⟨rfl, rfl⟩ := List.cons.inj hsplit
      rcases hs with hinactive | ⟨-, hincomplete⟩
      · exact absurd hinactive hstate
      · rw [hcomplete] at hincomplete
        cases hincomplete
    | cons a l₁ =>
      obtain ⟨rfl, rfl⟩ := List.cons.inj hsplit
      exact ⟨l₁, r, l₂, rfl, fun b hb => hpassed b (mem_cons_of_mem _ hb), hstate,
        hpending, hcomplete, htaken⟩
  · rintro ⟨l₁, r, l₂, rfl, hpassed, hrest⟩
    exact ⟨s :: l₁, r, l₂, rfl, forall_mem_cons.mpr ⟨hs, hpassed⟩, hrest⟩

theorem takesComplete_cons_of_not {s taken : Request} {rest : List Request}
    (hs : ¬ w.PassesBy s) : w.TakesComplete (s :: rest) taken ↔
      reportsPending (w.checkPending s) = false ∧ (w.checkPending s).1.complete = true ∧
        taken = (w.checkPending s).1 := by
  constructor
  · rintro ⟨l₁, r, l₂, hsplit, hpassed, -, hrest⟩
    cases l₁ with
    | nil =>
      obtain ⟨rfl, rfl⟩ := List.cons.inj hsplit
      exact hrest
    | cons a l₁ =>
      obtain ⟨rfl, rfl⟩ := List.cons.inj hsplit
      exact absurd (hpassed s mem_cons_self) hs
  · intro hrest
    have hstate : s.state ≠ .inactive := fun hinactive => hs (Or.inl hinactive)
    exact ⟨[], s, rest, rfl, forall_mem_nil _, hstate, hrest⟩

theorem testAnyScan_found_iff (w : WaitState) (i : Nat) (requests : List Request)
    (taken : Request) : (∃ j, (w.testAnyScan i requests).2 = some (.found j taken)) ↔
      w.TakesComplete requests taken := by
  induction requests generalizing i with
  | nil =>
    constructor
    · rintro ⟨j, hj⟩
      cases hj
    · rintro ⟨l₁, r, l₂, hsplit, -⟩
      cases l₁ with
      | nil | cons a l₁ => cases hsplit
  | cons r rest ih =>
    rw [testAnyScan]
    by_cases hpassed : w.PassesBy r
    · rw [takesComplete_cons_of_passesBy hpassed, ← ih (i + 1)]
      rcases hpassed with hinactive | ⟨hpending, hcomplete⟩
      · rw [if_pos hinactive]
      · split_ifs
        · exact Iff.rfl
        · simp only [hpending, hcomplete, Bool.false_eq_true, if_false]
    · rw [takesComplete_cons_of_not hpassed]
      rw [PassesBy, not_or, not_and] at hpassed
      obtain ⟨hactive, hstops⟩ := hpassed
      rw [if_neg hactive]
      by_cases hpending : reportsPending (w.checkPending r) = true
      · simp [hpending]
      · have hpending' := eq_false_of_ne_true hpending
        have hcomplete := eq_true_of_ne_false (hstops hpending')
        simp [hpending', hcomplete, eq_comm]

theorem testAllScan_eq (requests : List Request) :
    (w.testAllScan requests).2 = requests.any (fun r => reportsPending (w.checkPending r)) ∧
      ((w.testAllScan requests).2 = false →
        (w.testAllScan requests).1 = requests.map fun r => (w.checkPending r).1) := by
  induction requests with
  | nil => exact ⟨rfl, fun _ => rfl⟩
  | cons r rest ih =>
    rw [testAllScan, any_cons]
    by_cases hpending : reportsPending (w.checkPending r) = true
    · simp [hpending]
    · have hpending' := eq_false_of_ne_true hpending
      simp only [hpending', Bool.false_eq_true, if_false, Bool.false_or]
      exact ⟨ih.1, fun h => congrArg _ (ih.2 h)⟩

end Checks

end WaitState

open WaitState

/-- A consumed request with an error makes the return code an error. -/
def CallResult.Honest (result : CallResult) : Prop :=
  ∀ r ∈ result.consumed, r.error ≠ mpiSuccess → result.code ≠ mpiSuccess

/-- What the array must be like for a call to be honest. For `test_any`: the request that it
takes is not a persistent one with an error. For `test_all`, if it finds all the requests
complete: a persistent one has an error only if another one has an error too. -/
def ArrayCall.SparesPersistent (w : WaitState) : ArrayCall → Prop
  | .testAny => ∀ r, w.TakesComplete w.requests r → r.persistent = true → r.reported = mpiSuccess
  | .testAll =>
    (∀ r ∈ w.requests, reportsPending (w.checkPending r) = false ∧
      (r.state = .inactive ∨ (w.checkPending r).1.complete = true)) →
    (∃ r ∈ w.requests, r.state ≠ .inactive ∧ r.persistent = true ∧
      (w.checkPending r).1.reported ≠ mpiSuccess) →
    ∃ r ∈ w.requests, r.state ≠ .inactive ∧ r.persistent = false ∧
      (w.checkPending r).1.reported ≠ mpiSuccess
  | _ => True

section Honest

variable {w : WaitState}

theorem CallResult.honest_nothing (code : ℤ) (indices : List Nat) (requests : List Request) :
    (CallResult.nothing code indices requests).Honest := fun r hr => by cases hr

theorem honest_testPass {result : CallResult} (h : w.testPass.2 = some result) : result.Honest := by
  rw [testPass] at h
  cases hrequests : w.requests with
  | nil =>
    rw [hrequests] at h
    cases h
  | cons r rest =>
    simp only [hrequests] at h
    split_ifs at h
    · cases h
      apply honest_nothing
    · cases h
      apply honest_nothing
    · cases h
      intro r' hr' herror
      rw [mem_singleton.mp hr'] at herror
      exact herror

theorem honest_test (w : WaitState) (progress : List WaitEvent) :
    (w.requestDefaultTest progress).Honest := by
  rw [requestDefaultTest]
  rcases hfirst : w.testPass with ⟨w₁, _ | result⟩
  · simp only
    rcases hsecond : (w₁.applyAll progress).testPass with ⟨w₂, _ | result⟩
    · apply honest_nothing
    · exact honest_testPass (congrArg Prod.snd hsecond)
  · exact honest_testPass (congrArg Prod.snd hfirst)

theorem honest_testAny_iff (w : WaitState) : w.requestDefaultTestAny.Honest ↔
    ∀ r, w.TakesComplete w.requests r → r.persistent = true → r.reported = mpiSuccess := by
  have htaken := fun r => testAnyScan_found_iff w 0 w.requests r
  rw [requestDefaultTestAny]
  rcases hscan : (w.testAnyScan 0 w.requests).2 with _ | _ | ⟨i, taken⟩ | i
  · refine iff_of_true (honest_nothing _ _ _) fun r hr => ?_
    obtain ⟨j, hj⟩ := (htaken r).mpr hr
    rw [hscan] at hj
    cases hj
  · refine iff_of_true (honest_nothing _ _ _) fun r hr => ?_
    obtain ⟨j, hj⟩ := (htaken r).mpr hr
    rw [hscan] at hj
    cases hj
  · have hfound : ∀ r, w.TakesComplete w.requests r ↔ r = taken := by
      intro r
      rw [← htaken r, hscan]
      simp [eq_comm]
    simp only [hfound, forall_eq]
    constructor
    · intro h hpersistent
      by_contra herror
      exact h taken.queried (mem_singleton_self _) herror (if_pos hpersistent)
    · intro h r hr herror
      rw [mem_singleton.mp hr] at herror
      rw [if_neg fun hpersistent => herror (h hpersistent)]
      exact herror
  · refine iff_of_true (honest_nothing _ _ _) fun r hr => ?_
    obtain ⟨j, hj⟩ := (htaken r).mpr hr
    rw [hscan] at hj
    cases hj

theorem honest_testAll_end_iff (requests : List Request) :
    (∀ r ∈ (requests.filter (·.state ≠ .inactive)).map Request.queried,
        r.error ≠ mpiSuccess → requests.foldl testAllCode mpiSuccess ≠ mpiSuccess) ↔
      ((∃ r ∈ requests, r.state ≠ .inactive ∧ r.persistent = true ∧ r.reported ≠ mpiSuccess) →
        ∃ r ∈ requests, r.state ≠ .inactive ∧ r.persistent = false ∧ r.reported ≠ mpiSuccess) := by
  have hcode : requests.foldl testAllCode mpiSuccess ≠ mpiSuccess ↔
      ∃ r ∈ requests, r.state ≠ .inactive ∧ r.persistent = false ∧ r.reported ≠ mpiSuccess := by
    rw [Ne, foldl_code_eq_success testAllCode_eq_success]
    simp
  rw [hcode]
  constructor
  · rintro h ⟨r, hr, hactive, -, herror⟩
    refine h r.queried (mem_map_of_mem ?_) herror
    rw [mem_filter]
    exact ⟨hr, by simpa using hactive⟩
  · intro h q hq herror
    obtain ⟨r, hr, rfl⟩ := mem_map.mp hq
    obtain ⟨hr, hactive⟩ := mem_filter.mp hr
    have hactive' : r.state ≠ .inactive := by simpa using hactive
    cases hpersistent : r.persistent with
    | true => exact h ⟨r, hr, hactive', hpersistent, herror⟩
    | false => exact ⟨r, hr, hactive', hpersistent, herror⟩

theorem honest_testAll_iff (w : WaitState) :
    w.requestDefaultTestAll.Honest ↔ ArrayCall.testAll.SparesPersistent w := by
  obtain ⟨hpending, hscan⟩ := testAllScan_eq (w := w) w.requests
  rw [requestDefaultTestAll]
  split_ifs with hany hcount
  · refine iff_of_true (CallResult.honest_nothing _ _ _) fun hall => ?_
    rw [hpending, any_eq_true] at hany
    obtain ⟨r, hr, hreports⟩ := hany
    rw [(hall r hr).1] at hreports
    cases hreports
  · refine iff_of_true (CallResult.honest_nothing _ _ _) fun hall => ?_
    refine absurd (countP_eq_length.mpr fun r hr => ?_) hcount
    rw [hscan (eq_false_of_ne_true hany)] at hr
    obtain ⟨s, hs, rfl⟩ := mem_map.mp hr
    rcases (hall s hs).2 with hinactive | hcomplete
    · simp [(checkPending_kind w s).1, hinactive]
    · simp [hcomplete]
  · have hany' := eq_false_of_ne_true hany
    rw [not_not, hscan hany'] at hcount
    have hall : ∀ r ∈ w.requests, reportsPending (w.checkPending r) = false ∧
        (r.state = .inactive ∨ (w.checkPending r).1.complete = true) := by
      intro r hr
      rw [hpending] at hany'
      refine ⟨eq_false_of_ne_true (any_eq_false.mp hany' r hr), ?_⟩
      have hdone := countP_eq_length.mp hcount _ (mem_map_of_mem hr)
      simpa [(checkPending_kind w r).1] using hdone
    have hspares : ArrayCall.testAll.SparesPersistent w ↔
        ((∃ r ∈ w.requests.map fun r => (w.checkPending r).1, r.state ≠ .inactive ∧
            r.persistent = true ∧ r.reported ≠ mpiSuccess) →
          ∃ r ∈ w.requests.map fun r => (w.checkPending r).1, r.state ≠ .inactive ∧
            r.persistent = false ∧ r.reported ≠ mpiSuccess) := by
      simp only [mem_map, exists_exists_and_eq_and, (checkPending_kind w _).1,
        (checkPending_kind w _).2]
      exact ⟨fun h => h hall, fun h _ => h⟩
    rw [hspares, ← honest_testAll_end_iff, hscan hany']
    exact Iff.rfl

theorem honest_testSome (statuses : Bool) (w : WaitState) :
    (w.requestDefaultTestSome statuses).Honest := by
  intro q hq herror hcode
  obtain ⟨r, hr, rfl⟩ := mem_map.mp hq
  have hfine := (foldl_code_eq_success (testSomeCode_eq_success statuses)).mp hcode
  exact herror (hfine.2 r (mem_filter.mp hr).1).2

theorem honest_waitEnd (w : WaitState) : w.waitEnd.Honest := by
  rw [waitEnd]
  cases w.requests with
  | nil => apply honest_nothing
  | cons r rest =>
    simp only
    split_ifs
    · apply honest_nothing
    · apply honest_nothing
    · intro q hq
      cases hq
    · intro q hq herror
      rw [mem_singleton.mp hq] at herror
      exact herror

theorem honest_finish (statuses : Bool) (failed : Nat) (requests : List Request) :
    ∀ r ∈ consumedByFinish failed requests, r.error ≠ mpiSuccess →
      (finish statuses failed requests).code ≠ mpiSuccess := by
  intro q hq herror hcode
  obtain ⟨r, hr, rfl⟩ := mem_map.mp hq
  obtain ⟨hr, hconsumed⟩ := mem_filter.mp hr
  simp only [Bool.and_eq_true, Bool.not_eq_true', decide_eq_true_eq] at hconsumed
  obtain ⟨hskipped, hactive⟩ := hconsumed
  apply herror
  cases statuses with
  | true =>
    have hstatus := (foldl_finishCode_eq_success.mp hcode).2 r hr
    rw [finishStatus, if_neg (ne_true_of_eq_false hskipped)] at hstatus
    exact hstatus
  | false =>
    have hstatus := (foldl_ignoreCode_eq_success.mp hcode).2 r hr
    rw [hskipped, ignoreStatus, if_neg hactive] at hstatus
    exact hstatus.resolve_left (by decide)

end Honest

/-- A call that consumes a completed request with an error returns an error, exactly unless
`test_any` takes a persistent request with an error, or `test_all` consumes one and no other
request with an error. -/
theorem errors_reported_iff {c : ArrayCall} {w : WaitState} {g g' : Guard} {result : CallResult}
    (h : c.run w g = some (result, g')) : result.Honest ↔ c.SparesPersistent w := by
  cases c with
  | test progress =>
    rw [← (Prod.mk.inj (Option.some.inj h)).1]
    exact iff_of_true (honest_test w progress) trivial
  | testAny =>
    rw [← (Prod.mk.inj (Option.some.inj h)).1]
    exact honest_testAny_iff w
  | testAll =>
    rw [← (Prod.mk.inj (Option.some.inj h)).1]
    exact honest_testAll_iff w
  | testSome statuses =>
    rw [← (Prod.mk.inj (Option.some.inj h)).1]
    exact iff_of_true (honest_testSome statuses w) trivial
  | wait env =>
    refine iff_of_true ?_ trivial
    rw [run, requestDefaultWait] at h
    split_ifs at h
    · rw [← (Prod.mk.inj (Option.some.inj h)).1]
      exact honest_waitEnd w
    · rw [Option.map_eq_some_iff] at h
      obtain ⟨exit, -, heq⟩ := h
      rw [← (Prod.mk.inj heq).1]
      exact honest_waitEnd exit.1
  | waitAny env =>
    refine iff_of_true ?_ trivial
    rw [run, requestDefaultWaitAny, Option.map_eq_some_iff] at h
    obtain ⟨⟨w', exit⟩, -, heq⟩ := h
    cases exit with
    | inactive | pending i =>
      rw [← (Prod.mk.inj heq).1]
      apply honest_nothing
    | found i r =>
      rw [← (Prod.mk.inj heq).1]
      intro q hq herror
      rw [mem_singleton.mp hq] at herror
      exact herror
  | waitAll statuses first env =>
    refine iff_of_true ?_ trivial
    rw [run, requestDefaultWaitAllGuarded, Option.map_eq_some_iff] at h
    obtain ⟨exit, -, heq⟩ := h
    rw [← (Prod.mk.inj heq).1]
    exact honest_finish statuses exit.1.2 exit.1.1.requests
  | waitSome statuses env =>
    refine iff_of_true ?_ trivial
    rw [run, requestDefaultWaitSome, Option.map_eq_some_iff] at h
    obtain ⟨exit, -, heq⟩ := h
    rw [← (Prod.mk.inj heq).1]
    intro q hq herror hcode
    obtain ⟨r, hr, rfl⟩ := mem_map.mp hq
    have hfine := (foldl_code_eq_success (waitSomeCode_eq_success statuses)).mp hcode
    exact herror (hfine.2 r (mem_filter.mp hr).1).2

/-- A persistent receive that has completed with `MPI_ERR_TRUNCATE`. -/
def truncatedReceive : WaitState where
  requests := [⟨true, 15, .active, true, none, false, .rank 1, 5, false, some 0, false⟩]
  comms := fun _ => ⟨false, false, true, true, 0, fun _ => true⟩
  ftEnabled := true
  completed := 1
  failed := 1

theorem errors_reported_iff_wait_any : CallResult.Honest ⟨15, [0], truncatedReceive.requests,
      truncatedReceive.requests.map fun r => some { r with state := .inactive }⟩ ↔
    (ArrayCall.waitAny []).SparesPersistent truncatedReceive := by
  have hrun : (ArrayCall.waitAny []).run truncatedReceive ⟨false, 0⟩ = some (⟨15, [0],
      truncatedReceive.requests, truncatedReceive.requests.map fun r =>
        some { r with state := .inactive }⟩, ⟨false, 0⟩) := rfl
  exact errors_reported_iff hrun

/-- Both `test_any` and `test_all` return success for it. -/
theorem test_any_forgets_error : ¬ ∀ (c : ArrayCall) (w : WaitState) (g g' : Guard)
    (result : CallResult), c.run w g = some (result, g') → result.Honest := by
  intro h
  have hany := h .testAny truncatedReceive ⟨false, 0⟩ ⟨false, 0⟩
    truncatedReceive.requestDefaultTestAny rfl
  exact hany ⟨true, 15, .active, true, none, false, .rank 1, 5, false, some 0, false⟩
    (mem_singleton_self _) (by decide) rfl

end Ulfm
