import Ulfm.Request.Definitions

/-!
# The test and wait functions

The eight functions of `req_test.c` and `req_wait.c`, with the requests that each call
consumes. The wait functions hold `ompi_request_lock` and count themselves in
`ompi_request_waiting`; each of their exits says what it does to both. A call that
sleeps on the condition variable gives up the lock and has it again when it wakes up.

The request of `ompi_request_default_test` and `ompi_request_default_wait` is the first
one of the array.
-/

namespace Ulfm

/-- `ompi_request_lock` as the call has it, and `ompi_request_waiting`. -/
structure Guard where
  locked : Bool
  waiting : ℤ
deriving DecidableEq

/-- `OPAL_THREAD_LOCK(&ompi_request_lock); ompi_request_waiting++`. -/
def Guard.enter (g : Guard) : Guard := ⟨true, g.waiting + 1⟩

/-- `ompi_request_waiting--; OPAL_THREAD_UNLOCK(&ompi_request_lock)`. -/
def Guard.leave (g : Guard) : Guard := ⟨false, g.waiting - 1⟩

/-- What a call returns: its return code, the indices that it reports, the completed
requests that it consumes, as their statuses are then, and the array that it leaves. -/
structure CallResult where
  code : ℤ
  indices : List Nat
  consumed : List Request
  requests : List (Option Request)
deriving DecidableEq

def CallResult.nothing (code : ℤ) (indices : List Nat) (requests : List Request) : CallResult :=
  ⟨code, indices, [], requests.map some⟩

/-- The request after `ompi_grequest_invoke_query`. -/
def Request.queried (r : Request) : Request := { r with error := r.reported }

namespace WaitState

/-- `ompi_request_state_ok`. -/
def stateOk (w : WaitState) (r : Request) : Request × Bool :=
  match r.comm with
  | none => (r, true)
  | some c => r.stateOk w.ftEnabled (w.comms c)

/-- The check of a request unless it is complete. -/
def checkPending (w : WaitState) (r : Request) : Request × Bool :=
  if r.complete then (r, true) else w.stateOk r

/-- The test for `MPI_ERR_PROC_FAILED_PENDING` after the check of a request. -/
def reportsPending (checked : Request × Bool) : Bool := !checked.2 && checked.1.anySourcePending

/-- The array after a loop of checks. The requests that these have completed count as
completed and as failed. -/
def withRequests (w : WaitState) (requests : List Request) : WaitState :=
  let cancelled := requests.countP (·.complete) - w.requests.countP (·.complete)
  { w with
    requests := requests
    completed := w.completed + cancelled
    failed := w.failed + cancelled }

/-- A loop that sleeps after each pass, with one batch of events for each sleep. -/
def sleepLoop {Exit : Type} (pass : WaitState → WaitState × Option Exit) :
    List (List WaitEvent) → WaitState → Option (WaitState × Exit)
  | [], w =>
    match pass w with
    | (w', some exit) => some (w', exit)
    | (_, none) => none
  | batch :: env, w =>
    match pass w with
    | (w', some exit) => some (w', exit)
    | (w', none) => sleepLoop pass env (w'.applyAll batch)

section Test

/-- `ompi_request_default_test`, from the label `recheck_request_status`. -/
def testPass (w : WaitState) : WaitState × Option CallResult :=
  match w.requests with
  | [] => (w, none)
  | r :: rest =>
    if r.state = .inactive then (w, some (.nothing mpiSuccess [] w.requests))
    else
      let checked := w.checkPending r
      let w' := w.withRequests (checked.1 :: rest)
      if reportsPending checked then
        (w', some (.nothing mpiErrProcFailedPending [] w'.requests))
      else if checked.1.complete then
        (w', some ⟨checked.1.reported, [], [checked.1.queried],
          checked.1.release checked.1.reported :: rest.map some⟩)
      else (w', none)

/-- `ompi_request_default_test`; `progress` is what `opal_progress` does. -/
def requestDefaultTest (w : WaitState) (progress : List WaitEvent) : CallResult :=
  match w.testPass with
  | (_, some result) => result
  | (w', none) =>
    match (w'.applyAll progress).testPass with
    | (_, some result) => result
    | (w'', none) => .nothing mpiSuccess [] w''.requests

inductive AnyExit where
  | inactive
  | found (i : Nat) (r : Request)
  | pending (i : Nat)
deriving DecidableEq

/-- The loop of `ompi_request_default_test_any`. -/
def testAnyScan (w : WaitState) : Nat → List Request → List Request × Option AnyExit
  | _, [] => ([], none)
  | i, r :: rest =>
    if r.state = .inactive then
      (r :: (w.testAnyScan (i + 1) rest).1, (w.testAnyScan (i + 1) rest).2)
    else
      let checked := w.checkPending r
      if reportsPending checked then (checked.1 :: rest, some (.pending i))
      else if checked.1.complete then (checked.1 :: rest, some (.found i checked.1))
      else (checked.1 :: (w.testAnyScan (i + 1) rest).1, (w.testAnyScan (i + 1) rest).2)

/-- `ompi_request_default_test_any`. -/
def requestDefaultTestAny (w : WaitState) : CallResult :=
  let scanned := w.testAnyScan 0 w.requests
  match scanned.2 with
  | some (.pending i) => .nothing mpiErrProcFailedPending [i] scanned.1
  | some (.found i r) =>
    ⟨if r.persistent then mpiSuccess else r.reported, [i], [r.queried],
      (scanned.1.map some).set i (r.release r.reported)⟩
  | _ => .nothing mpiSuccess [] scanned.1

/-- The first loop of `ompi_request_default_test_all`, and whether it returns. -/
def testAllScan (w : WaitState) : List Request → List Request × Bool
  | [] => ([], false)
  | r :: rest =>
    let checked := w.checkPending r
    if reportsPending checked then (checked.1 :: rest, true)
    else (checked.1 :: (w.testAllScan rest).1, (w.testAllScan rest).2)

/-- The return code of `ompi_request_default_test_all` after one more request. -/
def testAllCode (code : ℤ) (r : Request) : ℤ :=
  if r.state = .inactive then code
  else if r.persistent then code
  else if r.reported = mpiSuccess then code
  else mpiErrInStatus

/-- `ompi_request_default_test_all`. The two loops at its end, with and without statuses,
treat the requests in the same way. -/
def requestDefaultTestAll (w : WaitState) : CallResult :=
  let scanned := w.testAllScan w.requests
  if scanned.2 then .nothing mpiErrInStatus [] scanned.1
  else if scanned.1.countP (fun r => r.state = .inactive || r.complete) ≠ scanned.1.length then
    .nothing mpiSuccess [] scanned.1
  else
    { code := scanned.1.foldl testAllCode mpiSuccess
      indices := []
      consumed := (scanned.1.filter (·.state ≠ .inactive)).map Request.queried
      requests := scanned.1.map fun r =>
        if r.state = .inactive then some r else r.release r.reported }

/-- The status of a request in `ompi_request_default_test_some`, which calls the query
function only for a status array. -/
def seen (statuses : Bool) (r : Request) : Request := if statuses then r.queried else r

/-- The first loop of `ompi_request_default_test_some`: the request, and how often it is
written to `indices`. -/
def testSomeCheck (w : WaitState) (r : Request) : Request × Nat :=
  if r.state = .inactive then (r, 0)
  else
    let checked := w.checkPending r
    (checked.1, (if reportsPending checked then 1 else 0) + if checked.1.complete then 1 else 0)

/-- The return code of `ompi_request_default_test_some` after one more request. -/
def testSomeCode (statuses : Bool) (code : ℤ) (r : Request) : ℤ :=
  if r.anySourcePending then mpiErrInStatus
  else if (seen statuses r).error = mpiSuccess then code
  else mpiErrInStatus

/-- What becomes of a request that `ompi_request_default_test_some` reports. -/
def testSomeLeft (statuses : Bool) (r : Request) : Option Request :=
  if r.anySourcePending then some r
  else if r.persistent then some { seen statuses r with state := .inactive }
  else if (seen statuses r).error = mpiSuccess then none
  else some (seen statuses r)

/-- `ompi_request_default_test_some`. -/
def requestDefaultTestSome (statuses : Bool) (w : WaitState) : CallResult :=
  let checked := w.requests.map w.testSomeCheck
  let done := (checked.filter (0 < ·.2)).map (·.1)
  { code := done.foldl (testSomeCode statuses) mpiSuccess
    indices := checked.zipIdx.flatMap fun p => List.replicate p.1.2 p.2
    consumed := (done.filter (!·.anySourcePending)).map (seen statuses)
    requests := checked.map fun p => if 0 < p.2 then testSomeLeft statuses p.1 else some p.1 }

end Test

section Wait

/-- The loop of `ompi_request_wait_completion`. -/
def waitPass (w : WaitState) : WaitState × Option Unit :=
  match w.requests with
  | [] => (w, some ())
  | r :: rest =>
    if r.complete then (w, some ())
    else
      let checked := if w.ftEnabled then w.stateOk r else (r, true)
      (w.withRequests (checked.1 :: rest), if checked.2 then none else some ())

/-- `ompi_request_default_wait` after `ompi_request_wait_completion`. -/
def waitEnd (w : WaitState) : CallResult :=
  match w.requests with
  | [] => .nothing mpiSuccess [] []
  | r :: rest =>
    if r.anySourcePending then .nothing mpiErrProcFailedPending [] w.requests
    else if r.persistent ∧ r.state = .inactive then
      .nothing mpiSuccess [] (r.queried :: rest)
    else
      ⟨r.reported, [], if r.state = .inactive then [] else [r.queried],
        r.release r.reported :: rest.map some⟩

/-- `ompi_request_default_wait`. -/
def requestDefaultWait (w : WaitState) (g : Guard) (env : List (List WaitEvent)) :
    Option (CallResult × Guard) :=
  if w.requests.head?.all (·.complete) then some (w.waitEnd, g)
  else (sleepLoop waitPass env w).map fun exit => (exit.1.waitEnd, g.enter.leave)

/-- The inner loop of `ompi_request_default_wait_any`. -/
def waitAnyScan (w : WaitState) : Nat → List Request → List Request × Option AnyExit
  | _, [] => ([], none)
  | i, r :: rest =>
    if r.state = .inactive then
      (r :: (w.waitAnyScan (i + 1) rest).1, (w.waitAnyScan (i + 1) rest).2)
    else if r.complete then (r :: rest, some (.found i r))
    else
      let checked := w.check r
      if checked.2 then
        (checked.1 :: (w.waitAnyScan (i + 1) rest).1, (w.waitAnyScan (i + 1) rest).2)
      else if checked.1.anySourcePending then (checked.1 :: rest, some (.pending i))
      else (checked.1 :: rest, some (.found i checked.1))

/-- One pass of the outer loop of `ompi_request_default_wait_any`. -/
def waitAnyPass (w : WaitState) : WaitState × Option AnyExit :=
  let scanned := w.waitAnyScan 0 w.requests
  (w.withRequests scanned.1,
    if scanned.2.isNone ∧ w.requests.all (·.state = .inactive) then some .inactive
    else scanned.2)

/-- `ompi_request_default_wait_any`. -/
def requestDefaultWaitAny (w : WaitState) (g : Guard) (env : List (List WaitEvent)) :
    Option (CallResult × Guard) :=
  (sleepLoop waitAnyPass env w).map fun exit =>
    match exit.2 with
    -- the return from within the loop
    | .pending i => (.nothing mpiErrProcFailedPending [i] exit.1.requests, g.enter)
    | .inactive => (.nothing mpiSuccess [] exit.1.requests, g.enter.leave)
    | .found i r =>
      (⟨r.reported, [i], [r.queried],
        (exit.1.requests.map some).set i (r.release r.reported)⟩, g.enter.leave)

/-- The inner loop of `ompi_request_default_wait_some` for one request: the request, and
whether its index is marked. -/
def waitSomeCheck (w : WaitState) (r : Request) : Request × Bool :=
  if r.state = .inactive then (r, false)
  else
    let checked := w.checkPending r
    (checked.1, reportsPending checked || checked.1.complete)

/-- One pass of the outer loop of `ompi_request_default_wait_some`. -/
def waitSomePass (w : WaitState) : WaitState × Option (List (Request × Bool)) :=
  let checked := w.requests.map w.waitSomeCheck
  (w.withRequests (checked.map (·.1)),
    if w.requests.all (·.state = .inactive) ∨ checked.any (·.2) then some checked else none)

/-- The return code of `ompi_request_default_wait_some` after one more request. -/
def waitSomeCode (statuses : Bool) (code : ℤ) (r : Request) : ℤ :=
  if r.anySourcePending then
    if !statuses ∧ (r.error = mpiErrProcFailed ∨ r.error = mpiErrRevoked) then r.error
    else mpiErrInStatus
  else if r.reported = mpiSuccess then code
  else mpiErrInStatus

/-- `ompi_request_default_wait_some`. -/
def requestDefaultWaitSome (statuses : Bool) (w : WaitState) (g : Guard)
    (env : List (List WaitEvent)) : Option (CallResult × Guard) :=
  (sleepLoop waitSomePass env w).map fun exit =>
    let done := (exit.2.filter (·.2)).map (·.1)
    ({ code := done.foldl (waitSomeCode statuses) mpiSuccess
       indices := (exit.2.zipIdx.filter (·.1.2)).map (·.2)
       consumed := (done.filter (!·.anySourcePending)).map Request.queried
       requests := exit.2.map fun p =>
         if p.2 ∧ !p.1.anySourcePending then p.1.release p.1.reported else some p.1 },
      g.enter.leave)

/-- `innerBody`, with the exits to `finish`. -/
def innerBodyGuarded (g : Guard) (w : WaitState) (start pending startFailed failed : Nat) :
    Settled × Guard :=
  if 0 < w.failed - startFailed then (.finished w (failed + (w.failed - startFailed)), g.leave)
  else
    let scanned := w.scan
    if 0 < failed + scanned.2 then (.finished scanned.1 (failed + scanned.2), g.leave)
    else (.sleeping scanned.1 start pending startFailed, g)

/-- `outerLoop`, with the end of the loop. -/
def outerLoopGuarded (g : Guard) (w : WaitState) (completed failed : Nat) : Settled × Guard :=
  if completed = w.requests.length then (.finished w failed, g.leave)
  else innerBodyGuarded g w w.completed (w.requests.length - completed) w.failed failed

def settleGuarded (g : Guard) (w : WaitState) (start pending startFailed : Nat) : Settled × Guard :=
  if w.completed - start < pending then innerBodyGuarded g w start pending startFailed 0
  else outerLoopGuarded g w w.numCompleted w.numFailed

def waitLoopGuarded : Settled × Guard → List (List WaitEvent) → Option ((WaitState × Nat) × Guard)
  | (.finished w failed, g), _ => some ((w, failed), g)
  | (.sleeping .., _), [] => none
  | (.sleeping w start pending startFailed, g), batch :: env =>
    waitLoopGuarded (settleGuarded g (w.applyAll batch) start pending startFailed) env

/-- `waitCompletion`, with the lock and the counter. -/
def waitCompletionGuarded (g : Guard) (w : WaitState) (first : List WaitEvent)
    (env : List (List WaitEvent)) : Option ((WaitState × Nat) × Guard) :=
  if 0 < w.numFailed then some ((w, w.numFailed), g)
  else if w.numCompleted = w.requests.length then some ((w, 0), g)
  else
    let w' := w.applyAll first
    if 0 < w'.numFailed then some ((w', w'.numFailed), g.enter.leave)
    else waitLoopGuarded (outerLoopGuarded g.enter w' w'.numCompleted 0) env

/-- The requests that the loops after the label `finish` consume. -/
def consumedByFinish (failed : Nat) (requests : List Request) : List Request :=
  (requests.filter fun r => !skipped failed r && r.state ≠ .inactive).map Request.queried

/-- `ompi_request_default_wait_all`, with the lock, the counter and what it consumes. -/
def requestDefaultWaitAllGuarded (statuses : Bool) (w : WaitState) (g : Guard)
    (first : List WaitEvent) (env : List (List WaitEvent)) : Option (CallResult × Guard) :=
  (waitCompletionGuarded g w first env).map fun exit =>
    let result := finish statuses exit.1.2 exit.1.1.requests
    (⟨result.code, [], consumedByFinish exit.1.2 exit.1.1.requests, result.requests⟩, exit.2)

end Wait

end WaitState

/-- A call of one of the eight functions, with what happens in the process meanwhile. -/
inductive ArrayCall where
  | test (progress : List WaitEvent)
  | testAny
  | testAll
  | testSome (statuses : Bool)
  | wait (env : List (List WaitEvent))
  | waitAny (env : List (List WaitEvent))
  | waitAll (statuses : Bool) (first : List WaitEvent) (env : List (List WaitEvent))
  | waitSome (statuses : Bool) (env : List (List WaitEvent))

/-- What a call returns, and the lock and the counter then; `none` while it sleeps. -/
def ArrayCall.run (w : WaitState) (g : Guard) : ArrayCall → Option (CallResult × Guard)
  | .test progress => some (w.requestDefaultTest progress, g)
  | .testAny => some (w.requestDefaultTestAny, g)
  | .testAll => some (w.requestDefaultTestAll, g)
  | .testSome statuses => some (w.requestDefaultTestSome statuses, g)
  | .wait env => w.requestDefaultWait g env
  | .waitAny env => w.requestDefaultWaitAny g env
  | .waitAll statuses first env => w.requestDefaultWaitAllGuarded statuses g first env
  | .waitSome statuses env => w.requestDefaultWaitSome statuses g env

end Ulfm
