import Ulfm.Era.Value

/-!
# Waiting for an array of requests

`ompi_request_default_wait_all` with the fault-tolerance check
`ompi_request_state_ok` of each request. The function sleeps on a condition
variable; what the rest of the process does to the requests, the communicators
and the two global counters meanwhile is a batch of events for each sleep. The
model runs the code between two sleeps (`settle`) and is total: without a further
batch the call is still asleep, which is `none`.

A request keeps of its status the error code, which is all that the function
reads. The `req_free` functions of the library all return `OMPI_SUCCESS`, so the
branch that looks at their result is never taken.
-/

namespace Ulfm

/-- `MPI_ERR_IN_STATUS`. -/
def mpiErrInStatus : ℤ := 18

/-- `MPI_ERR_PENDING`. -/
def mpiErrPending : ℤ := 19

/-- `MPI_ERR_PROC_FAILED_PENDING`. -/
def mpiErrProcFailedPending : ℤ := 55

/-- `MPI_ERR_REVOKED`. -/
def mpiErrRevoked : ℤ := 56

/-- `ompi_request_tag_is_ft`: from `MCA_COLL_BASE_TAG_MIN_FT` down to
`MCA_COLL_BASE_TAG_MAX_FT`. -/
def requestTagIsFt (tag : ℤ) : Bool := tag ≤ -26 && -31 ≤ tag

/-- `ompi_request_tag_is_collective`: from `MCA_COLL_BASE_TAG_MIN` down to
`MCA_COLL_BASE_TAG_MAX`. -/
def requestTagIsCollective (tag : ℤ) : Bool := tag ≤ -10 && -25 ≤ tag

/-- `MPI_ANY_TAG`. -/
def mpiAnyTag : ℤ := -1

/-- The index of `MPI_COMM_WORLD`. -/
def mpiCommWorld : Nat := 0

/-- `req_peer`: `MPI_PROC_NULL`, `MPI_ANY_SOURCE` or a rank. -/
inductive Peer where
  | procNull
  | anySource
  | rank (r : Nat)
  deriving DecidableEq

/-- `ompi_request_state_t`. -/
inductive RequestState where
  | invalid
  | inactive
  | active
  | cancelled
  deriving DecidableEq

/-- The fields of a communicator that `ompi_request_state_ok` reads. `active` is
`ompi_proc_is_active` of the ranks that a request can have as its peer. -/
structure RequestComm where
  revoked : Bool
  collRevoked : Bool
  anySourceEnabled : Bool
  isIntra : Bool
  myRank : Nat
  active : Nat → Bool

/-- `ompi_comm_is_proc_active`. -/
def RequestComm.isProcActive (comm : RequestComm) : Peer → Bool
  | .anySource => comm.anySourceEnabled
  | .procNull => true
  | .rank r => comm.active r

/-- `ompi_request_t`. For a generalized request, `query` is the error code that its
query function leaves in the status. A request without a communicator has `comm`
equal to `none`. `cancels` says whether `ompi_request_cancel` would complete the
request now. -/
structure Request where
  complete : Bool
  error : ℤ
  state : RequestState
  persistent : Bool
  query : Option ℤ
  anySourcePending : Bool
  peer : Peer
  tag : ℤ
  isProbe : Bool
  comm : Option Nat
  cancels : Bool
  deriving DecidableEq

namespace Request

/-- The error code that the checks of `ompi_request_state_ok` find, and the value
they give to `req_any_source_pending`. -/
def stateError (r : Request) (comm : RequestComm) : Option (ℤ × Bool) :=
  if r.complete then none
  else if comm.revoked && !requestTagIsFt r.tag then some (mpiErrRevoked, false)
  else if r.peer = .procNull ∨ (comm.isIntra ∧ r.peer = .rank comm.myRank) then none
  else if r.peer = .anySource ∧ !comm.anySourceEnabled ∧ !requestTagIsFt r.tag then
    some (if r.isProbe then mpiErrProcFailed else mpiErrProcFailedPending, true)
  else if !comm.isProcActive r.peer then some (mpiErrProcFailed, r.peer = .anySource)
  else if comm.collRevoked && requestTagIsCollective r.tag then some (mpiErrProcFailed, false)
  else none

/-- `ompi_request_state_ok`, with the request it leaves. -/
def stateOk (r : Request) (ftEnabled : Bool) (comm : RequestComm) : Request × Bool :=
  if !ftEnabled then (r, true)
  else
    match r.stateError comm with
    | none => ({ r with anySourcePending := false }, true)
    | some (e, pending) =>
      let r' := { r with error := e, anySourcePending := pending }
      if e = mpiErrProcFailedPending then (r', false)
      -- the request is cancelled, and is still ok if that does not complete it
      else if r.cancels then ({ r' with complete := true }, false)
      else (r', true)

/-- The error code in the status after `ompi_grequest_invoke_query`. -/
def reported (r : Request) : ℤ := r.query.getD r.error

/-- `ompi_request_complete` by the point-to-point layer with an error code, or by
`MPI_Grequest_complete`, which leaves the status as it is. -/
def completeWith (r : Request) (error : ℤ) : Request :=
  { r with complete := true, error := if r.query.isSome then r.error else error }

/-- What becomes of a complete request whose error code is `rc`: a persistent one is
inactive, another one is freed (`none`, the handle is `MPI_REQUEST_NULL`) unless it
has an error. -/
def release (r : Request) (rc : ℤ) : Option Request :=
  if r.persistent then some { r with error := r.reported, state := .inactive }
  else if rc = mpiSuccess then none
  else some { r with error := r.reported }

end Request

/-- The requests of the call, the communicators, and the process-wide counters
`ompi_request_completed` and `ompi_request_failed`. -/
structure WaitState where
  requests : List Request
  comms : Nat → RequestComm
  ftEnabled : Bool
  completed : Nat
  failed : Nat

/-- What happens in the process while the call sleeps. -/
inductive WaitEvent where
  /-- An active request of the array completes with an error code. -/
  | complete (i : Nat) (error : ℤ)
  /-- A request that is not in the array completes with an error code. -/
  | foreign (error : ℤ)
  /-- A failure notification, a revocation or an acknowledgement changes a
  communicator. -/
  | comm (c : Nat) (state : RequestComm)
  /-- The point-to-point layer can now cancel a request, or no longer. -/
  | cancels (i : Nat) (flag : Bool)

namespace WaitState

/-- `ompi_request_complete`, as the counters see it. -/
def count (w : WaitState) (error : ℤ) : WaitState :=
  { w with
    completed := w.completed + 1
    failed := if error = mpiSuccess then w.failed else w.failed + 1 }

def apply (w : WaitState) : WaitEvent → WaitState
  | .complete i e =>
    match w.requests[i]? with
    | none => w
    | some r =>
      if r.complete ∨ r.state ≠ .active then w
      else
        { w with requests := w.requests.set i (r.completeWith e) }.count (r.completeWith e).error
  | .foreign e => w.count e
  | .comm c state => { w with comms := Function.update w.comms c state }
  | .cancels i flag =>
    match w.requests[i]? with
    | none => w
    | some r => { w with requests := w.requests.set i { r with cancels := flag } }

def applyAll (w : WaitState) (batch : List WaitEvent) : WaitState := batch.foldl apply w

/-- The loops that count the complete requests and the failed ones among them. -/
def numCompleted (w : WaitState) : Nat := w.requests.countP (·.complete)

def numFailed (w : WaitState) : Nat := w.requests.countP fun r => r.complete && r.error ≠ mpiSuccess

/-- The request that the fault-tolerance loop leaves. -/
def check (w : WaitState) (r : Request) : Request × Bool :=
  match r.comm with
  | none => (r, true)
  | some c =>
    if !r.complete ∧ r.state = .active then r.stateOk w.ftEnabled (w.comms c) else (r, true)

/-- The fault-tolerance loop over the requests: the state it leaves and how many
requests it finds broken. A request that it completes is counted as failed. -/
def scan (w : WaitState) : WaitState × Nat :=
  let cancelled := w.requests.countP fun r => !r.complete && (w.check r).1.complete
  ({ w with
      requests := w.requests.map fun r => (w.check r).1
      completed := w.completed + cancelled
      failed := w.failed + cancelled },
    w.requests.countP fun r => !(w.check r).2)

/-- The call between two sleeps: it has left the loop with a number of failed
requests, or it sleeps with the values of `start`, `pending` and
`start_failed`. -/
inductive Settled where
  | finished (w : WaitState) (failed : Nat)
  | sleeping (w : WaitState) (start pending startFailed : Nat)

/-- The body of the inner loop up to the sleep. -/
def innerBody (w : WaitState) (start pending startFailed failed : Nat) : Settled :=
  if 0 < w.failed - startFailed then .finished w (failed + (w.failed - startFailed))
  else
    let scanned := w.scan
    if 0 < failed + scanned.2 then .finished scanned.1 (failed + scanned.2)
    else .sleeping scanned.1 start pending startFailed

def outerLoop (w : WaitState) (completed failed : Nat) : Settled :=
  if completed = w.requests.length then .finished w failed
  else innerBody w w.completed (w.requests.length - completed) w.failed failed

def settle (w : WaitState) (start pending startFailed : Nat) : Settled :=
  if w.completed - start < pending then innerBody w start pending startFailed 0
  else outerLoop w w.numCompleted w.numFailed

/-- The loop of the call, with one batch of events for each sleep. -/
def waitLoop : Settled → List (List WaitEvent) → Option (WaitState × Nat)
  | .finished w failed, _ => some (w, failed)
  | .sleeping .., [] => none
  | .sleeping w start pending startFailed, batch :: env =>
    waitLoop (settle (w.applyAll batch) start pending startFailed) env

/-- Everything before the label `finish`. The batch `first` is what happens between
the first count and the second one, which is done with the lock held. -/
def waitCompletion (w : WaitState) (first : List WaitEvent) (env : List (List WaitEvent)) :
    Option (WaitState × Nat) :=
  if 0 < w.numFailed then some (w, w.numFailed)
  else if w.numCompleted = w.requests.length then some (w, 0)
  else
    let w' := w.applyAll first
    if 0 < w'.numFailed then some (w', w'.numFailed)
    else waitLoop (outerLoop w' w'.numCompleted 0) env

end WaitState

/-- The return code, the error codes of the status array if there is one, and the
requests that the call leaves. -/
structure WaitResult where
  code : ℤ
  statuses : List ℤ
  requests : List (Option Request)
  deriving DecidableEq

/-- The result loop with a status array skips a request that is still pending
because another one has failed. -/
def skipped (failed : Nat) (r : Request) : Bool := 0 < failed && !r.complete

def finishStatus (failed : Nat) (r : Request) : ℤ :=
  if skipped failed r then
    if r.reported = mpiErrProcFailedPending then mpiErrProcFailedPending else mpiErrPending
  else r.reported

/-- The return code after one more request, with a status array. -/
def finishCode (failed : Nat) (code : ℤ) (r : Request) : ℤ :=
  if finishStatus failed r = mpiSuccess then code else mpiErrInStatus

/-- The error code of one request without a status array. -/
def ignoreStatus (r : Request) : ℤ := if r.state = .inactive then mpiSuccess else r.reported

/-- The return code after one more request, without a status array. -/
def ignoreCode (failed : Nat) (code : ℤ) (r : Request) : ℤ :=
  if skipped failed r then code
  else
    let rc := ignoreStatus r
    let code := if rc = mpiErrProcFailed ∨ rc = mpiErrRevoked then rc else code
    if code = mpiSuccess ∧ rc ≠ mpiSuccess then mpiErrInStatus else code

/-- The two loops after the label `finish`. -/
def finish (statuses : Bool) (failed : Nat) (requests : List Request) : WaitResult :=
  if statuses then
    { code := requests.foldl (finishCode failed) mpiSuccess
      statuses := requests.map (finishStatus failed)
      requests := requests.map fun r =>
        if skipped failed r then some { r with error := r.reported } else r.release r.reported }
  else
    { code := requests.foldl (ignoreCode failed) mpiSuccess
      statuses := []
      requests := requests.map fun r =>
        if skipped failed r then some r else r.release (ignoreStatus r) }

/-- `ompi_request_default_wait_all`: the state in which it leaves the loop and what
it returns, `none` while it sleeps. -/
def requestDefaultWaitAll (statuses : Bool) (w : WaitState) (first : List WaitEvent)
    (env : List (List WaitEvent)) : Option (WaitState × WaitResult) :=
  (w.waitCompletion first env).map fun (w', failed) =>
    (w', finish statuses failed w'.requests)

end Ulfm
