import Ulfm.Request.Definitions

/-!
# Receives from any source

A receive from any source is not cancelled when a process fails: the test and wait
functions report it as `MPI_ERR_PROC_FAILED_PENDING`, and it stays posted. This module
has the receive path of such requests (`recv_req_matched` and
`recv_request_pml_complete`), and what the test and wait functions do with an array of
receive requests. A wait function sleeps when it finds nothing to report, and runs its
loop again when it wakes up; one such pass of its loop is one call here.
-/

namespace Ulfm

open Function

/-- `MPI_ERR_TRUNCATE`. -/
def mpiErrTruncate : ℤ := 15

/-- The match header of a message: its source, its tag and the length of its data. -/
structure MatchHdr where
  src : Nat
  tag : ℤ
  length : Nat
deriving DecidableEq

/-- `mca_pml_ob1_recv_request_t`. The fields of the status other than the error code
are `statusSource`, `statusTag` and `ucount`; the peer stands for its rank there. -/
structure RecvRequest extends Request where
  statusSource : Peer
  statusTag : ℤ
  ucount : Nat
  bytesExpected : Nat
  bytesPacked : Nat
  bytesReceived : Nat
  matched : Option MatchHdr
deriving DecidableEq

namespace RecvRequest

/-- `ompi_request_state_ok` on a receive request. The branch for a source that may be any one
leaves the source of the status. -/
def checkState (r : RecvRequest) (ftEnabled : Bool) (comm : RequestComm) : RecvRequest × Bool :=
  let result := r.toRequest.stateOk ftEnabled comm
  ({ r with
      toRequest := result.1
      statusSource :=
        if ftEnabled ∧ (r.stateError comm).map (·.1) = some mpiErrProcFailed ∧
            ¬(r.peer = .anySource ∧ !comm.anySourceEnabled ∧ !requestTagIsFt r.tag) then
          r.peer
        else r.statusSource },
    result.2)

/-- `recv_req_matched`. -/
def recvReqMatched (r : RecvRequest) (hdr : MatchHdr) : RecvRequest :=
  { r with
    statusSource := .rank hdr.src
    statusTag := hdr.tag
    bytesPacked := hdr.length
    matched := some hdr }

/-- `recv_request_pml_complete`. -/
def recvRequestPmlComplete (r : RecvRequest) : RecvRequest :=
  if r.bytesPacked > r.bytesExpected then
    { r with ucount := r.bytesPacked, error := mpiErrTruncate, complete := true }
  else { r with ucount := r.bytesReceived, complete := true }

/-- Some data of the message arrives, and `recv_request_pml_complete_check`. -/
def receiveData (r : RecvRequest) (n : Nat) : RecvRequest :=
  let r := { r with bytesReceived := r.bytesReceived + n }
  if r.matched.isSome ∧ r.bytesReceived ≥ r.bytesPacked then r.recvRequestPmlComplete else r

/-- A complete request that has been reported: a persistent one is inactive, the handle
of another one is `MPI_REQUEST_NULL`, which is inactive too, unless it has an error. -/
def retire (r : RecvRequest) : RecvRequest :=
  if r.persistent ∨ r.error = mpiSuccess then { r with state := .inactive } else r

end RecvRequest

/-- What a test or wait function tells of a request. For the functions that return one
request `error` is the return code, for the others the error code of its status. -/
structure Report where
  index : Nat
  completed : Bool
  error : ℤ
  source : Peer
  tag : ℤ
  ucount : Nat
deriving DecidableEq

/-- The receive requests and communicators of a process. -/
structure RecvWorld where
  requests : Nat → RecvRequest
  comms : Nat → RequestComm
  ftEnabled : Bool

/-- One pass of a test or wait function over the requests with the given indices. The
values in `waitAllWake` are the local variables with which `wait_all` has slept, and the
process-wide counters. -/
inductive RequestCall where
  | test (i : Nat)
  | wait (i : Nat)
  | waitAny (is : List Nat)
  | waitAll (is : List Nat) (completed failed : Nat)
  | waitAllWake (is : List Nat) (completed failed start pending startFailed : Nat)
  | testSome (is : List Nat)
  | waitSome (is : List Nat)

namespace RecvWorld

def setRequest (w : RecvWorld) (i : Nat) (r : RecvRequest) : RecvWorld :=
  { w with requests := update w.requests i r }

/-- The report of a request with an error code. -/
def report (w : RecvWorld) (i : Nat) (completed : Bool) (error : ℤ) : Report :=
  ⟨i, completed, error, (w.requests i).statusSource, (w.requests i).statusTag,
    (w.requests i).ucount⟩

/-- `ompi_request_state_ok` on the request `i`. -/
def stateOk (w : RecvWorld) (i : Nat) : RecvWorld × Bool :=
  match (w.requests i).comm with
  | none => (w, true)
  | some c =>
    let result := (w.requests i).checkState w.ftEnabled (w.comms c)
    (w.setRequest i result.1, result.2)

/-- The end of the functions for a complete request. -/
def finishRequest (w : RecvWorld) (i : Nat) : RecvWorld × List Report :=
  (w.setRequest i (w.requests i).retire, [w.report i true (w.requests i).error])

/-- `ompi_request_default_test`, from the label `recheck_request_status`. -/
def test (w : RecvWorld) (i : Nat) : RecvWorld × List Report :=
  if (w.requests i).state = .inactive then (w, [])
  else
    let checked := if (w.requests i).complete then (w, true) else w.stateOk i
    let w := checked.1
    if !checked.2 ∧ (w.requests i).anySourcePending then
      (w, [w.report i false mpiErrProcFailedPending])
    else if (w.requests i).complete then w.finishRequest i
    else (w, [])

/-- `ompi_request_default_wait`. -/
def wait (w : RecvWorld) (i : Nat) : RecvWorld × List Report :=
  let checked := if (w.requests i).complete then (w, false) else w.stateOk i
  let w := checked.1
  if checked.2 then (w, [])
  else if (w.requests i).anySourcePending then (w, [w.report i false mpiErrProcFailedPending])
  else if (w.requests i).persistent ∧ (w.requests i).state = .inactive then
    (w, [w.report i true mpiSuccess])
  else w.finishRequest i

/-- The loop of `ompi_request_default_wait_any`. -/
def waitAny (w : RecvWorld) : List Nat → RecvWorld × List Report
  | [] => (w, [])
  | i :: is =>
    if (w.requests i).state = .inactive then w.waitAny is
    else if (w.requests i).complete then w.finishRequest i
    else if (w.requests i).state = .active then
      let checked := w.stateOk i
      if checked.2 then checked.1.waitAny is
      else if (checked.1.requests i).anySourcePending then
        (checked.1, [checked.1.report i false mpiErrProcFailedPending])
      else checked.1.finishRequest i
    else w.waitAny is

/-- The loop of `ompi_request_default_test_some` and `ompi_request_default_wait_some`
that collects the requests to report. -/
def collect (w : RecvWorld) : List Nat → RecvWorld × List Nat
  | [] => (w, [])
  | i :: is =>
    if (w.requests i).state = .inactive then w.collect is
    else
      let checked := if (w.requests i).complete then (w, true) else w.stateOk i
      let w := checked.1
      let done := if !checked.2 ∧ (w.requests i).anySourcePending then [i] else []
      let done := if (w.requests i).complete then done ++ [i] else done
      let rest := w.collect is
      (rest.1, done ++ rest.2)

def reportSome (w : RecvWorld) : List Nat → RecvWorld × List Report
  | [] => (w, [])
  | i :: is =>
    let here := if (w.requests i).anySourcePending then
        (w, [w.report i false mpiErrProcFailedPending])
      else w.finishRequest i
    let rest := here.1.reportSome is
    (rest.1, here.2 ++ rest.2)

/-- `ompi_request_default_test_some` and `ompi_request_default_wait_some`. -/
def doSome (w : RecvWorld) (is : List Nat) : RecvWorld × List Report :=
  let collected := w.collect is
  collected.1.reportSome collected.2

/-- The requests of an array as `ompi_request_default_wait_all` sees them. -/
def waitState (w : RecvWorld) (is : List Nat) (completed failed : Nat) : WaitState where
  requests := is.map fun i => (w.requests i).toRequest
  comms := w.comms
  ftEnabled := w.ftEnabled
  completed := completed
  failed := failed

/-- The requests of an array are written back. -/
def writeBack (w : RecvWorld) : List Nat → List Request → RecvWorld
  | i :: is, r :: rs =>
    (w.setRequest i { w.requests i with toRequest := r }).writeBack is rs
  | _, _ => w

/-- `ompi_request_default_wait_all` when it leaves its loop or sleeps. -/
def afterSettled (w : RecvWorld) (is : List Nat) : WaitState.Settled → RecvWorld × List Report
  | .sleeping s _ _ _ => (w.writeBack is s.requests, [])
  | .finished s failed =>
    let w := w.writeBack is s.requests
    (is.foldl (fun w i => if skipped failed (w.requests i).toRequest then w
        else w.setRequest i (w.requests i).retire) w,
      is.map fun i => w.report i (w.requests i).complete
        (finishStatus failed (w.requests i).toRequest))

/-- `ompi_request_default_wait_all` from the count of the complete requests on. -/
def waitAll (w : RecvWorld) (is : List Nat) (completed failed : Nat) : RecvWorld × List Report :=
  let s := w.waitState is completed failed
  w.afterSettled is
    (if 0 < s.numFailed then .finished s s.numFailed else s.outerLoop s.numCompleted 0)

/-- `ompi_request_default_wait_all` after a sleep. -/
def waitAllWake (w : RecvWorld) (is : List Nat) (completed failed start pending startFailed : Nat) :
    RecvWorld × List Report :=
  w.afterSettled is ((w.waitState is completed failed).settle start pending startFailed)

def call (w : RecvWorld) : RequestCall → RecvWorld × List Report
  | .test i => w.test i
  | .wait i => w.wait i
  | .waitAny is => w.waitAny is
  | .waitAll is completed failed => w.waitAll is completed failed
  | .waitAllWake is completed failed start pending startFailed =>
    w.waitAllWake is completed failed start pending startFailed
  | .testSome is => w.doSome is
  | .waitSome is => w.doSome is

end RecvWorld

/-- What can happen to the receives of a process. -/
inductive RecvEvent where
  /-- A process of the communicator `c` is found to have failed. -/
  | failure (c rank : Nat)
  /-- `ompi_comm_failure_ack_internal`. -/
  | ack (c : Nat)
  /-- A message matches the request `i`. -/
  | arrive (i : Nat) (hdr : MatchHdr)
  /-- The next bytes of the message of the request `i` arrive. -/
  | data (i n : Nat)
  | call (c : RequestCall)

namespace RecvWorld

def step (w : RecvWorld) : RecvEvent → RecvWorld × List Report
  | .failure c rank =>
    ({ w with comms := update w.comms c { w.comms c with
        anySourceEnabled := false
        collRevoked := true
        active := update (w.comms c).active rank false } }, [])
  | .ack c =>
    ({ w with comms := update w.comms c { w.comms c with anySourceEnabled := true } }, [])
  | .arrive i hdr =>
    if (w.requests i).state = .active ∧ (w.requests i).complete = false ∧
        (w.requests i).matched = none then
      (w.setRequest i ((w.requests i).recvReqMatched hdr), [])
    else (w, [])
  | .data i n =>
    if (w.requests i).complete = false ∧ (w.requests i).matched.isSome ∧
        (w.requests i).bytesReceived + n ≤ (w.requests i).bytesPacked then
      (w.setRequest i ((w.requests i).receiveData n), [])
    else (w, [])
  | .call c => w.call c

def run (w : RecvWorld) (events : List RecvEvent) : RecvWorld × List Report :=
  events.foldl (fun s e => ((s.1.step e).1, s.2 ++ (s.1.step e).2)) (w, [])

end RecvWorld

end Ulfm
