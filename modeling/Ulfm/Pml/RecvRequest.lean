import Ulfm.Pml.SendRequest
import Ulfm.Request.AnySource

/-!
# The life of a receive request

One use of a receive request of ob1, from `mca_pml_ob1_recv_req_start` on: the first
message of the sender, the fragments that the receiver asks for by RDMA and those that
the sender copies, their completions and the passes of the scheduler, in any order. A
callback runs as a whole; the scheduler holds the lock of the request and is cut between
two fragments.
-/

namespace Ulfm.RecvReq

open SendReq (sizeMod addSize subSize)

/-- `OMPI_SUCCESS`. -/
def ompiSuccess : ℤ := 0

/-- What a fragment in flight will call back, with its bytes. -/
inductive Fragment
  | put (length : ℕ)
  | get (length : ℕ)
  deriving DecidableEq

def Fragment.length : Fragment → ℕ
  | .put n => n
  | .get n => n

/-- How the data of the message comes: with the first message, by the pipeline of
`mca_pml_ob1_recv_request_schedule`, by one get, or all by copy. -/
inductive Protocol
  | matched
  | rndv
  | rget
  | copy
  deriving DecidableEq

/-- The fields of `mca_pml_ob1_recv_request_t` that decide its completion; then what
refers to the request and what the sender still has to copy, and in the last group what
has happened to it. `source` is the `MPI_SOURCE` of a status whose `MPI_TAG` is no longer
`MPI_ANY_TAG`. -/
structure RecvRequest where
  bytesPacked : ℕ
  bytesReceived : ℕ
  bytesExpected : ℕ
  rdmaOffset : ℕ
  sendOffset : ℕ
  pipelineDepth : ℕ
  reqLock : ℕ
  matchReceived : Bool
  pending : Bool
  source : Option ℕ
  error : ℤ
  ucount : ℕ
  cancelled : Bool
  complete : Bool
  pmlComplete : Bool
  freeCalled : Bool
  returned : Bool
  flight : List Fragment
  owed : ℕ
  /-- Somebody is in `schedule_once`, with that value of `bytes_remaining`. -/
  scheduling : Option ℕ
  protocol : Option Protocol
  completions : ℕ
  /-- The bytes of the fragments that ended with success. -/
  landed : ℕ
  deriving DecidableEq

/-- `mca_pml_ob1_recv_req_start` and `MCA_PML_BASE_RECV_START`: the two offsets keep the
values of an earlier use. -/
def start (bytesExpected : ℕ) (rdmaOffset sendOffset : UInt64) : RecvRequest where
  bytesPacked := 0
  bytesReceived := 0
  bytesExpected := bytesExpected
  rdmaOffset := rdmaOffset.toNat
  sendOffset := sendOffset.toNat
  pipelineDepth := 0
  reqLock := 0
  matchReceived := false
  pending := false
  source := none
  error := mpiSuccess
  ucount := 0
  cancelled := false
  complete := false
  pmlComplete := false
  freeCalled := false
  returned := false
  flight := []
  owed := 0
  scheduling := none
  protocol := none
  completions := 0
  landed := 0

namespace RecvRequest

/-- `recv_request_pml_complete`. -/
def recvRequestPmlComplete (s : RecvRequest) : RecvRequest :=
  let s := { s with completions := s.completions + 1 }
  if s.freeCalled then { s with returned := true }
  else if s.bytesExpected < s.bytesPacked then
    { s with
      pmlComplete := true, ucount := s.bytesPacked, error := mpiErrTruncate, complete := true }
  else { s with pmlComplete := true, ucount := s.bytesReceived, complete := true }

/-- `recv_request_pml_complete_check`: the request, and whether it was completed. -/
def pmlCompleteCheck (s : RecvRequest) : RecvRequest × Bool :=
  if s.matchReceived ∧ s.bytesPacked ≤ s.bytesReceived then
    if s.reqLock = 0 then
      (recvRequestPmlComplete { s with reqLock := s.reqLock + 1 }, true)
    else
      ({ s with reqLock := s.reqLock + 1 }, false)
  else
    (s, false)

/-- `mca_pml_ob1_recv_request_schedule`, up to the loop of `schedule_once`. -/
def schedule (s : RecvRequest) : RecvRequest :=
  if s.reqLock = 0 then
    { s with
      reqLock := s.reqLock + 1, scheduling := some (subSize s.sendOffset s.rdmaOffset) }
  else
    { s with reqLock := s.reqLock + 1 }

def checkOrSchedule (s : RecvRequest) : RecvRequest :=
  match s.pmlCompleteCheck with
  | (s, true) => s
  | (s, false) => if s.rdmaOffset < s.sendOffset then s.schedule else s

/-- Some bytes have come to the user's buffer, for the record. -/
def land (length : ℕ) (s : RecvRequest) : RecvRequest := { s with landed := s.landed + length }

/-- `OPAL_THREAD_ADD_SIZE_T(&recvreq->req_bytes_received, bytes_received)`. -/
def count (length : ℕ) (s : RecvRequest) : RecvRequest :=
  { s with bytesReceived := addSize s.bytesReceived length }

/-- `recv_req_matched`, with the length of the message. -/
def recvReqMatched (src length : ℕ) (protocol : Protocol) (s : RecvRequest) : RecvRequest :=
  { s with
    bytesPacked := length, source := some src, matchReceived := true, protocol := some protocol }

/-- `mca_pml_ob1_recv_request_progress_match`. -/
def progressMatch (src length : ℕ) (s : RecvRequest) : RecvRequest :=
  ((s.recvReqMatched src length .matched).land length |>.count length).recvRequestPmlComplete

/-- `mca_pml_ob1_recv_request_progress_rndv` of a message whose first `data` bytes come at
once. The sender copies what lies behind the offset that `mca_pml_ob1_recv_request_ack`
chooses. -/
def progressRndv (src length data offset : ℕ) (s : RecvRequest) : RecvRequest :=
  let s := { s.recvReqMatched src length .rndv with
    rdmaOffset := data, sendOffset := offset, owed := length - offset }
  (s.land data |>.count data).checkOrSchedule

/-- `mca_pml_ob1_recv_request_progress_rget`: one get for the whole message, unless the
buffer is not contiguous. -/
def progressRget (src length : ℕ) (needBuffers : Bool) (s : RecvRequest) : RecvRequest :=
  if needBuffers then
    { s.recvReqMatched src length .copy with sendOffset := 0, owed := length }
  else { s.recvReqMatched src length .rget with flight := [.get length] }

/-- `mca_pml_ob1_recv_request_progress_frag`. -/
def progressFrag (length : ℕ) (s : RecvRequest) : RecvRequest :=
  let s := { s with owed := s.owed - length }
  (s.land length |>.count length).checkOrSchedule

/-- `mca_pml_ob1_put_completion`. A sender that gives up the put sends the bytes by copy. -/
def putCompletion (length : ℕ) (status : ℤ) (s : RecvRequest) : RecvRequest :=
  let s := { s with pipelineDepth := subSize s.pipelineDepth 1 }
  if status = ompiSuccess then (s.land length |>.count length).checkOrSchedule
  else
    let skipped := subSize s.sendOffset s.rdmaOffset
    let s := { s with
      error := status, rdmaOffset := s.sendOffset, owed := s.owed + length }
    (s.count skipped).checkOrSchedule

/-- `mca_pml_ob1_rget_completion`. -/
def rgetCompletion (length : ℕ) (status : ℤ) (s : RecvRequest) : RecvRequest :=
  if status = ompiSuccess then (s.land length |>.count length).pmlCompleteCheck.1
  else
    let skipped := subSize s.sendOffset s.rdmaOffset
    let s := { s with error := status, rdmaOffset := s.sendOffset }
    (s.count skipped).pmlCompleteCheck.1

/-- The callback of a fragment, which is no longer in flight then. -/
def completion (s : RecvRequest) (status : ℤ) : Fragment → RecvRequest
  | .put n => s.putCompletion n status
  | .get n => s.rgetCompletion n status

/-- `schedule_once` after the BTL has taken the control message of a put. -/
def putSent (remaining size : ℕ) (s : RecvRequest) : RecvRequest :=
  { s with
    rdmaOffset := addSize s.rdmaOffset size
    pipelineDepth := addSize s.pipelineDepth 1
    scheduling := some (remaining - size)
    flight := s.flight ++ [.put size] }

/-- `while (!unlock_recv_request)` and what follows the loop. -/
def scheduleReturns (s : RecvRequest) : RecvRequest :=
  let s := { s with reqLock := s.reqLock - 1 }
  if s.reqLock = 0 then (pmlCompleteCheck { s with scheduling := none }).1
  else { s with scheduling := some (subSize s.sendOffset s.rdmaOffset) }

/-- `mca_pml_ob1_recv_request_free`. -/
def free (s : RecvRequest) : RecvRequest :=
  { s with freeCalled := true, returned := s.returned || s.pmlComplete }

end RecvRequest

inductive Event
  | progressMatch (src length : ℕ)
  | progressRndv (src length data offset : ℕ)
  | progressRget (src length : ℕ) (needBuffers : Bool)
  | progressFrag (length : ℕ)
  | complete (i : ℕ) (status : ℤ)
  /-- The scheduler gets a put of that size off. -/
  | putSent (size : ℕ)
  /-- `schedule_once` returns `OMPI_SUCCESS`. -/
  | scheduled
  /-- No BTL takes a put: the request waits in `recv_pending`, still locked. -/
  | exhausted
  /-- `mca_pml_ob1_recv_request_process_pending`. -/
  | resume
  | free
  deriving DecidableEq

def step (s : RecvRequest) : Event → RecvRequest
  | .progressMatch src length => s.progressMatch src length
  | .progressRndv src length data offset => s.progressRndv src length data offset
  | .progressRget src length needBuffers => s.progressRget src length needBuffers
  | .progressFrag length => s.progressFrag length
  | .complete i status =>
    match s.flight[i]? with
    | none => s
    | some d => RecvRequest.completion { s with flight := s.flight.eraseIdx i } status d
  | .putSent size =>
    match s.scheduling with
    | none => s
    | some remaining => s.putSent remaining size
  | .scheduled => s.scheduleReturns
  | .exhausted => { s with pending := true, scheduling := none }
  | .resume =>
    { s with pending := false, scheduling := some (subSize s.sendOffset s.rdmaOffset) }
  | .free => s.free

/-- The request is in one of the queues of receives. -/
def Posted (s : RecvRequest) : Prop := s.source = none ∧ s.cancelled = false

/-- What the sender, the BTLs, the scheduler and the user can do. The offset lies in the
message, and the sender copies no byte twice. -/
def Possible (recvPipelineDepth : ℕ) (s : RecvRequest) : Event → Prop
  | .progressMatch _ length => Posted s ∧ length < sizeMod
  | .progressRndv _ length data offset =>
    Posted s ∧ length < sizeMod ∧ data ≤ offset ∧ offset ≤ length
  | .progressRget _ length _ => Posted s ∧ 0 < length ∧ length < sizeMod
  | .progressFrag length => 0 < length ∧ length ≤ s.owed
  | .complete i _ => i < s.flight.length
  | .putSent size =>
    s.pipelineDepth < recvPipelineDepth ∧
      ∃ remaining, s.scheduling = some remaining ∧ 0 < size ∧ size ≤ remaining
  | .scheduled =>
    ∃ remaining, s.scheduling = some remaining ∧
      (remaining = 0 ∨ recvPipelineDepth ≤ s.pipelineDepth)
  | .exhausted =>
    s.pipelineDepth < recvPipelineDepth ∧ ∃ remaining, s.scheduling = some remaining ∧ 0 < remaining
  | .resume => s.pending = true
  | .free => s.freeCalled = false

/-- Nobody schedules the request, and it does not wait to be scheduled. -/
def quiescent (s : RecvRequest) : Prop := s.scheduling = none ∧ s.pending = false

instance (s : RecvRequest) : Decidable (quiescent s) :=
  inferInstanceAs (Decidable (s.scheduling = none ∧ s.pending = false))

/-- The bytes that the receiver still has to ask for. -/
def unscheduled (s : RecvRequest) : ℕ :=
  if s.protocol = some .rndv then s.sendOffset - s.rdmaOffset else 0

/-- The message is here, and every fragment of it has ended. -/
def Ended (s : RecvRequest) : Prop :=
  s.source ≠ none ∧ s.flight = [] ∧ s.owed = 0 ∧ unscheduled s = 0 ∧ quiescent s

instance (s : RecvRequest) : Decidable (Ended s) :=
  inferInstanceAs (Decidable (s.source ≠ none ∧ s.flight = [] ∧ s.owed = 0 ∧
    unscheduled s = 0 ∧ quiescent s))

/-- The bytes counted are those of the fragments that ended with success, and the request
is completed once, when all of them have ended. -/
structure Accounted (s : RecvRequest) : Prop where
  exactly : s.bytesReceived = s.landed
  once : s.completions = if Ended s then 1 else 0

/-- A get does not fail, and a put only when the receiver has asked for everything. -/
def Harmless (s : RecvRequest) : Event → Prop
  | .complete i status =>
    match s.flight[i]? with
    | some (.put _) => status = ompiSuccess ∨ s.rdmaOffset = s.sendOffset
    | some (.get _) => status = ompiSuccess
    | none => True
  | _ => True

end Ulfm.RecvReq
