import Ulfm.Foundation.Trace
import Mathlib.Algebra.Order.Ring.Int

/-!
# The life of a send request

One send request of ob1, from its start on, with everything that refers to it:
the descriptors the BTLs hold, the ranges to be sent by copy in/out, the puts
and the request itself on the pending lists. The steps are the callbacks of the
BTLs, the messages of the receiver, the passes of the fragment scheduler and the
calls of the user, in any order; a callback runs as a whole.
-/

namespace Ulfm.SendReq

/-- The size of `size_t`. -/
abbrev sizeMod : ℕ := 2 ^ 64

def addSize (a b : ℕ) : ℕ := (a + b) % sizeMod

def subSize (a b : ℕ) : ℕ := (a + sizeMod - b) % sizeMod

/-- `mca_pml_ob1_send_pending_t`. -/
inductive SendPending
  | none
  | schedule
  | start
  deriving DecidableEq

/-- What a descriptor in flight will call back, with the bytes it carries. -/
inductive Descriptor
  | matched (length : ℕ)
  | rndv (length : ℕ)
  | frag (length : ℕ)
  | put (length : ℕ)
  | get (length : ℕ)
  | ctl
  deriving DecidableEq

def Descriptor.length : Descriptor → ℕ
  | .matched n => n
  | .rndv n => n
  | .frag n => n
  | .put n => n
  | .get n => n
  | .ctl => 0

/-- The protocol a request has been started with. -/
inductive Protocol
  | matched
  | rndv
  | rget
  deriving DecidableEq

/-- The fields of the request that decide its completion, what refers to it, and
in the last group what has happened to it so far. -/
structure SendRequest where
  bytesPacked : ℕ
  reqState : Int
  reqLock : ℕ
  pipelineDepth : ℕ
  bytesDelivered : ℕ
  throttleSends : Bool
  reqRecv : Bool
  pmlComplete : Bool
  mpiComplete : Bool
  freeCalled : Bool
  returned : Bool
  pending : SendPending
  sendRanges : List ℕ
  rdmaPending : List ℕ
  flight : List Descriptor
  /-- Somebody is in `schedule_exclusive`. -/
  scheduling : Bool
  protocol : Option Protocol
  completions : ℕ
  /-- Nothing referred to the request whenever it was completed. -/
  clean : Bool
  /-- The receiver has answered the first message. -/
  acked : Bool
  /-- The bytes the receiver has not yet asked for. -/
  owed : ℕ
  /-- The bytes of the descriptors that completed with success. -/
  carried : ℕ
  failed : Bool
  deriving DecidableEq

/-- `mca_pml_ob1_send_request_start` up to the choice of a BTL. It leaves what an earlier use
of the request has put into `req_throttle_sends` and `req_recv`. -/
def init (bytesPacked : UInt64) (throttleSends reqRecv : Bool) : SendRequest where
  bytesPacked := bytesPacked.toNat
  reqState := 0
  reqLock := 0
  pipelineDepth := 0
  bytesDelivered := 0
  throttleSends := throttleSends
  reqRecv := reqRecv
  pmlComplete := false
  mpiComplete := false
  freeCalled := false
  returned := false
  pending := .none
  sendRanges := []
  rdmaPending := []
  flight := []
  scheduling := false
  protocol := none
  completions := 0
  clean := true
  acked := false
  owed := 0
  carried := 0
  failed := false

namespace SendRequest

def unreferenced (s : SendRequest) : Bool :=
  s.flight.isEmpty && s.sendRanges.isEmpty && s.rdmaPending.isEmpty && s.pending == .none

/-- `send_request_pml_complete`. -/
def sendRequestPmlComplete (s : SendRequest) : SendRequest :=
  { s with
    mpiComplete := true, pmlComplete := true, returned := s.returned || s.freeCalled,
    completions := s.completions + 1, clean := s.clean && s.unreferenced }

/-- `send_request_pml_complete_check`: the request, and whether it was completed. -/
def pmlCompleteCheck (s : SendRequest) : SendRequest × Bool :=
  if s.reqState = 0 ∧ s.bytesDelivered ≥ s.bytesPacked then
    if s.reqLock = 0 then
      (sendRequestPmlComplete { s with reqLock := s.reqLock + 1 }, true)
    else
      ({ s with reqLock := s.reqLock + 1 }, false)
  else
    (s, false)

/-- `mca_pml_ob1_send_request_schedule`; the scheduler itself runs in steps of
its own. -/
def schedule (s : SendRequest) : SendRequest :=
  if s.reqLock = 0 then
    { s with reqLock := s.reqLock + 1, scheduling := true }
  else
    { s with reqLock := s.reqLock + 1 }

def checkOrSchedule (s : SendRequest) : SendRequest :=
  match s.pmlCompleteCheck with
  | (s, true) => s
  | (s, false) => s.schedule

/-- `mca_pml_ob1_send_request_copy_in_out`. -/
def copyInOut (length : ℕ) (s : SendRequest) : SendRequest :=
  if length = 0 then s else { s with sendRanges := s.sendRanges ++ [length] }

/-- The outcome of a transfer, for the record. -/
def carry (length : ℕ) (ok : Bool) (s : SendRequest) : SendRequest :=
  { s with carried := s.carried + (if ok then length else 0), failed := s.failed || !ok }

def matchCompletion (length : ℕ) (ok : Bool) (s : SendRequest) : SendRequest :=
  (s.carry length ok).sendRequestPmlComplete

/-- `mca_pml_ob1_rndv_completion`: the bytes count also when the send failed. -/
def rndvCompletion (length : ℕ) (ok : Bool) (s : SendRequest) : SendRequest :=
  let s := s.carry length ok
  (pmlCompleteCheck
    { s with
      bytesDelivered := addSize s.bytesDelivered length, reqState := s.reqState - 1 }).1

def rgetCompletion (length : ℕ) (ok : Bool) (s : SendRequest) : SendRequest :=
  let s := s.carry length ok
  let delivered := if ok then length else subSize s.bytesPacked s.bytesDelivered
  (pmlCompleteCheck
    { s with bytesDelivered := addSize s.bytesDelivered delivered, acked := true }).1

def fragCompletion (length : ℕ) (ok : Bool) (s : SendRequest) : SendRequest :=
  let s := s.carry length ok
  let delivered := if ok then length else subSize s.bytesPacked s.bytesDelivered
  checkOrSchedule
    { s with
      pipelineDepth := subSize s.pipelineDepth 1,
      bytesDelivered := addSize s.bytesDelivered delivered }

def putCompletion (length : ℕ) (ok : Bool) (s : SendRequest) : SendRequest :=
  let s := s.carry length ok
  let progressed := if ok then length else s.bytesPacked
  (pmlCompleteCheck { s with bytesDelivered := addSize s.bytesDelivered progressed }).1

/-- The callback of a descriptor, which is no longer in flight then. -/
def completion (s : SendRequest) (ok : Bool) : Descriptor → SendRequest
  | .matched n => s.matchCompletion n ok
  | .rndv n => s.rndvCompletion n ok
  | .frag n => s.fragCompletion n ok
  | .put n => s.putCompletion n ok
  | .get n => s.rgetCompletion n ok
  | .ctl => { s with failed := s.failed || !ok }

/-- `mca_pml_ob1_recv_frag_callback_ack` with a receive request. -/
def ack (sendOffset : ℕ) (nordma : Bool) (s : SendRequest) : SendRequest :=
  let length := s.bytesPacked - sendOffset
  let s := { s with
    reqRecv := true, throttleSends := s.throttleSends || nordma, acked := true,
    owed := s.owed - length }
  let s := s.copyInOut length
  let s := if s.reqState ≠ 0 then { s with reqState := s.reqState - 1 } else s
  s.checkOrSchedule

/-- `mca_pml_ob1_recv_frag_callback_ack` without one: the communicator has been
revoked at the receiver, which asks for nothing more. -/
def nack (s : SendRequest) : SendRequest :=
  sendRequestPmlComplete { s with reqRecv := false, acked := true, owed := 0, failed := true }

/-- What becomes of a put the receiver has asked for. -/
inductive PutOutcome
  /-- There is no fragment for it: zero bytes go to copy in/out. -/
  | noFrag
  /-- The BTL takes a descriptor, perhaps for less. -/
  | issued (length : ℕ)
  /-- It waits on the list of pending puts. -/
  | later
  /-- After too many retries it goes to copy in/out. -/
  | copied
  deriving DecidableEq

def scheduleAfterAck (s : SendRequest) : SendRequest := if s.reqRecv then s.schedule else s

/-- `mca_pml_ob1_send_request_put_frag`. -/
def putFrag (length : ℕ) (outcome : PutOutcome) (s : SendRequest) : SendRequest :=
  match outcome with
  | .noFrag => (s.copyInOut 0).scheduleAfterAck
  | .issued n => { s with flight := s.flight ++ [.put n] }
  | .later => { s with rdmaPending := s.rdmaPending ++ [length] }
  | .copied => (s.copyInOut length).scheduleAfterAck

/-- `mca_pml_ob1_send_request_put`. -/
def put (length : ℕ) (ackFlag : Bool) (outcome : PutOutcome) (s : SendRequest) : SendRequest :=
  let s := { s with owed := s.owed - length }
  let s := if ackFlag then { s with reqState := s.reqState - 1, acked := true } else s
  s.putFrag length outcome

/-- `schedule_once` after a fragment has been handed to the BTL. -/
def fragSent (size : ℕ) (s : SendRequest) : SendRequest :=
  match s.sendRanges with
  | [] => s
  | length :: rest =>
    { s with
      sendRanges := if length - size = 0 then rest else (length - size) :: rest,
      pipelineDepth := addSize s.pipelineDepth 1 }

/-- `while (!unlock_send_request)` and what follows the loop. -/
def scheduleReturns (s : SendRequest) : SendRequest :=
  let s := { s with reqLock := s.reqLock - 1 }
  if s.reqLock = 0 then (pmlCompleteCheck { s with scheduling := false }).1 else s

end SendRequest

inductive Event
  /-- No BTL takes the first message: the request waits on the pending list. -/
  | postpone
  /-- The request is taken from the pending list to be started again. -/
  | restart
  /-- A rendezvous is set up, and its send fails for lack of resources. -/
  | attempt
  /-- The first message is sent, with `size` bytes of the data. -/
  | start (protocol : Protocol) (size : ℕ)
  | complete (i : ℕ) (ok : Bool)
  | ack (sendOffset : ℕ) (nordma : Bool)
  | nack
  | put (length : ℕ) (ackFlag : Bool) (outcome : SendRequest.PutOutcome)
  | retryPut (i : ℕ) (outcome : SendRequest.PutOutcome)
  /-- The scheduler sends a fragment that completes later. -/
  | fragment (size : ℕ)
  /-- The scheduler sends a fragment that completes before the send returns. -/
  | fragmentInline (size : ℕ) (ok : Bool)
  /-- No BTL takes a fragment: the request waits, still locked. -/
  | exhausted
  | scheduled
  /-- The scheduler resumes from the pending list. -/
  | resume
  | free
  | cancel
  deriving DecidableEq

open SendRequest

def step (s : SendRequest) : Event → SendRequest
  | .postpone => { s with pending := .start }
  | .restart => { s with pending := .none }
  | .attempt => { s with reqState := 2 }
  | .start .matched _ =>
    { s with protocol := some .matched, flight := [.matched s.bytesPacked] }
  | .start .rndv size =>
    { s with
      protocol := some .rndv, reqState := 2, flight := [.rndv size],
      owed := s.bytesPacked - size }
  | .start .rget size => { s with protocol := some .rget, flight := [.ctl, .get size] }
  | .complete i ok =>
    match s.flight[i]? with
    | none => s
    | some d => completion { s with flight := s.flight.eraseIdx i } ok d
  | .ack sendOffset nordma => s.ack sendOffset nordma
  | .nack => s.nack
  | .put length ackFlag outcome => s.put length ackFlag outcome
  | .retryPut i outcome =>
    match s.rdmaPending[i]? with
    | none => s
    | some length => putFrag length outcome { s with rdmaPending := s.rdmaPending.eraseIdx i }
  | .fragment size => fragSent size { s with flight := s.flight ++ [.frag size] }
  | .fragmentInline size ok => fragSent size (s.fragCompletion size ok)
  | .exhausted => { s with pending := .schedule, scheduling := false }
  | .scheduled => s.scheduleReturns
  | .resume => { s with pending := .none, scheduling := true }
  | .free => { s with freeCalled := true, returned := s.returned || s.pmlComplete }
  | .cancel => { s with mpiComplete := true }

/-- Too many fragments are in the pipeline for another one. -/
def throttled (sendPipelineDepth : ℕ) (s : SendRequest) : Prop :=
  s.throttleSends = true ∧ sendPipelineDepth ≤ s.pipelineDepth

instance (depth : ℕ) (s : SendRequest) : Decidable (throttled depth s) := by
  unfold throttled
  infer_instance

def PutOutcome.Fits (length : ℕ) : SendRequest.PutOutcome → Prop
  | .issued n => 0 < n ∧ n ≤ length
  | _ => True

/-- What the BTLs, the receiver, the scheduler and the user can do. The receiver
answers the first message once, and asks for no byte twice. -/
def Possible (sendPipelineDepth : ℕ) (s : SendRequest) : Event → Prop
  | .postpone => s.protocol = none ∧ s.pending = .none
  | .restart => s.protocol = none ∧ s.pending = .start
  | .attempt => s.protocol = none ∧ s.pending = .none
  | .start .matched _ => s.protocol = none ∧ s.pending = .none
  | .start .rndv size => s.protocol = none ∧ s.pending = .none ∧ size ≤ s.bytesPacked
  | .start .rget size =>
    s.protocol = none ∧ s.pending = .none ∧ 0 < size ∧ size ≤ s.bytesPacked
  | .complete i _ => i < s.flight.length
  | .ack sendOffset _ =>
    s.acked = false ∧ sendOffset ≤ s.bytesPacked ∧ (s.protocol = some .rget ∨
        s.protocol = some .rndv ∧ s.bytesPacked - sendOffset ≤ s.owed)
  | .nack => s.acked = false ∧ (s.protocol = some .rget ∨ s.protocol = some .rndv)
  | .put length ackFlag outcome =>
    s.protocol = some .rndv ∧ 0 < length ∧ length ≤ s.owed ∧
      (ackFlag = true → s.acked = false) ∧ PutOutcome.Fits length outcome
  | .retryPut i outcome =>
    outcome ≠ .noFrag ∧ ∃ length, s.rdmaPending[i]? = some length ∧ PutOutcome.Fits length outcome
  | .fragment size =>
    s.scheduling = true ∧ ¬throttled sendPipelineDepth s ∧
      ∃ length, s.sendRanges.head? = some length ∧ 0 < size ∧ size ≤ length
  | .fragmentInline size _ =>
    s.scheduling = true ∧ ¬throttled sendPipelineDepth s ∧
      ∃ length, s.sendRanges.head? = some length ∧ 0 < size ∧ size ≤ length
  | .exhausted =>
    s.scheduling = true ∧ ¬throttled sendPipelineDepth s ∧ s.sendRanges ≠ []
  | .scheduled => s.scheduling = true ∧ (s.sendRanges = [] ∨ throttled sendPipelineDepth s)
  | .resume => s.pending = .schedule
  | .free => s.freeCalled = false
  | .cancel => True

/-- No callback is running and nothing waits on a pending list. -/
def quiescent (s : SendRequest) : Prop := s.scheduling = false ∧ s.pending = .none

/-- The request is completed at most once, with nothing referring to it then;
and as long as every transfer has succeeded, it is complete exactly when all its
bytes have been carried and the acknowledgement, where one is expected, is in. -/
structure Lifetime (s : SendRequest) : Prop where
  once : s.completions ≤ 1
  clean : s.clean = true
  exact_when : s.failed = false → quiescent s → (s.pmlComplete = true ↔
      s.protocol ≠ none ∧ s.flight = [] ∧ s.carried = s.bytesPacked ∧
        (s.protocol = some .rndv → s.acked = true))

end Ulfm.SendReq
