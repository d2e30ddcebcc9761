import Mathlib.Data.List.FinRange
import Ulfm.Era.Value
import Ulfm.Foundation.Bytes

/-!
# The early terminating agreement

`mca_coll_ftbasic_agreement_eta_intra`, as all the members of a communicator run it.
A process goes through rounds. In each of them it posts a receive from and a send to
every process that is still needed, and calls `ompi_request_wait_all` until no request
is pending. It combines what it receives with its own value, and leaves when it knows
and has heard from everybody else that they know.

A message is copied when its send is posted, as the transport does with a message of
this size. The messages between two processes arrive in the order in which they were
sent. A request fails only if the peer is dead; the error codes other than
`MPI_ERR_PROC_FAILED` and `MPI_ERR_PENDING` come from outside the failure model and
are left out.
-/

namespace Ulfm

open List Function

namespace Eta

section Status

/-- `STATUS_CRASHED`. -/
def statusCrashed : BitVec 32 := 1#32 <<< 0

/-- `STATUS_ACRASHED`. -/
def statusAcrashed : BitVec 32 := 1#32 <<< 1 ||| statusCrashed

/-- `STATUS_TOLD_ME_HE_KNOWS`. -/
def statusToldMeHeKnows : BitVec 32 := 1#32 <<< 2

/-- `STATUS_KNOWS_I_KNOW`. -/
def statusKnowsIKnow : BitVec 32 := 1#32 <<< 3

/-- `STATUS_SEND_COMPLETE`. -/
def statusSendComplete : BitVec 32 := 1#32 <<< 4

/-- `STATUS_RECV_COMPLETE`. -/
def statusRecvComplete : BitVec 32 := 1#32 <<< 5

/-- `proc_status[i] & mask`, as a condition. -/
def isSet (status mask : BitVec 32) : Bool := status &&& mask != 0#32

end Status

/-- `ftbasic_eta_agreement_msg_t`. The value may be longer than the four bytes that the
structure has for it. -/
structure Msg where
  knows : BitVec 32
  pf : BitVec 32
  estValue : List UInt8
deriving DecidableEq

def Msg.bytes (m : Msg) : List UInt8 := wordBytes m.knows ++ (wordBytes m.pf ++ m.estValue)

/-- What an access to the fields of a message finds in memory. -/
def Msg.ofBytes (bs : List UInt8) : Msg where
  knows := (readWord 32 bs).1
  pf := (readWord 32 (readWord 32 bs).2).1
  estValue := (readWord 32 (readWord 32 bs).2).2

/-- `sizeof(ftbasic_eta_agreement_msg_t)`. -/
def sizeofMsg : ℕ := 12

/-- What does not change: the number of bytes of the value, the contributions, and
`ompi_op_reduce` for the operation and the datatype of the call. -/
structure Config (np : ℕ) where
  valueSize : ℕ
  contrib : Fin np → List UInt8
  length_contrib : ∀ i, (contrib i).length = valueSize
  reduce : List UInt8 → List UInt8 → List UInt8

/-- `msg_size`. -/
def Config.msgSize {np : ℕ} (cfg : Config np) : ℕ := sizeofMsg - 4 + cfg.valueSize

inductive Phase where
  /-- Before the call. -/
  | idle
  /-- In the loop that posts the requests, at the rank `i`. -/
  | posting (i : ℕ)
  /-- Before a call of `ompi_request_wait_all`. -/
  | waiting
  | returned
deriving DecidableEq

/-- What `ompi_request_wait_all` reports of a request. -/
inductive Completion where
  | success
  | procFailed
  | pending
deriving DecidableEq

/-- The variables of a process. The array `in` is its bytes by their offset. -/
structure Proc (np : ℕ) where
  phase : Phase
  round : ℕ
  procStatus : Fin np → BitVec 32
  out : Msg
  inBytes : ℕ → UInt8
  nr : ℕ
  nbrecv : ℕ

variable {np : ℕ}

namespace Proc

/-- The function up to its loop, with the ranks `cranks` of the acknowledged failures. -/
def start (cfg : Config np) (me : Fin np) (cranks : List (Fin np)) : Proc np where
  phase := .posting 0
  round := 1
  procStatus i := if i ∈ cranks then statusAcrashed else 0#32
  out := ⟨0#32, 0#32, cfg.contrib me⟩
  inBytes _ := 0
  nr := 0
  nbrecv := 0

/-- `NEED_TO_RECV`. -/
def needToRecv (p : Proc np) (me i : Fin np) : Bool :=
  me ≠ i && !isSet (p.procStatus i) statusCrashed && !isSet (p.procStatus i) statusToldMeHeKnows

/-- `NEED_TO_SEND`. -/
def needToSend (p : Proc np) (me i : Fin np) : Bool :=
  me ≠ i && !isSet (p.procStatus i) statusCrashed && !isSet (p.procStatus i) statusKnowsIKnow

def setStatus (p : Proc np) (i : Fin np) (status : BitVec 32) : Proc np :=
  { p with procStatus := update p.procStatus i status }

/-- The flags of the requests that the posting loop posts for the rank `i`. -/
def postRequests (p : Proc np) (me i : Fin np) : Proc np :=
  let p := if p.needToRecv me i then p.setStatus i (p.procStatus i &&& ~~~statusRecvComplete)
    else p.setStatus i (p.procStatus i ||| statusRecvComplete)
  if p.needToSend me i then p.setStatus i (p.procStatus i &&& ~~~statusSendComplete)
  else p.setStatus i (p.procStatus i ||| statusSendComplete)

/-- The posting loop goes on to the next rank. -/
def nextRank (p : Proc np) (i : ℕ) : Proc np :=
  { p with phase := if i + 1 = np then .waiting else .posting (i + 1) }

/-- The requests of the rank `i` that have not been seen to complete. -/
def recvOpen (p : Proc np) (i : Fin np) : Bool := !isSet (p.procStatus i) statusRecvComplete

@[inherit_doc recvOpen]
def sendOpen (p : Proc np) (i : Fin np) : Bool := !isSet (p.procStatus i) statusSendComplete

/-- A received message is written at its place in the array `in`. -/
def store (cfg : Config np) (p : Proc np) (i : Fin np) (m : Msg) : Proc np :=
  { p with inBytes := fun a =>
      if i * cfg.msgSize ≤ a ∧ a < i * cfg.msgSize + m.bytes.length then
        m.bytes.getD (a - i * cfg.msgSize) 0
      else p.inBytes a }

/-- The messages of the receives that have completed. -/
def storeAll (cfg : Config np) (p : Proc np) (arrived : Fin np → Option Msg) : Proc np :=
  (finRange np).foldl
    (fun p i => match arrived i with | some m => p.store cfg i m | none => p) p

/-- `in[i]`. -/
def inAt (cfg : Config np) (p : Proc np) (i : Fin np) : Msg :=
  Msg.ofBytes ((range cfg.msgSize).map fun k => p.inBytes (i * sizeofMsg + k))

/-- What the loop over the completed requests does with the receive from `i`. -/
def harvestRecv (cfg : Config np) (i : Fin np) (c : Completion) (p : Proc np) : Proc np :=
  if p.recvOpen i then
    match c with
    | .success =>
      let m := p.inAt cfg i
      { p with
        out := { p.out with
          estValue := cfg.reduce m.estValue p.out.estValue
          pf := p.out.pf ||| m.pf }
        nbrecv := p.nbrecv + 1 }.setStatus i
          (p.procStatus i ||| (m.knows * statusToldMeHeKnows ||| statusRecvComplete))
    | .procFailed =>
      { p with out := { p.out with pf := 1#32 } }.setStatus i
        (p.procStatus i ||| (statusCrashed ||| statusRecvComplete))
    | .pending => { p with nr := p.nr + 1 }
  else p

/-- What it does with the send to `i`. -/
def harvestSend (i : Fin np) (c : Completion) (p : Proc np) : Proc np :=
  if p.sendOpen i then
    match c with
    | .success =>
      p.setStatus i (p.procStatus i |||
        (p.out.knows * statusKnowsIKnow ||| statusSendComplete))
    | .procFailed =>
      { p with out := { p.out with pf := 1#32 } }.setStatus i
        (p.procStatus i ||| (statusCrashed ||| statusSendComplete))
    | .pending => { p with nr := p.nr + 1 }
  else p

def harvest (cfg : Config np) (recv send : Fin np → Completion) (p : Proc np) : Proc np :=
  (finRange np).foldl
    (fun p i => harvestSend i (send i) (harvestRecv cfg i (recv i) p))
    { p with nr := 0, nbrecv := 0 }

/-- `nbcrashed`. -/
def nbcrashed (p : Proc np) : ℕ :=
  (finRange np).countP fun i => isSet (p.procStatus i) statusCrashed

/-- `nbknow`. -/
def nbknow (p : Proc np) : ℕ :=
  (finRange np).countP fun i =>
    !isSet (p.procStatus i) statusCrashed && isSet (p.procStatus i) statusToldMeHeKnows

/-- The end of a round, and the condition of the loop over the rounds. -/
def endRound (p : Proc np) : Proc np :=
  if (np : ℤ) - 1 ≤ p.nbknow + p.nbcrashed ∧ p.out.knows = 1#32 then
    { p with phase := .returned }
  else
    { p with
      out := { p.out with
        knows := if 0 < p.nbknow ∨ (np : ℤ) - p.round + 1 ≤ p.nbrecv then 1#32 else 0#32 }
      round := p.round + 1
      phase := if p.round + 1 ≤ np + 1 then .posting 0 else .returned }

/-- What follows a call of `ompi_request_wait_all`. -/
def afterWait (cfg : Config np) (recv send : Fin np → Completion) (p : Proc np) : Proc np :=
  let p := p.harvest cfg recv send
  if p.nr ≠ 0 then p else p.endRound

def ret (p : Proc np) : ℤ := if p.out.pf ≠ 0#32 then mpiErrProcFailed else mpiSuccess

def failedGroup (p : Proc np) : List (Fin np) :=
  (finRange np).filter fun i => isSet (p.procStatus i) statusCrashed

end Proc

/-- All the processes, the dead ones, and what each process has sent to each other one,
oldest first. The process `j` has taken the first `taken j i` messages of `i`. -/
structure World (np : ℕ) where
  procs : Fin np → Proc np
  dead : Fin np → Bool
  sent : Fin np → Fin np → List Msg
  taken : Fin np → Fin np → ℕ

inductive Event (np : ℕ) where
  /-- A process calls the function, with the ranks of its acknowledged failures. -/
  | start (me : Fin np) (cranks : List (Fin np))
  /-- The posting loop of a process handles one rank. -/
  | post (me : Fin np)
  /-- A call of `ompi_request_wait_all` returns, and the loop behind it runs. -/
  | waitAll (me : Fin np) (recv send : Fin np → Completion)
  | crash (i : Fin np)

namespace World

def init (np : ℕ) : World np where
  procs _ := ⟨.idle, 0, fun _ => 0#32, ⟨0#32, 0#32, []⟩, fun _ => 0, 0, 0⟩
  dead _ := false
  sent _ _ := []
  taken _ _ := 0

def setProc (w : World np) (me : Fin np) (p : Proc np) : World np :=
  { w with procs := update w.procs me p }

/-- The receives of `me` that complete with success. -/
def receives (w : World np) (me : Fin np) (recv : Fin np → Completion) (i : Fin np) : Bool :=
  (w.procs me).recvOpen i && recv i = .success

/-- The message that a receive from `i` completes with. -/
def arrived (w : World np) (me : Fin np) (recv : Fin np → Completion) (i : Fin np) : Option Msg :=
  if w.receives me recv i then (w.sent i me)[w.taken me i]? else none

/-- What `ompi_request_wait_all` may report: a receive succeeds with a message that has
been sent, a request fails only if the peer is dead, and requests are left pending only
if one has failed. -/
def MayReport (w : World np) (me : Fin np) (recv send : Fin np → Completion) : Prop :=
  (∀ i, w.receives me recv i → w.taken me i < (w.sent i me).length) ∧
  (∀ i, (w.procs me).recvOpen i → recv i = .procFailed → w.dead i) ∧
  (∀ i, (w.procs me).sendOpen i → send i = .procFailed → w.dead i) ∧
  ((∃ i, (w.procs me).recvOpen i ∧ recv i = .pending ∨
      (w.procs me).sendOpen i ∧ send i = .pending) →
    ∃ i, (w.procs me).recvOpen i ∧ recv i = .procFailed ∨
      (w.procs me).sendOpen i ∧ send i = .procFailed)

instance (w : World np) (me : Fin np) (recv send : Fin np → Completion) :
    Decidable (w.MayReport me recv send) :=
  inferInstanceAs (Decidable (_ ∧ _ ∧ _ ∧ _))

/-- The posting loop at the rank `i`. -/
def post (w : World np) (me i : Fin np) : World np :=
  let p := (w.procs me).postRequests me i
  { w with
    procs := update w.procs me (p.nextRank i)
    sent := fun j k =>
      if j = me ∧ k = i ∧ (w.procs me).needToSend me i then w.sent j k ++ [p.out]
      else w.sent j k }

/-- The return of `ompi_request_wait_all`. -/
def waitAll (cfg : Config np) (w : World np) (me : Fin np) (recv send : Fin np → Completion) :
    World np :=
  { w with
    procs := update w.procs me
      (((w.procs me).storeAll cfg (w.arrived me recv)).afterWait cfg recv send)
    taken := fun j i =>
      if j = me ∧ w.receives me recv i then w.taken j i + 1 else w.taken j i }

/-- One event. An event that cannot happen changes nothing. -/
def step (cfg : Config np) (w : World np) : Event np → World np
  | .start me cranks =>
    if w.dead me = false ∧ (w.procs me).phase = .idle ∧ ∀ i ∈ cranks, w.dead i then
      w.setProc me (.start cfg me cranks)
    else w
  | .post me =>
    match (w.procs me).phase with
    | .posting i =>
      if h : w.dead me = false ∧ i < np then w.post me ⟨i, h.2⟩ else w
    | _ => w
  | .waitAll me recv send =>
    if w.dead me = false ∧ (w.procs me).phase = .waiting ∧ w.MayReport me recv send then
      w.waitAll cfg me recv send
    else w
  | .crash i => { w with dead := update w.dead i true }

end World

end Eta

end Ulfm
