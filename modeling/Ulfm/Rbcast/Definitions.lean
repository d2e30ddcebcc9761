import Ulfm.Failure.Definitions

/-!
# The reliable broadcast

`comm_ft_reliable_bcast.c` with its two users, the revocation of a communicator
(`comm_ft_revoke.c`) and the propagation of a failure (`comm_ft_propagate.c`). The
message types of the C code are the indices under which the two callbacks are
registered; here a message carries its type, and a failure message the process it
is about.

The system is a set of processes with their tables of communicators, and the
fragments on their way between them. The transport is outside of the model: an
event that sends comes with the answers of `ompi_comm_rbcast_bml_send_msg`, one for
each destination. A process may die at any time. The fragments from or to a dead
process may get lost, so that a process that dies in the loop of
`ompi_comm_rbcast_bmg` is one whose later fragments are lost.
-/

namespace Ulfm

open Function

namespace Rbcast

/-- `orte_process_name_t`. -/
structure ProcName where
  jobid : Nat
  vpid : Nat
deriving DecidableEq

/-- `orte_util_compare_name_fields` for the fields job id and virtual process id. -/
def compareNameFields (name₁ name₂ : ProcName) : Ordering :=
  (compare name₁.jobid name₂.jobid).then (compare name₁.vpid name₂.vpid)

/-- The fields of `ompi_communicator_t` that the broadcast uses. -/
structure Comm extends CommGroups ProcName where
  rank : Nat
  contextId : Nat
  epoch : Nat
  anySourceEnabled : Bool
  collRevoked : Bool
  commRevoked : Bool

/-- The type of a message: which callback it is for. -/
inductive MsgType where
  | revoke
  | failurePropagate (proc : ProcName)
deriving DecidableEq

/-- `ompi_comm_rbcast_message_t`. -/
structure Msg where
  cid : Nat
  epoch : Nat
  type : MsgType
deriving DecidableEq

/-- What `ompi_comm_rbcast_bml_send_msg` returns. -/
inductive SendStatus where
  | success
  | unreach
  | outOfResource
deriving DecidableEq

/-- `ompi_comm_determine_first_auto`: the first group is the one whose first
process has the smaller name. -/
def determineFirstAuto (groups : CommGroups ProcName) : Bool :=
  match groups.localGroup.peerLookup 0, groups.remoteGroup.peerLookup 0 with
  | some ourproc, some theirproc => compareNameFields ourproc theirproc = .lt
  | _, _ => false

/-- The groups that `ompi_comm_rbcast_bmg` numbers through: `lgrp` and `hgrp`. The
second one is not used in an intra-communicator. -/
def lgrp (groups : CommGroups ProcName) : ProcGroup ProcName :=
  if groups.isInter then
    if determineFirstAuto groups then groups.localGroup else groups.remoteGroup
  else groups.localGroup

@[inherit_doc lgrp]
def hgrp (groups : CommGroups ProcName) : ProcGroup ProcName :=
  if groups.isInter then
    if determineFirstAuto groups then groups.remoteGroup else groups.localGroup
  else .empty

/-- `np` of `ompi_comm_rbcast_bmg`. -/
def size (groups : CommGroups ProcName) : Nat :=
  if groups.isInter then groups.localGroup.size + groups.remoteGroup.size
  else groups.localGroup.size

/-- `me` of `ompi_comm_rbcast_bmg`. -/
def Comm.me (comm : Comm) : Nat :=
  if comm.isInter then
    if determineFirstAuto comm.toCommGroups then comm.rank
    else comm.rank + comm.remoteGroup.size
  else comm.rank

/-- The loop of `ompi_comm_rbcast_bmg`: the indices at distance `i`, `2 * i`, ... in
both directions. As `i` doubles, `np` rounds are enough. -/
def bmgIndices (np me : Nat) : Nat → Nat → List Nat
  | 0, _ => []
  | rounds + 1, i =>
    if i ≤ np / 2 then
      (np + me + i) % np :: (np + me - i) % np :: bmgIndices np me rounds (i * 2)
    else []

def procOfIndex (groups : CommGroups ProcName) (idx : Nat) : Option ProcName :=
  if idx < (lgrp groups).size then (lgrp groups).peerLookup idx
  else (hgrp groups).peerLookup (idx - (lgrp groups).size)

/-- The processes to which `ompi_comm_rbcast_bmg` sends, in its order. -/
def Comm.bmgPeers (comm : Comm) : List ProcName :=
  let np := size comm.toCommGroups
  (bmgIndices np comm.me np 1).filterMap (procOfIndex comm.toCommGroups)

/-- The sends of `ompi_comm_rbcast_bmg`: an unreachable process is skipped, and any
other error ends the loop. The processes that a fragment is on its way to, and the
return value. -/
def sendMsgs (send : ProcName → SendStatus) : List ProcName → List ProcName × SendStatus
  | [] => ([], .success)
  | proc :: procs =>
    match send proc with
    | .success => ((proc :: (sendMsgs send procs).1), (sendMsgs send procs).2)
    | .unreach => sendMsgs send procs
    | .outOfResource => ([], .outOfResource)

/-- `ompi_comm_rbcast_bmg`. -/
def rbcastBmg (send : ProcName → SendStatus) (comm : Comm) : List ProcName × SendStatus :=
  sendMsgs send comm.bmgPeers

/-- `ompi_comm_revoke_local`, with the flags that `mca_pml_ob1_revoke_comm` sets. -/
def Comm.revokeLocal (comm : Comm) : Comm × Bool :=
  if comm.commRevoked then (comm, false)
  else
    ({ comm with anySourceEnabled := false, collRevoked := true, commRevoked := true }, true)

/-- The state of a process: the table of communicators and `ompi_proc_is_active` of
its peers. -/
structure Proc where
  comms : Nat → Option Comm
  active : ProcName → Bool

/-- `ompi_comm_failure_propagate_local`, and what `ompi_errmgr_mark_failed_peer` does
before it propagates: nothing if the failure is known. -/
def Proc.markFailed (s : Proc) (proc : ProcName) : Proc × Bool :=
  if s.active proc then ({ s with active := update s.active proc false }, true)
  else (s, false)

/-- The callback of a message type, for the communicator found in slot `cid`. -/
def Proc.callback (s : Proc) (cid : Nat) (comm : Comm) : MsgType → Proc × Bool
  | .revoke =>
    ({ s with comms := update s.comms cid (some comm.revokeLocal.1) }, comm.revokeLocal.2)
  | .failurePropagate proc => s.markFailed proc

/-- `ompi_comm_rbcast_bml_recv_cb`: the new state, and the communicator on which the
message is forwarded if the callback had an effect. -/
def Proc.recvCb (s : Proc) (msg : Msg) : Proc × Option (Comm × Msg) :=
  match s.comms msg.cid with
  | none => (s, none)
  | some comm =>
    -- the slot may be held by a parent communicator during `ompi_comm_nextcid`
    if msg.cid ≠ comm.contextId then (s, none)
    -- a late message for a communicator whose context id was reused
    else if comm.epoch ≠ msg.epoch then (s, none)
    else
      ((s.callback msg.cid comm msg.type).1,
        if (s.callback msg.cid comm msg.type).2 then some (comm, msg) else none)

/-- `ompi_comm_revoke_internal` on the communicator of slot `cid`: the new state, and
the broadcast that it starts. -/
def Proc.revoke (s : Proc) (cid : Nat) : Proc × Option (Comm × Msg) :=
  match s.comms cid with
  | none => (s, none)
  | some comm =>
    if comm.contextId ≠ cid then (s, none)
    else
      ((s.callback cid comm .revoke).1, if (s.callback cid comm .revoke).2 then
          some (comm, ⟨comm.contextId, comm.epoch, .revoke⟩)
        else none)

/-- `ompi_errmgr_mark_failed_peer` and `ompi_comm_failure_propagate`, which uses
`MPI_COMM_WORLD`. -/
def Proc.failurePropagate (s : Proc) (proc : ProcName) : Proc × Option (Comm × Msg) :=
  match s.comms 0 with
  | none => ((s.markFailed proc).1, none)
  | some world =>
    ((s.markFailed proc).1, if (s.markFailed proc).2 then
        some (world, ⟨world.contextId, world.epoch, .failurePropagate proc⟩)
      else none)

/-- A fragment of the broadcast on its way. -/
structure Packet where
  src : ProcName
  dst : ProcName
  msg : Msg
deriving DecidableEq

/-- What is recorded of a run: a callback that had an effect, after which the message
is sent on, and the arrival of a fragment. -/
inductive Note where
  | effect (proc : ProcName) (msg : Msg)
  | arrival (packet : Packet)
deriving DecidableEq

/-- All processes, the dead ones among them, the fragments on their way and the
record of the run, the last note first. -/
structure World where
  procs : ProcName → Proc
  dead : Finset ProcName
  wire : List Packet
  log : List Note

/-- What can happen. The argument `send` gives the answers of the transport to the
sends of the event. -/
inductive Event where
  | revoke (p : ProcName) (cid : Nat) (send : ProcName → SendStatus)
  | markFailed (p proc : ProcName) (send : ProcName → SendStatus)
  | deliver (k : Nat) (send : ProcName → SendStatus)
  | lose (k : Nat)
  | crash (p : ProcName)

namespace World

/-- A handler of a process has run. If its callback had an effect, the message goes where
`ompi_comm_rbcast` sends it. -/
def run (rbcast : (ProcName → SendStatus) → Comm → List ProcName × SendStatus) (w : World)
    (p : ProcName) (send : ProcName → SendStatus) (result : Proc × Option (Comm × Msg)) : World :=
  match result.2 with
  | none => { w with procs := update w.procs p result.1 }
  | some (comm, msg) =>
    { w with
      procs := update w.procs p result.1
      wire := w.wire ++ (rbcast send comm).1.map fun q => ⟨p, q, msg⟩
      log := .effect p msg :: w.log }

/-- The state in which a fragment has arrived and its handler has not run. -/
def arrived (w : World) (k : ℕ) (packet : Packet) : World :=
  { w with wire := w.wire.eraseIdx k, log := .arrival packet :: w.log }

def stepWith (rbcast : (ProcName → SendStatus) → Comm → List ProcName × SendStatus) (w : World) :
    Event → World
  | .revoke p cid send =>
    if p ∈ w.dead then w else w.run rbcast p send ((w.procs p).revoke cid)
  | .markFailed p proc send =>
    if p ∈ w.dead then w else w.run rbcast p send ((w.procs p).failurePropagate proc)
  | .deliver k send =>
    match w.wire[k]? with
    | none => w
    | some packet =>
      if packet.dst ∈ w.dead then { w with wire := w.wire.eraseIdx k }
      else (w.arrived k packet).run rbcast packet.dst send
        ((w.procs packet.dst).recvCb packet.msg)
  | .lose k =>
    match w.wire[k]? with
    | none => w
    | some packet =>
      if packet.src ∈ w.dead ∨ packet.dst ∈ w.dead then
        { w with wire := w.wire.eraseIdx k }
      else w
  | .crash p => { w with dead := insert p w.dead }

/-- `ompi_comm_rbcast` is `ompi_comm_rbcast_bmg`. -/
def step (w : World) (e : Event) : World := w.stepWith rbcastBmg e

end World

end Rbcast

end Ulfm
