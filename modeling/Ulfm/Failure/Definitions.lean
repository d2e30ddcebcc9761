import Ulfm.Group.Definitions

/-!
# Communicators and failure notifications of one process

The part of a process's state that a failure notification touches: which peers
are active, the communicator objects, the table `ompi_mpi_communicators` that
`ompi_errmgr_mark_failed_peer` scans, and the group of all the processes known
to have failed.

A communicator object exists from `ompi_comm_set` (or `ompi_topo_create`) on, but
it stands in the table only once `ompi_comm_nextcid` has found its context id.
While `ompi_comm_nextcid` runs, the candidate slots hold the *parent*
communicator, so that one communicator can occupy several slots.
-/

namespace Ulfm

open List Function

variable {P : Type}

/-- The groups of a communicator. An intra-communicator has one group object,
which is both its local and its remote group; the groups of an
inter-communicator are disjoint (`MPI_Intercomm_create` checks it). -/
structure CommGroups (P : Type) where
  localGroup : ProcGroup P
  remoteGroup : ProcGroup P
  isInter : Bool
  remote_eq_local : isInter = false → remoteGroup = localGroup
  disjoint : isInter = true → ∀ p ∈ localGroup, p ∉ remoteGroup

def CommGroups.intra (g : ProcGroup P) : CommGroups P where
  localGroup := g
  remoteGroup := g
  isInter := false
  remote_eq_local := fun _ => rfl
  disjoint := fun h => nomatch h

/-- The fields of `ompi_communicator_t` that the failure handling uses.
`allocated` is the size of the local group at the time the counters are set. -/
structure Communicator (P : Type) extends CommGroups P where
  contextId : Option Nat
  allocated : Nat
  anySourceEnabled : Bool
  anySourceOffset : Nat
  collRevoked : Bool
  numActiveLocal : Int
  numActiveRemote : Int

namespace Communicator

instance : Membership P (Communicator P) :=
  ⟨fun comm p => p ∈ comm.localGroup ∨ p ∈ comm.remoteGroup⟩

theorem mem_def {comm : Communicator P} {p : P} :
    p ∈ comm ↔ p ∈ comm.localGroup ∨ p ∈ comm.remoteGroup := Iff.rfl

instance [DecidableEq P] (comm : Communicator P) (p : P) : Decidable (p ∈ comm) :=
  inferInstanceAs (Decidable (p ∈ comm.localGroup ∨ p ∈ comm.remoteGroup))

/-- The fields that `ompi_comm_set` and `ompi_topo_create` give to a new
communicator, from the size of the local group they allocate. -/
def new (groups : CommGroups P) (allocated : Nat) : Communicator P where
  toCommGroups := groups
  contextId := none
  allocated := allocated
  anySourceEnabled := true
  anySourceOffset := 0
  collRevoked := false
  numActiveLocal := allocated
  numActiveRemote := if groups.isInter then groups.remoteGroup.size else allocated

/-- The look-up of `ompi_errmgr_mark_failed_peer`: the rank of the process in the
local group, or in the remote group if that is another one. -/
def lookup [DecidableEq P] (comm : Communicator P) (p : P) : Option (Nat × Bool) :=
  match comm.localGroup.peerLookupId p with
  | some rank => some (rank, false)
  | none =>
    if comm.isInter then (comm.remoteGroup.peerLookupId p).map fun rank => (rank, true)
    else none

/-- `ompi_comm_set_rank_failed`. -/
def setRankFailed (comm : Communicator P) (remote : Bool) : Communicator P :=
  { comm with
    anySourceEnabled := false
    collRevoked := true
    numActiveLocal := if remote then comm.numActiveLocal else comm.numActiveLocal - 1
    numActiveRemote := if remote then comm.numActiveRemote - 1 else comm.numActiveRemote }

/-- What one slot of the table does to the communicator it holds. -/
def notify [DecidableEq P] (comm : Communicator P) (p : P) : Communicator P :=
  match comm.lookup p with
  | some (_, remote) => comm.setRankFailed remote
  | none => comm

/-- The group that `ompi_errmgr_mark_failed_peer` builds from the first
communicator in which it finds the process. -/
def failedGroup [DecidableEq P] (comm : Communicator P) (p : P) : Option (ProcGroup P) :=
  (comm.lookup p).map fun (rank, remote) =>
    (if remote then comm.remoteGroup else comm.localGroup).inclPlist [rank]
      (nodup_singleton rank)

/-- `ompi_comm_failure_ack_internal`, at a process with the given group of failed
processes. -/
def failureAck (comm : Communicator P) (allFailed : ProcGroup P) : Communicator P :=
  { comm with
    anySourceEnabled := true
    anySourceOffset := allFailed.size }

/-- `ompi_comm_failure_get_acked_internal`. -/
def failureGetAcked [DecidableEq P] (comm : Communicator P) (allFailed : ProcGroup P) :
    ProcGroup P :=
  if comm.anySourceOffset = 0 then ProcGroup.empty
  else
    let sub := allFailed.rangeIncl [ProcGroup.upTo comm.anySourceOffset]
      (ProcGroup.nodup_ranks_upTo _)
    if comm.isInter then sub.intersection comm.localGroup
    else sub.intersection comm.remoteGroup

end Communicator

/-- The state of a process: `ompi_proc_is_active` of its peers, the communicator
objects by address, the table of communicators and
`ompi_group_all_failed_procs`. -/
structure FtProcess (P : Type) where
  active : P → Bool
  comms : Nat → Option (Communicator P)
  table : List (Option Nat)
  allFailed : ProcGroup P

/-- The operations that a process can run on this state. A `nextcid` call is cut
into what it does to single slots: `reserve` puts the parent into a free slot,
`release` empties a reserved slot and `register` puts the new communicator into
a reserved slot. -/
inductive FtAction (P : Type) where
  | commSet (c : Nat) (groups : CommGroups P)
  | topoCreate (c parent : Nat) (topo : ProcGroup P)
  | reserve (parent slot : Nat)
  | release (slot : Nat)
  | register (c slot : Nat)
  | free (c : Nat)
  | fail (p : P)
  | ack (c : Nat)

namespace FtProcess

/-- What a slot of the table holds; the slots behind the end are free. -/
def slot (w : FtProcess P) (i : Nat) : Option Nat := w.table[i]?.join

/-- `opal_pointer_array_set_item`: the table grows as needed. -/
def setSlot (table : List (Option Nat)) (i : Nat) (v : Option Nat) : List (Option Nat) :=
  (table ++ replicate (i + 1 - table.length) none).set i v

/-- The communicator object of a slot, when the slot is one that `nextcid` has
reserved: the communicator in it has another context id. -/
def reservedBy (w : FtProcess P) (i : Nat) : Option Nat :=
  match w.slot i with
  | none => none
  | some c =>
    match w.comms c with
    | none => none
    | some comm => if comm.contextId = some i then none else some c

/-- One slot of the scan of `ompi_errmgr_mark_failed_peer`. -/
def scanSlot [DecidableEq P] (p : P)
    (acc : (Nat → Option (Communicator P)) × Option (ProcGroup P)) (entry : Option Nat) :
    (Nat → Option (Communicator P)) × Option (ProcGroup P) :=
  match entry with
  | none => acc
  | some c =>
    match acc.1 c with
    | none => acc
    | some comm => (update acc.1 c (some (comm.notify p)), acc.2.or (comm.failedGroup p))

/-- `ompi_errmgr_mark_failed_peer`. -/
def markFailedPeer [DecidableEq P] (w : FtProcess P) (p : P) : FtProcess P :=
  if w.active p then
    let scanned := w.table.foldl (scanSlot p) (w.comms, none)
    { w with
      active := update w.active p false
      comms := scanned.1
      allFailed :=
        match scanned.2 with
        | some group => w.allFailed.union group
        | none => w.allFailed }
  else w

/-- One operation, `none` when the process is not in a state to run it. -/
def step [DecidableEq P] (w : FtProcess P) : FtAction P → Option (FtProcess P)
  | .commSet c groups =>
    if (w.comms c).isNone then
      some { w with
        comms := update w.comms c (some (.new groups groups.localGroup.size)) }
    else none
  | .topoCreate c parent topo =>
    match w.comms parent with
    | none => none
    | some comm =>
      -- the topology component keeps some processes of the parent
      if (w.comms c).isNone ∧ topo.procs ⊆ comm.localGroup.procs then
        some { w with
          comms := update w.comms c
            (some (.new (.intra topo) comm.localGroup.size)) }
      else none
  | .reserve parent i =>
    match w.comms parent with
    | none => none
    | some comm =>
      if comm.contextId.isSome ∧ w.slot i = none then
        some { w with table := setSlot w.table i (some parent) }
      else none
  | .release i =>
    if (w.reservedBy i).isSome then some { w with table := setSlot w.table i none } else none
  | .register c i =>
    match w.comms c with
    | none => none
    | some comm =>
      if comm.contextId = none ∧ (w.reservedBy i).isSome then
        some { w with
          table := setSlot w.table i (some c)
          comms := update w.comms c (some { comm with contextId := some i }) }
      else none
  | .free c =>
    match w.comms c with
    | none => none
    | some comm =>
      match comm.contextId with
      | none => some { w with comms := update w.comms c none }
      | some i =>
        -- no `nextcid` call with this communicator as its parent is in progress
        if w.table.count (some c) = 1 then
          some { w with
            comms := update w.comms c none
            table := setSlot w.table i none }
        else none
  | .fail p => some (w.markFailedPeer p)
  | .ack c =>
    match w.comms c with
    | none => none
    | some comm => some { w with
        comms := update w.comms c (some (comm.failureAck w.allFailed)) }

def exec [DecidableEq P] (w : FtProcess P) : List (FtAction P) → Option (FtProcess P)
  | [] => some w
  | a :: as => (w.step a).bind fun w' => w'.exec as

/-- `ompi_comm_init`: `MPI_COMM_WORLD` in slot 0, `MPI_COMM_SELF` in slot 1 and
`MPI_COMM_NULL`, which has no members, in slot 2. -/
def init (world self : ProcGroup P) : FtProcess P where
  active := fun _ => true
  comms := fun c =>
    match c with
    | 0 => some { Communicator.new (.intra world) world.size with contextId := some 0 }
    | 1 => some { Communicator.new (.intra self) self.size with contextId := some 1 }
    | 2 => some { Communicator.new (.intra ProcGroup.empty) 0 with contextId := some 2 }
    | _ => none
  table := [some 0, some 1, some 2]
  allFailed := ProcGroup.empty

end FtProcess

end Ulfm
