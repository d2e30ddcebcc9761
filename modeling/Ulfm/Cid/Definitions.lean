import Ulfm.Failure.Definitions
import Mathlib.Algebra.Order.Ring.Int

/-!
# The allocation of context ids

`ompi_comm_nextcid` of `comm_cid.c`. A call reserves free slots of the table
`ompi_mpi_communicators` as candidates, and the members of the communicator reduce
their candidates to those that all of them have. If the reduction leaves no
candidate to take, the slots are released and the call tries again, from the largest
slot that some member has looked at.

The candidates of a process stand in the static array `cid_lCIDs`, and the result of
the reduction in `cid_gCIDs`: all the calls of a process share the two arrays. A call
of a process takes its turn when the context id of its communicator is the lowest
one among the calls in progress.
-/

namespace Ulfm

open Function

namespace Cid

/-- `cid_redux_elem_t`. -/
structure Elem where
  cid : Nat
  epoch : Nat
deriving DecidableEq

/-- The arrays `cid_lCIDs` and `cid_gCIDs`: the context id of the entry 0, and the
entries from 1 on up to the first one whose context id is 0. The entries behind these
have context id 0, and their epochs are never read. -/
structure CidArray where
  first : Nat
  avail : List Elem
deriving DecidableEq

/-- The entries from 1 on of an array with `cid_redux_size` entries. -/
def CidArray.entries (size : Nat) (a : CidArray) : List Elem :=
  a.avail ++ List.replicate (size - 1 - a.avail.length) ⟨0, 0⟩

section Reduction

/-- The loop over `j` of `cid_redux_fn`, from `out[j]` to `out[n]`. An entry that the
other side does not have is replaced by the last one. -/
def reduxLoop (inn : List Elem) : Nat → List Elem → List Elem
  | _, [] => []
  | 0, _ => []
  | rounds + 1, e :: out =>
    match inn.find? (·.cid = e.cid) with
    | some e' => { e with epoch := max e.epoch e'.epoch } :: reduxLoop inn rounds out
    | none =>
      match out.getLast? with
      | none => []
      | some last => reduxLoop inn rounds (last :: out.dropLast)

/-- `cid_redux_fn`: what becomes of `out`. -/
def cidReduxFn (inn out : CidArray) : CidArray where
  first := max out.first inn.first
  avail := reduxLoop inn.avail out.avail.length out.avail

/-- The order in which an allreduce combines the contributions. -/
inductive ReduxTree (P : Type) where
  | leaf (p : P)
  | node (inn out : ReduxTree P)

/-- The contributions of a reduction, in the order of the leaves. -/
def ReduxTree.leaves {P : Type} : ReduxTree P → List P
  | .leaf p => [p]
  | .node inn out => inn.leaves ++ out.leaves

/-- The result of a reduction, once every process has contributed. -/
def ReduxTree.eval {P : Type} (contribution : P → Option CidArray) : ReduxTree P → Option CidArray
  | .leaf p => contribution p
  | .node inn out =>
    match inn.eval contribution, out.eval contribution with
    | some a, some b => some (cidReduxFn a b)
    | _, _ => none

/-- "Take the min": the first one of the entries with the least context id. -/
def takeMin : List Elem → Elem
  | [] => ⟨0, 0⟩
  | e :: entries => entries.foldl (fun best e => if e.cid < best.cid then e else best) e

end Reduction

section Table

/-- The item of a slot of `ompi_mpi_communicators`. -/
def slot (table : List (Option Nat)) (i : Nat) : Option Nat := table[i]?.join

/-- `highest_taken` of the table. Slot 0 holds `MPI_COMM_WORLD`. -/
def highestTaken : List (Option Nat) → Nat
  | [] => 0
  | _ :: table => if table.any Option.isSome then highestTaken table + 1 else 0

/-- The loop of `ompi_comm_nextcid` that reserves the candidates: the table, the
candidates and the last value of `i`, for `need` candidates from slot `i` on and
`rounds` slots left below `pml_max_contextid`. -/
def reserve (comm : Nat) (epochs : Nat → Nat) :
    Nat → Nat → Nat → List (Option Nat) → List (Option Nat) × List Elem × Nat
  | 0, i, _, table => (table, [], i)
  | rounds + 1, i, need, table =>
    match slot table i with
    | none =>
      let table' := FtProcess.setSlot table i (some comm)
      if need = 1 then (table', [⟨i, epochs i⟩], i)
      else
        let result := reserve comm epochs rounds (i + 1) (need - 1) table'
        (result.1, ⟨i, epochs i⟩ :: result.2.1, result.2.2)
    | some _ => reserve comm epochs rounds (i + 1) need table

def release (table : List (Option Nat)) (elems : List Elem) : List (Option Nat) :=
  elems.foldl (fun t e => FtProcess.setSlot t e.cid none) table

end Table

section Registration

/-- `ompi_comm_register_cid`, which fails when a call on the same communicator is in
progress. The list is in increasing order. -/
def registerCid (cid : Nat) : List Nat → Option (List Nat)
  | [] => some [cid]
  | c :: registered =>
    if cid < c then some (cid :: c :: registered)
    else if c = cid then none
    else (registerCid cid registered).map (c :: ·)

/-- `ompi_comm_lowest_cid`. -/
def lowestCid (registered : List Nat) : Option Nat := registered.head?

end Registration

/-- What a call works on: the communicator and its context id, and the communicator
that is to get a context id. -/
structure Call where
  comm : Nat
  commCid : Nat
  newcomm : Nat
deriving DecidableEq

/-- Where a call of `ompi_comm_nextcid` stands. -/
inductive Phase where
  | idle
  /-- Before the `round`-th turn, which looks at the slots from `start` on. -/
  | waiting (call : Call) (start round : Nat)
  /-- The candidates are reserved. -/
  | entered (call : Call) (round : Nat)
  /-- The candidates have been handed to the reduction. -/
  | sent (call : Call) (round : Nat)
  /-- The reduction has returned, with success or not. -/
  | reduced (call : Call) (round : Nat) (ok : Bool)
  | done (round : Nat) (result : Option Elem)
deriving DecidableEq

/-- The round that a call is in the middle of. -/
def Phase.midRound : Phase → Bool
  | .entered .. | .sent .. | .reduced .. => true
  | _ => false

/-- The state of a process: the tables of communicators and of epochs, the context ids
of the live communicators by address, the calls in progress and the two arrays. The
epochs and context ids that the calls have given are recorded in `granted`, the last
one first. -/
structure Proc (G : Type) where
  table : List (Option Nat)
  epochs : Nat → Nat
  contextId : Nat → Option Nat
  nextAddress : Nat
  registered : List Nat
  lCIDs : CidArray
  gCIDs : CidArray
  calls : G → Phase
  granted : List Elem

/-- All the processes and the reductions between them: what each process has
contributed to a round of a collective call, and whether the reduction of a round
succeeds. The table of a process before it entered a round is kept in `before`. -/
structure World (P G : Type) where
  procs : P → Proc G
  contribs : G → Nat → P → Option CidArray
  outcome : G → Nat → Option Bool
  before : G → Nat → P → Option (List (Option Nat))

/-- What does not change: the members of each collective call, `cid_redux_size`, which
`ompi_comm_cid_init` makes at least 2, and `pml_max_contextid`. -/
structure Config (P G : Type) where
  members : G → List P
  reduxSize : Nat
  two_le : 2 ≤ reduxSize
  maxContextid : Nat

inductive Event (P G : Type) where
  /-- A process calls `ompi_comm_nextcid` on the communicator at an address. -/
  | call (p : P) (g : G) (comm : Nat)
  /-- A call takes its turn and reserves its candidates. -/
  | enter (p : P) (g : G)
  /-- The allreduce reads `cid_lCIDs`. -/
  | contribute (p : P) (g : G)
  /-- The allreduce of a round ends, with success or not. -/
  | reduce (g : G) (round : Nat) (ok : Bool)
  /-- The allreduce writes `cid_gCIDs` and returns. -/
  | complete (p : P) (g : G) (tree : ReduxTree P)
  /-- The rest of the round. -/
  | finish (p : P) (g : G)
  /-- A live communicator is freed. -/
  | free (p : P) (comm : Nat)

namespace Proc

variable {G : Type} [DecidableEq G]

def setCall (s : Proc G) (g : G) (phase : Phase) : Proc G :=
  { s with calls := update s.calls g phase }

/-- The beginning of `ompi_comm_nextcid`, up to `start`. -/
def beginCall (s : Proc G) (g : G) (comm : Nat) : Proc G :=
  match s.calls g, s.contextId comm with
  | .idle, some cid =>
    match registerCid cid s.registered with
    | none => s
    | some registered =>
      { s with registered := registered, nextAddress := s.nextAddress + 1 }.setCall g
        (.waiting ⟨comm, cid, s.nextAddress⟩ (highestTaken s.table + 1) 0)
  | _, _ => s

def enter (reduxSize maxContextid : Nat) (s : Proc G) (g : G) : Proc G :=
  match s.calls g with
  | .waiting call start round =>
    if lowestCid s.registered = some call.commCid then
      let result := reserve call.comm s.epochs (maxContextid - start) start (reduxSize - 1)
        s.table
      { s with table := result.1, lCIDs := ⟨result.2.2, result.2.1⟩ }.setCall g
        (.entered call round)
    else s
  | _ => s

/-- The part of a round after the reduction. -/
def finish (reduxSize : Nat) (s : Proc G) (g : G) : Proc G :=
  match s.calls g with
  | .reduced call round ok =>
    let next := takeMin (s.gCIDs.entries reduxSize)
    let epoch := (next.epoch + 1) % 2 ^ 32
    if ok = false then
      { s with
        table := release s.table s.lCIDs.avail
        registered := s.registered.erase call.commCid }.setCall g (.done round none)
    else if next.cid = 0 then
      { s with table := release s.table s.lCIDs.avail }.setCall g
        (.waiting call s.gCIDs.first (round + 1))
    else
      { s with
        table := FtProcess.setSlot
          (release s.table (s.lCIDs.avail.filter (·.cid ≠ next.cid))) next.cid
          (some call.newcomm)
        contextId := update s.contextId call.newcomm (some next.cid)
        epochs := update s.epochs next.cid epoch
        registered := s.registered.erase call.commCid
        granted := ⟨next.cid, epoch⟩ :: s.granted }.setCall g
        (.done round (some ⟨next.cid, epoch⟩))
  | _ => s

/-- `ompi_comm_free`, what it does to the table. -/
def free (s : Proc G) (comm : Nat) : Proc G :=
  match s.contextId comm with
  | none => s
  | some cid =>
    { s with
      table := FtProcess.setSlot s.table cid none
      contextId := update s.contextId comm none }

end Proc

namespace World

variable {P G : Type} [DecidableEq P] [DecidableEq G]

def setProc (w : World P G) (p : P) (s : Proc G) : World P G :=
  { w with procs := update w.procs p s }

/-- The table of a process is recorded before a round. -/
def noteBefore (w : World P G) (p : P) (g : G) (round : Nat) : World P G :=
  { w with before := fun g' round' p' =>
      if g' = g ∧ round' = round ∧ p' = p then some (w.procs p).table
      else w.before g' round' p' }

/-- The array `cid_lCIDs` of a process goes into the reduction of a round. -/
def addContribution (w : World P G) (p : P) (g : G) (round : Nat) : World P G :=
  { w with contribs := fun g' round' p' =>
      if g' = g ∧ round' = round ∧ p' = p then some (w.procs p).lCIDs
      else w.contribs g' round' p' }

def step (cfg : Config P G) (w : World P G) : Event P G → World P G
  | .call p g comm =>
    if p ∈ cfg.members g then w.setProc p ((w.procs p).beginCall g comm) else w
  | .enter p g =>
    match (w.procs p).calls g with
    | .waiting call _ round =>
      if lowestCid (w.procs p).registered = some call.commCid then
        (w.noteBefore p g round).setProc p
          ((w.procs p).enter cfg.reduxSize cfg.maxContextid g)
      else w
    | _ => w
  | .contribute p g =>
    match (w.procs p).calls g with
    | .entered call round =>
      (w.addContribution p g round).setProc p ((w.procs p).setCall g (.sent call round))
    | _ => w
  | .reduce g round ok =>
    if (∀ p ∈ cfg.members g, (w.contribs g round p).isSome) ∧ w.outcome g round = none then
      { w with outcome := fun g' round' =>
          if g' = g ∧ round' = round then some ok else w.outcome g' round' }
    else w
  | .complete p g tree =>
    match (w.procs p).calls g with
    | .sent call round =>
      match w.outcome g round with
      | some true =>
        match tree.eval (w.contribs g round) with
        | some result =>
          if tree.leaves.Perm (cfg.members g) then
            w.setProc p ({ w.procs p with gCIDs := result }.setCall g
              (.reduced call round true))
          else w
        | none => w
      | some false => w.setProc p ((w.procs p).setCall g (.reduced call round false))
      | none => w
    | _ => w
  | .finish p g => w.setProc p ((w.procs p).finish cfg.reduxSize g)
  | .free p comm => w.setProc p ((w.procs p).free comm)

end World

end Cid

end Ulfm
