import Ulfm.Era.Value

/-!
# The handlers of an agreement

What a process does for one agreement identifier: the status machine
(`eraDecide`, `eraCheckStatus`, `restartAgreementFromMe`,
`eraMarkProcessFailed`), the handlers of the three messages, and the entry and
exit of the collective (`prepareAgreement`, `completeAgreement`). The source
reaches the two hash tables through the identifier; here a `Slot` holds what they
store under it.

A failed assertion of a debug build is an error. The assertions that a list of
ranks is increasing or does not hold the own rank, and those that compare
operation and datatype, are left out. What `eraDecide` does to the communicator
(merging the agreed failed ranks, collecting old records, completing a request)
is left to the callers, which find the decision in the field `decided`.
-/

namespace Ulfm

/-- The assertions of the source that the handlers may violate. -/
inductive EraAssert
  | notInTree
  | commNull
  | commSet
  | selfFailed
  | decideMismatch
  | needToImplement
  | restartNotEmpty
  | valueNotFound
deriving DecidableEq

/-- `era_msg_type_t`. -/
inductive MsgType
  | resultRequest
  | up
  | down
deriving DecidableEq

/-- A message of one agreement; `src` is the sender and `ack` is empty except in
an `up` message. -/
structure EraMsg where
  type : MsgType
  src : ℕ
  dst : ℕ
  value : EraValue
  ack : List ℕ
deriving DecidableEq

/-- An entry of `era_passed_agreements`. The root records the object
`ci->current_value` itself; every other process records a value of its own. -/
inductive Passed
  | current
  | own (value : EraValue)
deriving DecidableEq

/-- The value behind an entry, given the current value of the agreement. -/
def Passed.value (cur : EraValue) : Passed → EraValue
  | .current => cur
  | .own v => v

@[simp] theorem Passed.value_current (cur : EraValue) : Passed.current.value cur = cur := rfl

@[simp] theorem Passed.value_own (cur v : EraValue) : (Passed.own v).value cur = v := rfl

/-- What the tables of ongoing and of passed agreements hold under one
identifier. -/
structure Slot where
  ci : Option AgreementInfo
  passed : Option Passed
deriving DecidableEq

/-- The value recorded for a passed agreement. -/
def Slot.record (s : Slot) : Option EraValue :=
  match s.passed, s.ci with
  | none, _ => none
  | some (.own v), _ => some v
  | some .current, some ci => some ci.currentValue
  | some .current, none => none

/-- The entries of two functions of the status machine, kept for their
specification. -/
inductive EraCall
  | checkStatus (status : EraStatus) (opNotDefined : Bool)
  | restart (waitingResFrom : List ℕ) (failed : List ℕ)
deriving DecidableEq

/-- The state of a handler: the agreement, its entry in the table of passed
agreements and the tree, with the messages sent, the decision taken and the calls
made so far. -/
structure Job where
  ci : AgreementInfo
  passed : Option Passed
  tree : EraTree
  sent : List EraMsg
  decided : Option EraValue
  calls : List EraCall

structure Handled where
  slot : Slot
  tree : EraTree
  sent : List EraMsg
  decided : Option EraValue
  calls : List EraCall

namespace AgreementInfo

variable (ci : AgreementInfo)

/-- `ci->status == status`; the flag makes every comparison fail. -/
def hasStatus (status : EraStatus) : Bool := decide (ci.status = status) && !ci.opNotDefined

/-- `ci->status > NOT_CONTRIBUTED`; the flag is the highest bit. -/
def contributed : Bool := ci.opNotDefined || decide (ci.status ≠ .notContributed)

end AgreementInfo

namespace Job

def start (ci : AgreementInfo) (passed : Option Passed) (tree : EraTree) : Job :=
  { ci, passed, tree, sent := [], decided := none, calls := [] }

def finish (j : Job) : Handled where
  slot := { ci := some j.ci, passed := j.passed }
  tree := j.tree
  sent := j.sent
  decided := j.decided
  calls := j.calls

/-- `send_msg` to a list of ranks. -/
def send (env : EraEnv) (j : Job) (type : MsgType) (dsts : List ℕ) (value : EraValue)
    (ack : List ℕ) : Job :=
  { j with
    sent := j.sent ++ dsts.map fun dst => { type, src := env.me, dst, value, ack } }

def call (j : Job) (c : EraCall) : Job := { j with calls := j.calls ++ [c] }

/-- `era_parent`. -/
def parent (env : EraEnv) (j : Job) : Except EraAssert (ℕ × Job) :=
  match eraParent env.failed env.me j.tree with
  | none => throw .notInTree
  | some (r, tree) => pure (r, { j with tree })

/-- A loop over `era_next_child` that stops at the first child outside `ok`. -/
def childrenWhile (env : EraEnv) (ok : ℕ → Bool) (j : Job) :
    Except EraAssert (List ℕ × Bool × Job) :=
  match eraChildrenWhile env.failed env.me ok (j.tree.treeSize + 1) none j.tree with
  | none => throw .notInTree
  | some (rs, all, tree) => pure (rs, all, { j with tree })

def children (env : EraEnv) (j : Job) : Except EraAssert (List ℕ × Job) :=
  match eraChildren env.failed env.me j.tree with
  | none => throw .notInTree
  | some (rs, tree) => pure (rs, { j with tree })

end Job

/-! ### The status machine -/

/-- The end of `era_decide`: the decision goes to the children, then to the early
requesters that are not among them. -/
def sendDecision (env : EraEnv) (value : EraValue) (j : Job) : Except EraAssert Job := do
  let (rs, j) ← j.children env
  let early := rs.foldl List.erase j.ci.earlyRequesters
  let j := { j with ci := { j.ci with earlyRequesters := early } }
  return (j.send env .down rs value []).send env .down early value []

/-- `era_decide`. -/
def eraDecide (env : EraEnv) (decision : Passed) (j : Job) : Except EraAssert Job := do
  let value := decision.value j.ci.currentValue
  let old := j.passed.map (Passed.value j.ci.currentValue)
  if old.any fun o =>
      decide (¬ (o.ret = value.ret ∧ o.newDeadArray.length = value.newDeadArray.length)) then
    throw .decideMismatch
  if j.ci.hasStatus .completed then
    return j
  let j :=
    { j with
      ci := { j.ci with status := .completed, opNotDefined := false }
      passed := some decision
      decided := some value }
  if !j.ci.comm then
    throw .commNull
  sendDecision env value j

/-- `era_check_status`. -/
def eraCheckStatus (env : EraEnv) (j : Job) : Except EraAssert Job := do
  let j := j.call (.checkStatus j.ci.status j.ci.opNotDefined)
  if j.ci.hasStatus .notContributed then
    return j
  if j.ci.hasStatus .gathering then
    let (_, j) ← j.parent env
    let (_, all, j) ← j.childrenWhile env fun r => decide (r ∈ j.ci.gatheredInfo)
    if !all then
      return j
    let j := { j with ci := eraUpdateReturnValue env j.ci none }
    let (r, j) ← j.parent env
    if r = env.me then
      eraDecide env .current j
    else
      let j := j.send env .up [r] j.ci.currentValue j.ci.acked
      return { j with ci := { j.ci with waitingDownFrom := some r, status := .broadcasting } }
  else
    throw .needToImplement

/-- Ask `r` for its result and wait for it. -/
def requestResult (env : EraEnv) (j : Job) (r : ℕ) : Job :=
  { j.send env .resultRequest [r] j.ci.currentValue [] with
    ci := { j.ci with waitingResFrom := j.ci.waitingResFrom ++ [r] } }

/-- Ask `r` for its result unless it was asked before. -/
def requestNewResult (env : EraEnv) (j : Job) (r : ℕ) : Job :=
  if r ∈ j.ci.waitingResFrom then j else requestResult env j r

/-- `restart_agreement_from_me`. -/
def restartAgreementFromMe (env : EraEnv) (j : Job) : Except EraAssert Job := do
  let j := j.call (.restart j.ci.waitingResFrom env.failed)
  if !j.ci.comm then
    throw .commNull
  if j.ci.waitingResFrom ≠ [] then
    throw .restartNotEmpty
  let j := { j with ci := { j.ci with status := .gathering, opNotDefined := false } }
  let (rs, j) ← j.children env
  eraCheckStatus env (rs.foldl (requestResult env) j)

/-- `era_mark_process_failed`; the failure of `rank` is part of `env` already. -/
def eraMarkProcessFailed (env : EraEnv) (rank : ℕ) (j : Job) : Except EraAssert Job := do
  if j.ci.comm && decide (env.me = rank) then
    throw .selfFailed
  let j := if j.ci.contributed then { j with ci := j.ci.setRet mpiErrProcFailed } else j
  if j.ci.hasStatus .broadcasting then
    if j.ci.waitingDownFrom = some rank then
      let (r, j) ← j.parent env
      if r = env.me then
        restartAgreementFromMe env j
      else
        let j := { j with ci := { j.ci with waitingDownFrom := some r } }
        return j.send env .up [r] j.ci.currentValue j.ci.acked
    else
      return j
  else if j.ci.hasStatus .gathering then
    if rank ∈ j.ci.waitingResFrom then
      let j := { j with ci := { j.ci with waitingResFrom := j.ci.waitingResFrom.erase rank } }
      let (rs, j) ← j.children env
      eraCheckStatus env (rs.foldl (requestNewResult env) j)
    else
      eraCheckStatus env j
  else
    return j

/-! ### Messages -/

/-- The Fortran index of `MPI_BAND`. -/
def opBandIndex : ℤ := 6

/-- The Fortran index of `MPI_INT`. -/
def mpiIntIndex : ℤ := 39

/-- The value that `result_request` makes up for a flushing agreement, which
carries no data. -/
def successValue : EraValue where
  ret := mpiSuccess
  minAid := 65535
  maxAid := 0
  operand := opBandIndex
  dtCount := 0
  datatype := mpiIntIndex
  bytes := []
  newDeadArray := []

namespace Slot

/-- Leave the slot as it is and send the messages `sent`. -/
def reply (slot : Slot) (tree : EraTree) (sent : List EraMsg) : Handled :=
  { slot, tree, sent, decided := none, calls := [] }

end Slot

/-- `result_request`. -/
def resultRequest (env : EraEnv) (slot : Slot) (tree : EraTree) (msg : EraMsg) :
    Except EraAssert Handled :=
  let down := fun value : EraValue =>
    [{ type := .down, src := env.me, dst := msg.src, value, ack := [] : EraMsg }]
  let refuse : Except EraAssert Handled :=
    if msg.value.dtCount = 0 then
      .ok (slot.reply tree (down successValue))
    else .ok (slot.reply tree [])
  match slot.record with
  | some value => .ok (slot.reply tree (down value))
  | none =>
    match slot.ci with
    | some ci =>
      if ci.hasStatus .broadcasting then do
        let (r, j) ← (Job.start ci slot.passed tree).parent env
        if r = env.me then
          return j.finish
        let j := { j with ci := { j.ci with waitingDownFrom := some r } }
        return (j.send env .up [r] j.ci.currentValue j.ci.acked).finish
      else refuse
    | none => refuse

/-- The contribution of a child enters the agreement. -/
def addContribution (env : EraEnv) (ci : AgreementInfo) (msg : EraMsg) : AgreementInfo :=
  let ci := eraCombineAgreementValues env ci msg.value
  let ci := eraUpdateReturnValue env ci (some msg.ack)
  { ci with gatheredInfo := ci.gatheredInfo ++ [msg.src] }

/-- `msg_up`. -/
def msgUp (env : EraEnv) (slot : Slot) (tree : EraTree) (msg : EraMsg) : Except EraAssert Handled :=
  match slot.record with
  | some value =>
    .ok (slot.reply tree
      [{ type := .down, src := env.me, dst := msg.src, value, ack := [] }])
  | none =>
    let ci := slot.ci.getD (eraCreateAgreementInfo msg.value)
    if ci.hasStatus .broadcasting then
      let early :=
        if msg.src ∈ ci.earlyRequesters then ci.earlyRequesters
        else ci.earlyRequesters ++ [msg.src]
      .ok (Job.start { ci with earlyRequesters := early } slot.passed tree).finish
    else if msg.src ∈ ci.gatheredInfo then do
      let j ← eraCheckStatus env (Job.start ci slot.passed tree)
      return j.finish
    else do
      let j ← eraCheckStatus env (Job.start (addContribution env ci msg) slot.passed tree)
      return j.finish

/-- `msg_down`. -/
def msgDown (env : EraEnv) (slot : Slot) (tree : EraTree) (msg : EraMsg) :
    Except EraAssert Handled :=
  match slot.ci with
  | none => .ok (slot.reply tree [])
  | some ci => do
      if !ci.comm then
        throw .commNull
      let j ← eraDecide env (.own msg.value) (Job.start ci slot.passed tree)
      return j.finish

/-- The dispatch of `era_cb_fn`. -/
def handleMsg (env : EraEnv) (slot : Slot) (tree : EraTree) (msg : EraMsg) :
    Except EraAssert Handled :=
  match msg.type with
  | .resultRequest => resultRequest env slot tree msg
  | .up => msgUp env slot tree msg
  | .down => msgDown env slot tree msg

/-! ### The collective -/

/-- The own contribution enters the agreement: `era_agreement_info_set_comm`, then
the combination with the contributions that came before. -/
def contribute (env : EraEnv) (ci : AgreementInfo) (acked newDead : List ℕ)
    (value : EraValue) : AgreementInfo :=
  let ci := { eraUpdateReturnValue env ci (some acked) with comm := true }
  let ci := eraMergeNewDeadList ci newDead
  let ci := eraCombineAgreementValues env ci value
  { ci with status := .gathering, opNotDefined := false }

/-- `mca_coll_ftbasic_agreement_era_prepare_agreement` from the lookup of the
agreement on: `acked` are the acknowledged failures, `newDead` what
`era_update_new_dead_list` adds and `value` the own contribution. An old record
under the same identifier is dropped. -/
def prepareAgreement (env : EraEnv) (slot : Slot) (tree : EraTree) (acked newDead : List ℕ)
    (value : EraValue) : Except EraAssert Handled := do
  let ci := slot.ci.getD (eraCreateAgreementInfo value)
  if ci.comm then
    throw .commSet
  let j ← eraCheckStatus env (Job.start (contribute env ci acked newDead value) none tree)
  return j.finish

/-- `mca_coll_ftbasic_agreement_era_complete_agreement`: the value handed to the
caller, with the slot after it. The agreement is released, so that the entry of
a root now owns its value. -/
def completeAgreement (slot : Slot) : Except EraAssert (EraValue × Slot) :=
  match slot.record with
  | none => throw .valueNotFound
  | some value => pure (value, { ci := none, passed := some (.own value) })

end Ulfm
