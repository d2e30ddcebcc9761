import Mathlib.Data.Fintype.Basic
import Mathlib.Algebra.BigOperators.Group.Finset.Defs
import Ulfm.Foundation.Trace
import Mathlib.Algebra.Order.Ring.Int

/-!
# One-sided communication over point-to-point messages

The component `osc/pt2pt`. An operation on the window of another process is queued
until its origin closes the access epoch; it is then sent, with its data when they are
short, and the target counts the operations that it has applied. A window is
synchronised by fences, by post, start, complete and wait, or by locks, and each of
these sends control messages that arrive in order with the operations of the same
origin. Only the data of long operations travel on other tags.

The state is that of the modules of all processes, one field of
`ompi_osc_pt2pt_module_t` after the other, with the messages between them. A callback
runs as a whole; a call of the user that waits is split where it waits. A message that
has been handed to the library late is not distinguished from one that is delivered
late.
-/

namespace Ulfm.Osc

/-- `ompi_osc_pt2pt_req_type_t`. -/
inductive Kind
  | put
  | acc
  | get
  deriving DecidableEq

/-- `MPI_LOCK_EXCLUSIVE` and `MPI_LOCK_SHARED`. -/
inductive LockType
  | exclusive
  | shared
  deriving DecidableEq

/-- `ompi_osc_pt2pt_sendreq_t`: the bytes on either side, the length of the packed
description of the target's datatype, and the size of the predefined type of which the
datatype consists (none when there is no such type). The last two fields are history: the
number of access epochs for the target, and of fences, when the operation was issued. -/
structure Op (P : Type) where
  serial : ℕ
  kind : Kind
  target : P
  originBytes : ℕ
  targetBytes : ℕ
  ddtLen : ℕ
  primitive : Option ℕ
  access : ℕ
  fence : ℕ
  deriving DecidableEq

/-- `p2p_c_eager_size` and the sizes of the headers of an operation and of a reply. -/
structure Sizes where
  eager : ℕ
  sendHeader : ℕ
  replyHeader : ℕ
  reply_le_send : replyHeader ≤ sendHeader

/-- The messages with the tag `CONTROL_MSG_TAG`. The number with an operation or a reply
is `hdr_msg_length`. -/
inductive Msg (P : Type)
  | op (r : Op P) (msgLength : ℕ)
  | reply (r : Op P) (msgLength : ℕ)
  | post
  | complete (count : ℕ)
  | lockReq (type : LockType)
  | lockAck
  | unlockReq (count : ℕ)
  | unlockReply
  deriving DecidableEq

/-- Where a process is in a call that waits: in `module_complete` or `module_unlock` after
the requests have been started; in `module_fence` before `reduce_scatter` has ended, with
the number of requests, then before the counters are raised, then after that. -/
inductive Call
  | idle
  | completing
  | unlocking
  | reducing (outgoing : ℕ)
  | counting (incoming outgoing : ℕ)
  | fencing
  deriving DecidableEq

/-- The modules of all processes and what is between them. -/
structure World (P : Type) where
  pendingSendreqs : P → List (Op P)
  numPendingSendreqs : P → P → ℕ
  copyPendingSendreqs : P → List (Op P)
  copyNumPendingSendreqs : P → P → ℕ
  numPendingOut : P → ℤ
  numPendingIn : P → ℤ
  numPostMsgs : P → ℤ
  numCompleteMsgs : P → ℤ
  pwGroup : P → Option (List P)
  scGroup : P → Option (List P)
  lockStatus : P → Option LockType
  sharedCount : P → ℤ
  locksPending : P → List (P × LockType)
  unlocksPending : P → List P
  lockReceivedAck : P → ℤ
  call : P → Call
  /-- The calls of `passive_unlock_complete` that have sent their replies and have not
  yet looked for another request. -/
  granting : P → ℕ
  /-- The control messages from one process to another. -/
  chan : P → P → List (Msg P)
  /-- The requests that an origin has started and not freed. -/
  sending : P → List (Op P)
  /-- The operations that a target has begun and not marked complete, with their origins. -/
  landing : P → List (P × Op P)
  /-- The long replies that an origin is receiving. -/
  replyLanding : P → List (Op P)
  /-- What each process has given to `reduce_scatter` in its fences. -/
  contribution : ℕ → P → P → ℕ
  /-- The process has called a function with a null or zero-sized primitive type. -/
  aborted : P → Bool
  /-- History: the operations that an origin has queued. -/
  issued : P → List (Op P)
  /-- History, by target and origin: the operations that are marked complete. -/
  applied : P → P → List (Op P)
  /-- History: the gets whose data have arrived. -/
  got : P → List (Op P)
  /-- History: the requests that could not be started. -/
  lost : P → List (Op P)
  /-- History, by origin and target: the access epochs that were started, and those for
  which the number of updates was announced. -/
  starts : P → P → ℕ
  completes : P → P → ℕ
  /-- History, by target and origin: the exposure epochs that were posted, and those that
  a wait has closed. -/
  posts : P → P → ℕ
  waits : P → P → ℕ
  /-- History: who sent the posts, and the completes, that have been counted since the
  last epoch was closed. -/
  postsFrom : P → List P
  completesFrom : P → List P
  /-- History, by origin and target: the locks that were requested. By target and origin:
  the requests that were granted. -/
  requests : P → P → ℕ
  grants : P → P → ℕ
  /-- History: the locks that are granted and not released. -/
  granted : P → List (P × LockType)
  /-- History: the target that a process has locked. -/
  lockTarget : P → Option P
  /-- History: the fences that a process has entered, and those of them in which its
  `reduce_scatter` has succeeded, or failed. -/
  fences : P → ℕ
  succeeded : P → List ℕ
  failed : P → List ℕ
  /-- History: the queue and the counters when the last fence was entered. -/
  fenceQueue : P → List (Op P)
  fenceNum : P → P → ℕ

/-- After `ompi_osc_pt2pt_component_select`. -/
def init {P : Type} : World P where
  pendingSendreqs := fun _ => []
  numPendingSendreqs := fun _ _ => 0
  copyPendingSendreqs := fun _ => []
  copyNumPendingSendreqs := fun _ _ => 0
  numPendingOut := fun _ => 0
  numPendingIn := fun _ => 0
  numPostMsgs := fun _ => 0
  numCompleteMsgs := fun _ => 0
  pwGroup := fun _ => none
  scGroup := fun _ => none
  lockStatus := fun _ => none
  sharedCount := fun _ => 0
  locksPending := fun _ => []
  unlocksPending := fun _ => []
  lockReceivedAck := fun _ => 0
  call := fun _ => .idle
  granting := fun _ => 0
  chan := fun _ _ => []
  sending := fun _ => []
  landing := fun _ => []
  replyLanding := fun _ => []
  contribution := fun _ _ _ => 0
  aborted := fun _ => false
  issued := fun _ => []
  applied := fun _ _ => []
  got := fun _ => []
  lost := fun _ => []
  starts := fun _ _ => 0
  completes := fun _ _ => 0
  posts := fun _ _ => 0
  waits := fun _ _ => 0
  postsFrom := fun _ => []
  completesFrom := fun _ => []
  requests := fun _ _ => 0
  grants := fun _ _ => 0
  granted := fun _ => []
  lockTarget := fun _ => none
  fences := fun _ => 0
  succeeded := fun _ => []
  failed := fun _ => []
  fenceQueue := fun _ => []
  fenceNum := fun _ _ => 0

/-- The header and the description of the datatype fit into an eager buffer. -/
def Sizes.Fits {P : Type} (z : Sizes) (r : Op P) : Prop := z.sendHeader + r.ddtLen ≤ z.eager

instance {P : Type} (z : Sizes) (r : Op P) : Decidable (z.Fits r) :=
  inferInstanceAs (Decidable (_ ≤ _))

/-- The message that `ompi_osc_pt2pt_sendreq_send` makes of a request. -/
def Sizes.opMsg {P : Type} (z : Sizes) (r : Op P) : Msg P :=
  .op r <|
    if r.kind = .get then 0
    else if z.sendHeader + r.ddtLen + r.originBytes ≤ z.eager then r.originBytes
    else 0

/-- The message that `ompi_osc_pt2pt_replyreq_send` makes of the reply to a get. -/
def Sizes.replyMsg {P : Type} (z : Sizes) (r : Op P) : Msg P :=
  .reply r (if z.replyHeader + r.targetBytes ≤ z.eager then r.targetBytes else 0)

section Update

variable {P α : Type} [DecidableEq P]

def upd (f : P → α) (p : P) (v : α) : P → α := fun q => if q = p then v else f q

@[simp]
theorem upd_self (f : P → α) (p : P) (v : α) : upd f p v p = v := if_pos rfl

theorem upd_of_ne (f : P → α) {p q : P} (v : α) (h : q ≠ p) : upd f p v q = f q := if_neg h

theorem upd_eq_self (f : P → α) (p : P) : upd f p (f p) = f := by
  funext q
  unfold upd
  split_ifs with hq
  · rw [hq]
  · rfl

end Update

section Step

variable {P : Type} [DecidableEq P] (z : Sizes)

/-- A process sends a list of messages to every process. -/
def World.emit (w : World P) (p : P) (out : P → List (Msg P)) : World P :=
  { w with chan := fun a b => if a = p then w.chan a b ++ out b else w.chan a b }

def only (q : P) (m : Msg P) : P → List (Msg P) := fun b => if b = q then [m] else []

/-- `ompi_osc_pt2pt_passive_unlock_complete`, up to the replies. -/
def World.passiveUnlockComplete (w : World P) (p : P) : World P :=
  if w.numPendingIn p ≠ 0 then w
  else
    let count := w.sharedCount p - (w.unlocksPending p).length
    let w' := { w with
      lockStatus := upd w.lockStatus p <|
        if w.lockStatus p = some LockType.exclusive then none
        else if count = 0 then none
        else w.lockStatus p
      sharedCount := upd w.sharedCount p <|
        if w.lockStatus p = some LockType.exclusive then w.sharedCount p else count
      granted := upd w.granted p <|
        (w.granted p).filter fun g => g.1 ∉ w.unlocksPending p
      unlocksPending := upd w.unlocksPending p []
      granting := upd w.granting p (w.granting p + 1) }
    w'.emit p fun b => ((w.unlocksPending p).filter (· = b)).map fun _ => .unlockReply

/-- The end of `ompi_osc_pt2pt_passive_unlock_complete`: a request from the queue is
granted if there is no lock. -/
def World.grant (w : World P) (p : P) : World P :=
  if w.granting p = 0 then w
  else
    let w := { w with granting := upd w.granting p (w.granting p - 1) }
    if w.lockStatus p ≠ none then w
    else
      match w.locksPending p with
      | [] => w
      | (o, type) :: rest =>
        let w := { w with
          locksPending := upd w.locksPending p rest
          lockStatus := upd w.lockStatus p (some type)
          sharedCount := upd w.sharedCount p <|
            if type = LockType.shared then w.sharedCount p + 1 else w.sharedCount p
          granted := upd w.granted p (w.granted p ++ [(o, type)])
          grants := upd w.grants p <| upd (w.grants p) o (w.grants p o + 1) }
        w.emit p (only o .lockAck)

/-- `inmsg_mark_complete`, for an operation of `q`. -/
def World.inmsgMarkComplete (w : World P) (q p : P) (r : Op P) : World P :=
  let w := { w with
    numPendingIn := upd w.numPendingIn p (w.numPendingIn p - 1)
    applied := upd w.applied p <|
      upd (w.applied p) q (r :: w.applied p q) }
  if w.numPendingIn p = 0 ∧ w.lockStatus p ≠ none ∧ w.unlocksPending p ≠ [] then
    w.passiveUnlockComplete p
  else w

/-- `ompi_osc_pt2pt_sendreq_recv_put`, `ompi_osc_pt2pt_sendreq_recv_accum` and the case of
a get in `component_fragment_cb`. -/
def World.recvOp (w : World P) (q p : P) (r : Op P) (msgLength : ℕ) : World P :=
  let land := { w with landing := upd w.landing p (w.landing p ++ [(q, r)]) }
  match r.kind with
  | .put => if 0 < msgLength then w.inmsgMarkComplete q p r else land
  | .acc =>
    if 0 < msgLength then w.inmsgMarkComplete q p r
    else if r.primitive = none ∨ r.primitive = some 0 then
      { w with aborted := upd w.aborted p true }
    else land
  | .get => land.emit p (only q (z.replyMsg r))

/-- `ompi_osc_pt2pt_replyreq_recv`. -/
def World.recvReply (w : World P) (p : P) (r : Op P) (msgLength : ℕ) : World P :=
  if 0 < msgLength then
    { w with
      numPendingOut := upd w.numPendingOut p (w.numPendingOut p - 1)
      sending := upd w.sending p ((w.sending p).erase r)
      got := upd w.got p (r :: w.got p) }
  else { w with replyLanding := upd w.replyLanding p (w.replyLanding p ++ [r]) }

/-- `ompi_osc_pt2pt_passive_lock`. -/
def World.passiveLock (w : World P) (q p : P) (type : LockType) : World P :=
  let queue := { w with
    locksPending := upd w.locksPending p (w.locksPending p ++ [(q, type)]) }
  let grant := { w with
    lockStatus := upd w.lockStatus p (some type)
    granted := upd w.granted p (w.granted p ++ [(q, type)])
    grants := upd w.grants p <| upd (w.grants p) q (w.grants p q + 1) }
  match type with
  | .exclusive => if w.lockStatus p = none then grant.emit p (only q .lockAck) else queue
  | .shared =>
    if w.lockStatus p ≠ some LockType.exclusive then
      { grant with
        sharedCount := upd w.sharedCount p (w.sharedCount p + 1) }.emit p
        (only q .lockAck)
    else queue

/-- `ompi_osc_pt2pt_passive_unlock`. -/
def World.passiveUnlock (w : World P) (q p : P) (count : ℕ) : World P :=
  { w with
    numPendingIn := upd w.numPendingIn p (w.numPendingIn p + count)
    unlocksPending := upd w.unlocksPending p (w.unlocksPending p ++ [q])
    }.passiveUnlockComplete p

/-- `component_fragment_cb`, for a message from `q`. -/
def World.fragment (w : World P) (q p : P) : Msg P → World P
  | .op r msgLength => w.recvOp z q p r msgLength
  | .reply r msgLength => w.recvReply p r msgLength
  | .post =>
    { w with
      numPostMsgs := upd w.numPostMsgs p (w.numPostMsgs p - 1)
      postsFrom := upd w.postsFrom p (q :: w.postsFrom p) }
  | .complete count =>
    { w with
      numCompleteMsgs := upd w.numCompleteMsgs p (w.numCompleteMsgs p - 1)
      numPendingIn := upd w.numPendingIn p (w.numPendingIn p + count)
      completesFrom := upd w.completesFrom p (q :: w.completesFrom p) }
  | .lockReq type => w.passiveLock q p type
  | .lockAck =>
    { w with lockReceivedAck := upd w.lockReceivedAck p (w.lockReceivedAck p + 1) }
  | .unlockReq count => w.passiveUnlock q p count
  | .unlockReply =>
    { w with numPendingOut := upd w.numPendingOut p (w.numPendingOut p - 1) }

/-- The next message from `q` to `p` arrives. -/
def World.deliver (w : World P) (q p : P) : World P :=
  match w.chan q p with
  | [] => w
  | m :: rest =>
    { w with chan := fun a b => if a = q ∧ b = p then rest else w.chan a b }.fragment z q p m

/-- The data of a long operation have arrived, or those of a reply have been sent. -/
def World.landed (w : World P) (p : P) (i : ℕ) : World P :=
  match (w.landing p)[i]? with
  | none => w
  | some (q, r) =>
    { w with landing := upd w.landing p ((w.landing p).eraseIdx i)
      }.inmsgMarkComplete q p r

/-- `ompi_osc_pt2pt_replyreq_recv_long_cb`. -/
def World.replyLanded (w : World P) (p : P) (i : ℕ) : World P :=
  match (w.replyLanding p)[i]? with
  | none => w
  | some r =>
    { w with
      replyLanding := upd w.replyLanding p ((w.replyLanding p).eraseIdx i)
      numPendingOut := upd w.numPendingOut p (w.numPendingOut p - 1)
      sending := upd w.sending p ((w.sending p).erase r)
      got := upd w.got p (r :: w.got p) }

/-- `ompi_osc_pt2pt_sendreq_send_cb` and `ompi_osc_pt2pt_sendreq_send_long_cb`. Neither
counts a get. -/
def World.sent (w : World P) (p : P) (i : ℕ) : World P :=
  match (w.sending p)[i]? with
  | none => w
  | some r =>
    if r.kind = .get then w
    else
      { w with
        sending := upd w.sending p ((w.sending p).eraseIdx i)
        numPendingOut := upd w.numPendingOut p (w.numPendingOut p - 1) }

/-- `ompi_osc_pt2pt_module_put`, `_get` and `_accumulate` with counts that are not zero. -/
def World.issue (w : World P) (p : P) (r : Op P) : World P :=
  if (w.scGroup p).any (r.target ∉ ·) then w
  else
    let r := { r with access := w.starts p r.target, fence := w.fences p }
    { w with
      pendingSendreqs := upd w.pendingSendreqs p (w.pendingSendreqs p ++ [r])
      numPendingSendreqs := upd w.numPendingSendreqs p <|
        upd (w.numPendingSendreqs p) r.target (w.numPendingSendreqs p r.target + 1)
      issued := upd w.issued p (r :: w.issued p) }

/-- `ompi_osc_pt2pt_flip_sendreqs`. -/
def World.flipSendreqs (w : World P) (p : P) : World P :=
  { w with
    copyNumPendingSendreqs := upd w.copyNumPendingSendreqs p (w.numPendingSendreqs p)
    numPendingSendreqs := upd w.numPendingSendreqs p fun _ => 0
    copyPendingSendreqs := upd w.copyPendingSendreqs p
      (w.copyPendingSendreqs p ++ w.pendingSendreqs p)
    pendingSendreqs := upd w.pendingSendreqs p [] }

/-- The loop that starts the requests, in the order that the free lists allow. It ends
at a request that does not fit into a buffer. -/
def World.startSendreqs (w : World P) (p : P) (order : List (Op P)) : World P :=
  let started : List (Op P) := order.takeWhile fun r => z.Fits r
  let rest : List (Op P) := order.dropWhile fun r => z.Fits r
  let w := { w with
    copyPendingSendreqs := upd w.copyPendingSendreqs p rest.tail
    lost := upd w.lost p (rest.head?.toList ++ w.lost p)
    sending := upd w.sending p (w.sending p ++ started) }
  w.emit p fun b => (started.filter fun r : Op P => r.target = b).map z.opMsg

def Started (order : List (Op P)) : Prop := ∀ r ∈ order, z.Fits r

instance (order : List (Op P)) : Decidable (Started z order) :=
  inferInstanceAs (Decidable (∀ r ∈ order, z.Fits r))

/-- `ompi_osc_pt2pt_module_start`. -/
def World.start (w : World P) (p : P) (group : List P) : World P :=
  if w.scGroup p ≠ none then w
  else
    { w with
      scGroup := upd w.scGroup p (some group)
      numPostMsgs := upd w.numPostMsgs p (w.numPostMsgs p + group.length)
      starts := upd w.starts p fun t =>
        if t ∈ group then w.starts p t + 1 else w.starts p t }

/-- `ompi_osc_pt2pt_module_complete`, when all the posts have been counted. -/
def World.complete (w : World P) (p : P) (order : List (Op P)) : World P :=
  match w.scGroup p with
  | none => w
  | some group =>
    let w₁ := w.flipSendreqs p
    if w.call p = .idle ∧ w.numPostMsgs p = 0 ∧ order.isPerm (w₁.copyPendingSendreqs p) then
      let w₂ := { w₁ with
        numPendingOut := upd w₁.numPendingOut p
          (w₁.numPendingOut p + (group.map (w₁.copyNumPendingSendreqs p)).sum)
        completes := upd w₁.completes p fun t =>
          if t ∈ group then w₁.completes p t + 1 else w₁.completes p t
        postsFrom := upd w₁.postsFrom p []
        call := upd w₁.call p (if Started z order then .completing else .idle) }
      let w₃ := w₂.emit p fun b =>
        (group.filter (· = b)).map fun t => .complete (w₁.copyNumPendingSendreqs p t)
      w₃.startSendreqs z p order
    else w

/-- The end of `ompi_osc_pt2pt_module_complete`. -/
def World.completed (w : World P) (p : P) : World P :=
  if w.call p = .completing ∧ w.numPendingOut p = 0 then
    { w with
      scGroup := upd w.scGroup p none
      call := upd w.call p .idle }
  else w

/-- `ompi_osc_pt2pt_module_post`. -/
def World.post (w : World P) (p : P) (group : List P) : World P :=
  if w.pwGroup p ≠ none then w
  else
    let w := { w with
      pwGroup := upd w.pwGroup p (some group)
      numCompleteMsgs := upd w.numCompleteMsgs p (w.numCompleteMsgs p + group.length)
      posts := upd w.posts p fun o =>
        if o ∈ group then w.posts p o + 1 else w.posts p o }
    w.emit p fun b => (group.filter (· = b)).map fun _ => .post

/-- The end of `ompi_osc_pt2pt_module_wait`, or of `ompi_osc_pt2pt_module_test` with the
flag set. -/
def World.waited (w : World P) (p : P) : World P :=
  match w.pwGroup p with
  | none => w
  | some group =>
    if w.numPendingIn p = 0 ∧ w.numCompleteMsgs p = 0 then
      { w with
        pwGroup := upd w.pwGroup p none
        waits := upd w.waits p fun o =>
          if o ∈ group then w.waits p o + 1 else w.waits p o
        completesFrom := upd w.completesFrom p [] }
    else w

/-- `ompi_osc_pt2pt_module_lock`. -/
def World.lock (w : World P) (p target : P) (type : LockType) : World P :=
  { w with
    lockTarget := upd w.lockTarget p (some target)
    requests := upd w.requests p <| upd (w.requests p) target (w.requests p target + 1)
    }.emit p (only target (.lockReq type))

/-- `ompi_osc_pt2pt_module_unlock`, when the lock has been acknowledged. -/
def World.unlock (w : World P) (p target : P) (order : List (Op P)) : World P :=
  let w₁ := w.flipSendreqs p
  if w.call p = .idle ∧ w.lockReceivedAck p ≠ 0 ∧ order.isPerm (w₁.copyPendingSendreqs p) then
    let w₂ := { w₁ with
      lockReceivedAck := upd w₁.lockReceivedAck p (w₁.lockReceivedAck p - 1)
      numPendingOut := upd w₁.numPendingOut p
        (w₁.numPendingOut p + ((w₁.copyPendingSendreqs p).length + 1))
      call := upd w₁.call p (if Started z order then .unlocking else .idle) }
    let w₃ := w₂.emit p (only target (.unlockReq (w₁.copyPendingSendreqs p).length))
    w₃.startSendreqs z p order
  else w

/-- The end of `ompi_osc_pt2pt_module_unlock`. -/
def World.unlocked (w : World P) (p : P) : World P :=
  if w.call p = .unlocking ∧ w.numPendingOut p = 0 then
    { w with
      lockTarget := upd w.lockTarget p none
      call := upd w.call p .idle }
  else w

/-- `ompi_osc_pt2pt_module_fence`, up to `reduce_scatter`. -/
def World.fence (w : World P) (p : P) : World P :=
  if w.call p ≠ .idle then w
  else
    let w₁ := w.flipSendreqs p
    { w₁ with
      call := upd w₁.call p (.reducing (w₁.copyPendingSendreqs p).length)
      fences := upd w₁.fences p (w₁.fences p + 1)
      contribution := upd w₁.contribution (w₁.fences p + 1) <|
        upd (w₁.contribution (w₁.fences p + 1)) p (w₁.copyNumPendingSendreqs p)
      fenceQueue := upd w₁.fenceQueue p (w.pendingSendreqs p)
      fenceNum := upd w₁.fenceNum p (w.numPendingSendreqs p) }

/-- `reduce_scatter` has failed. -/
def World.fenceFailed (w : World P) (p : P) : World P :=
  match w.call p with
  | .reducing _ =>
    { w with
      pendingSendreqs := upd w.pendingSendreqs p
        (w.pendingSendreqs p ++ w.copyPendingSendreqs p)
      copyPendingSendreqs := upd w.copyPendingSendreqs p []
      numPendingSendreqs := upd w.numPendingSendreqs p fun t =>
        w.numPendingSendreqs p t + w.copyNumPendingSendreqs p t
      call := upd w.call p .idle
      failed := upd w.failed p (w.fences p :: w.failed p) }
  | _ => w

/-- `reduce_scatter` has ended with the sum of what all the processes gave it, and the
requests are started. -/
def World.reduced [Fintype P] (w : World P) (p : P) (order : List (Op P)) : World P :=
  match w.call p with
  | .reducing outgoing =>
    if (∀ q, w.fences p ≤ w.fences q) ∧ order.isPerm (w.copyPendingSendreqs p) then
      let incoming := ∑ q, w.contribution (w.fences p) q p
      { w with
        call := upd w.call p <|
          if Started z order then .counting incoming outgoing else .idle
        succeeded := upd w.succeeded p (w.fences p :: w.succeeded p)
        }.startSendreqs z p order
    else w
  | _ => w

def World.counted (w : World P) (p : P) : World P :=
  match w.call p with
  | .counting incoming outgoing =>
    { w with
      numPendingIn := upd w.numPendingIn p (w.numPendingIn p + incoming)
      numPendingOut := upd w.numPendingOut p (w.numPendingOut p + outgoing)
      call := upd w.call p .fencing }
  | _ => w

/-- The end of `ompi_osc_pt2pt_module_fence`. -/
def World.fenced (w : World P) (p : P) : World P :=
  if w.call p = .fencing ∧ w.numPendingIn p ≤ 0 ∧ w.numPendingOut p = 0 then
    { w with call := upd w.call p .idle }
  else w

inductive Event (P : Type)
  | issue (p : P) (r : Op P)
  | deliver (q p : P)
  | landed (p : P) (i : ℕ)
  | replyLanded (p : P) (i : ℕ)
  | sent (p : P) (i : ℕ)
  | grant (p : P)
  | start (p : P) (group : List P)
  | complete (p : P) (order : List (Op P))
  | completed (p : P)
  | post (p : P) (group : List P)
  | waited (p : P)
  | lock (p target : P) (type : LockType)
  | unlock (p target : P) (order : List (Op P))
  | unlocked (p : P)
  | fence (p : P)
  | fenceFailed (p : P)
  | reduced (p : P) (order : List (Op P))
  | counted (p : P)
  | fenced (p : P)

def step [Fintype P] (w : World P) : Event P → World P
  | .issue p r => w.issue p r
  | .deliver q p => w.deliver z q p
  | .landed p i => w.landed p i
  | .replyLanded p i => w.replyLanded p i
  | .sent p i => w.sent p i
  | .grant p => w.grant p
  | .start p group => w.start p group
  | .complete p order => w.complete z p order
  | .completed p => w.completed p
  | .post p group => w.post p group
  | .waited p => w.waited p
  | .lock p target type => w.lock p target type
  | .unlock p target order => w.unlock z p target order
  | .unlocked p => w.unlocked p
  | .fence p => w.fence p
  | .fenceFailed p => w.fenceFailed p
  | .reduced p order => w.reduced z p order
  | .counted p => w.counted p
  | .fenced p => w.fenced p

end Step

end Ulfm.Osc
