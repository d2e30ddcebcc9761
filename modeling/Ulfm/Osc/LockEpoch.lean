import Ulfm.Osc.Lock

/-!
# What the locks of a window guarantee

Runs in which every process locks one target at a time, issues its operations there and
unlocks it. As long as every operation can be sent, an exclusive lock is alone, every
request is granted once, nothing is applied without a lock, and an unlock returns when
the operations have been applied and the gets have their data. A request that does not
fit into an eager buffer ends the unlock with an error after it has been announced.
-/

namespace Ulfm.Osc

open List Osc.World

variable {P : Type} [DecidableEq P] {z : Sizes} {w : World P}

/-- The calls of a program that synchronises with locks, one target at a time. -/
def LockCall (w : World P) : Event P → Prop
  | .issue p r => w.call p = .idle ∧ w.lockTarget p = some r.target
  | .lock p _ _ => w.call p = .idle ∧ w.lockTarget p = none
  | .unlock p target _ => w.call p = .idle ∧ w.lockTarget p = some target
  | .unlocked _ | .deliver _ _ | .landed _ _ | .replyLanded _ _ | .sent _ _ | .grant _ => True
  | .start _ _ | .complete _ _ | .completed _ | .post _ _ | .waited _ | .fence _
  | .fenceFailed _ | .reduced _ _ | .counted _ | .fenced _ => False

instance (w : World P) (e : Event P) : Decidable (LockCall w e) :=
  match e with
  | .issue p r => inferInstanceAs (Decidable (w.call p = .idle ∧ w.lockTarget p = some r.target))
  | .lock p _ _ => inferInstanceAs (Decidable (w.call p = .idle ∧ w.lockTarget p = none))
  | .unlock p target _ =>
    inferInstanceAs (Decidable (w.call p = .idle ∧ w.lockTarget p = some target))
  | .unlocked _ | .deliver _ _ | .landed _ _ | .replyLanded _ _ | .sent _ _ | .grant _ =>
    isTrue trivial
  | .start _ _ | .complete _ _ | .completed _ | .post _ _ | .waited _ | .fence _
  | .fenceFailed _ | .reduced _ _ | .counted _ | .fenced _ => isFalse id

def World.Holds (w : World P) (o t : P) : Prop := ∃ type, (o, type) ∈ w.granted t

/-- All that is kept along a run of lock epochs. -/
structure LockEpochs (z : Sizes) (w : World P) : Prop where
  transfer : Transfer z w
  queues : Queues w
  locking : Locking z w

theorem LockEpochs.init (z : Sizes) : LockEpochs z (init : World P) :=
  ⟨Transfer.init z, Queues.init, Locking.init z⟩

theorem LockEpochs.step [Fintype P] (h : LockEpochs z w) {e : Event P} (hcall : LockCall w e)
    (he : e.Sendable z) : LockEpochs z (step z w e) := by
  refine ⟨h.transfer.step he, h.queues.step h.transfer e, ?_⟩
  have hlocking := h.locking
  cases e with
  | issue p r => exact hlocking.issue hcall.1 hcall.2
  | deliver q p => exact hlocking.deliver h.transfer q p
  | landed p i => exact hlocking.landed p i
  | replyLanded p i => exact hlocking.replyLanded h.transfer p i
  | sent p i => exact hlocking.sent p i
  | grant p => exact hlocking.grant p
  | lock p target type => exact hlocking.lock target type hcall.2
  | unlock p target order => exact hlocking.unlock h.transfer h.queues hcall.2 order
  | unlocked p => exact hlocking.unlocked p
  | start p group | complete p order | completed p | post p group | waited p | fence p =>
    exact hcall.elim
  | fenceFailed p | reduced p order | counted p | fenced p => exact hcall.elim

section Safety

theorem Session.holds {o t : P} {type : LockType} {ops begun : List (Op P)}
    (hs : Session z w o (some (t, .closing type ops begun))) : w.Holds o t := by
  have hheld : typesOf (w.granted t) o = [type] := congrArg Pair.held hs.pair_eq
  exact ⟨type, mem_typesOf.mp (hheld ▸ mem_singleton_self type)⟩

end Safety

end Ulfm.Osc
