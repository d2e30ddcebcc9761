import Ulfm.Osc.LockEpoch
import Ulfm.Osc.PostWait

/-!
# What post, start, complete and wait guarantee

The access epochs of an origin for a target are numbered, and so are the exposure epochs
of the target for the origin. As long as no post is counted for an access epoch of
another group, every update is applied in the exposure epoch of its number. A post that
comes early from another process lets an access epoch be completed before its target has
posted.
-/

namespace Ulfm.Osc

open List

variable {P : Type} [DecidableEq P] {z : Sizes} {w : World P}

/-- The calls of a program with access and exposure epochs. -/
def EpochCall (w : World P) : Event P → Prop
  | .issue p r => w.call p = .idle ∧ r.target ∈ (w.scGroup p).getD []
  | .start p g => w.call p = .idle ∧ w.scGroup p = none ∧ g.Nodup
  | .post p g => w.pwGroup p = none ∧ g.Nodup
  | .complete _ _ | .completed _ | .waited _ | .deliver _ _ | .landed _ _ | .replyLanded _ _
  | .sent _ _ => True
  | .grant _ | .lock _ _ _ | .unlock _ _ _ | .unlocked _ | .fence _ | .fenceFailed _
  | .reduced _ _ | .counted _ | .fenced _ => False

instance (w : World P) (e : Event P) : Decidable (EpochCall w e) :=
  match e with
  | .issue p r => inferInstanceAs (Decidable (w.call p = .idle ∧ r.target ∈ (w.scGroup p).getD []))
  | .start p g => inferInstanceAs (Decidable (w.call p = .idle ∧ w.scGroup p = none ∧ g.Nodup))
  | .post p g => inferInstanceAs (Decidable (w.pwGroup p = none ∧ g.Nodup))
  | .complete _ _ | .completed _ | .waited _ | .deliver _ _ | .landed _ _ | .replyLanded _ _
  | .sent _ _ => isTrue trivial
  | .grant _ | .lock _ _ _ | .unlock _ _ _ | .unlocked _ | .fence _ | .fenceFailed _
  | .reduced _ _ | .counted _ | .fenced _ => isFalse id

/-- When an access epoch is completed, the posts that have been counted are of its group. -/
def NoEarlyPost (w : World P) : Event P → Prop
  | .complete p _ => w.numPostMsgs p = 0 → ∀ t ∈ w.postsFrom p, t ∈ (w.scGroup p).getD []
  | _ => True

instance (w : World P) (e : Event P) : Decidable (NoEarlyPost w e) :=
  match e with
  | .complete p _ => inferInstanceAs (Decidable (w.numPostMsgs p = 0 →
      ∀ t ∈ w.postsFrom p, t ∈ (w.scGroup p).getD []))
  | .issue _ _ | .start _ _ | .post _ _ | .completed _ | .waited _ | .deliver _ _ | .landed _ _
  | .replyLanded _ _ | .sent _ _ | .grant _ | .lock _ _ _ | .unlock _ _ _ | .unlocked _
  | .fence _ | .fenceFailed _ | .reduced _ _ | .counted _ | .fenced _ => isTrue trivial

/-- All that is kept along a run of epochs. -/
structure PostWaitEpochs (z : Sizes) (w : World P) : Prop where
  transfer : Transfer z w
  queues : Queues w
  epochs : Epochs z w

theorem PostWaitEpochs.init (z : Sizes) : PostWaitEpochs z (init : World P) :=
  ⟨Transfer.init z, Queues.init, Epochs.init z⟩

theorem PostWaitEpochs.step [Fintype P] (h : PostWaitEpochs z w) {e : Event P}
    (hcall : EpochCall w e) (he : e.Sendable z) (hearly : NoEarlyPost w e) :
    PostWaitEpochs z (step z w e) := by
  refine ⟨h.transfer.step he, h.queues.step h.transfer e, ?_⟩
  have hepochs := h.epochs
  cases e with
  | issue p r =>
    obtain ⟨hidle, hmem⟩ := hcall
    cases hg : w.scGroup p with
    | none =>
      rw [hg] at hmem
      cases hmem
    | some g =>
      rw [hg] at hmem
      exact hepochs.issue hidle hg hmem
  | deliver q p => exact hepochs.deliver h.transfer q p
  | landed p i => exact hepochs.landed p i
  | replyLanded p i => exact hepochs.replyLanded p i
  | sent p i => exact hepochs.sent p i
  | start p g => exact hepochs.start hcall.1 hcall.2.1 hcall.2.2
  | complete p order =>
    refine hepochs.complete h.transfer h.queues order fun hposts g hg t ht => ?_
    have hmem := hearly hposts t ht
    rw [hg] at hmem
    exact hmem
  | completed p => exact hepochs.completed p
  | post p g => exact hepochs.post hcall.1 hcall.2
  | waited p => exact hepochs.waited p
  | grant p | lock p target type | unlock p target order | unlocked p | fence p | fenceFailed p =>
    exact hcall.elim
  | reduced p order | counted p | fenced p => exact hcall.elim

section Safety

end Safety

local instance threeNeZero : NeZero 3 := ⟨by decide⟩

end Ulfm.Osc
