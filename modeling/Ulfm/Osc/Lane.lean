import Ulfm.Osc.Lines

/-!
# The lanes of post, start, complete and wait

Between an origin and a target the epochs are numbered from both sides. What has been
posted and not completed is on the way as a message or has been counted by the origin;
what has been completed and not waited for is on the way or has been counted by the
target, with its operations behind it.
-/

namespace Ulfm.Osc

open List Osc.World

section Definitions

variable {P : Type}

def Msg.isPost : Msg P → Bool
  | .post => true
  | _ => false

def Msg.isComplete : Msg P → Bool
  | .complete _ => true
  | _ => false

variable [DecidableEq P]

namespace World

variable (w : World P)

/-- The group of an access epoch that has not been completed. -/
def access (o : P) : List P := if w.call o = .completing then [] else (w.scGroup o).getD []

def exposure (t : P) : List P := (w.pwGroup t).getD []

end World

/-- The epochs of an origin with a target. -/
structure Lane (z : Sizes) (w : World P) (o t : P) : Prop where
  posts : w.posts t o = w.completes o t + (w.chan t o).countP Msg.isPost + (w.postsFrom o).count t
  exposed : w.posts t o = w.waits t o + (w.exposure t).count o
  completes : w.completes o t =
    w.waits t o + (w.line o t).countP Msg.isComplete + (w.completesFrom t).count o
  starts : w.starts o t = w.completes o t + (w.access o).count t
  line : (∃ ops : List (Op P), w.line o t = ops.map z.opMsg ∧
      (w.underWay o t ≠ [] → o ∈ w.completesFrom t)) ∨
    ∃ ops : List (Op P), w.line o t = .complete ops.length :: ops.map z.opMsg ∧ w.begun t o = []
  epoch : ∀ r ∈ w.underWay o t, r.access = w.completes o t
  back : w.back t o = []

structure Exposure (w : World P) (t : P) : Prop where
  incoming : w.numPendingIn t = ((w.completesFrom t).map fun o => (w.underWay o t).length).sum
  completeMsgs : w.numCompleteMsgs t = (w.exposure t).length - (w.completesFrom t).length
  nodup : (w.exposure t).Nodup
  unlocked : w.lockStatus t = none

structure Access (w : World P) (o : P) : Prop where
  postMsgs : w.numPostMsgs o = (w.access o).length - (w.postsFrom o).length
  nodup : (w.access o).Nodup
  pending : ∀ r ∈ w.pendingSendreqs o, r.target ∈ w.access o ∧ r.access = w.starts o r.target
  call : w.call o = .idle ∨ w.call o = .completing

structure Epochs (z : Sizes) (w : World P) : Prop where
  lanes : ∀ o t, Lane z w o t
  exposures : ∀ t, Exposure w t
  accesses : ∀ o, Access w o

end Definitions

variable {P : Type} [DecidableEq P] {z : Sizes} {w w' : World P}

theorem Epochs.init (z : Sizes) : Epochs z (init : World P) := by
  refine ⟨fun o t => ⟨rfl, rfl, rfl, rfl, Or.inl ⟨[], rfl, fun h => absurd rfl h⟩, ?_, rfl⟩,
    fun t => ⟨rfl, rfl, nodup_nil, rfl⟩, fun o => ⟨rfl, nodup_nil, ?_, Or.inl rfl⟩⟩
  · intro r hr
    cases hr
  · intro r hr
    cases hr

section Frames

theorem Lane.congr {o t : P} (h : Lane z w o t) (posts : w'.posts t o = w.posts t o)
    (completes : w'.completes o t = w.completes o t) (waits : w'.waits t o = w.waits t o)
    (starts : w'.starts o t = w.starts o t)
    (postsOn : (w'.chan t o).countP Msg.isPost = (w.chan t o).countP Msg.isPost)
    (postsFrom : (w'.postsFrom o).count t = (w.postsFrom o).count t)
    (exposure : (w'.exposure t).count o = (w.exposure t).count o)
    (access : (w'.access o).count t = (w.access o).count t)
    (completesFrom : (w'.completesFrom t).count o = (w.completesFrom t).count o)
    (line : w'.line o t = w.line o t) (begun : w'.begun t o = w.begun t o)
    (back : w'.back t o = w.back t o) : Lane z w' o t := by
  have hway : w'.underWay o t = w.underWay o t := by
    unfold underWay
    rw [flying_eq, flying_eq, line, begun]
  constructor
  · rw [posts, completes, postsOn, postsFrom]
    exact h.posts
  · rw [posts, waits, exposure]
    exact h.exposed
  · rw [completes, waits, line, completesFrom]
    exact h.completes
  · rw [starts, completes, access]
    exact h.starts
  · rw [line, hway, begun]
    refine h.line.imp_left fun ⟨ops, hops, hmem⟩ => ⟨ops, hops, fun hne => ?_⟩
    have hpos := count_pos_iff.mpr (hmem hne)
    exact count_pos_iff.mp (completesFrom ▸ hpos)
  · rw [hway, completes]
    exact h.epoch
  · rw [back, h.back]

/-- What concerns the epochs is the same in both states. -/
structure SameEpochs (w w' : World P) : Prop where
  posts : w'.posts = w.posts
  completes : w'.completes = w.completes
  waits : w'.waits = w.waits
  starts : w'.starts = w.starts
  postsFrom : w'.postsFrom = w.postsFrom
  completesFrom : w'.completesFrom = w.completesFrom
  pwGroup : w'.pwGroup = w.pwGroup
  scGroup : w'.scGroup = w.scGroup
  call : w'.call = w.call
  numPostMsgs : w'.numPostMsgs = w.numPostMsgs
  numCompleteMsgs : w'.numCompleteMsgs = w.numCompleteMsgs
  pending : w'.pendingSendreqs = w.pendingSendreqs
  status : w'.lockStatus = w.lockStatus

omit [DecidableEq P] in
theorem SameEpochs.access (same : SameEpochs w w') (o : P) : w'.access o = w.access o := by
  simp only [World.access, same.call, same.scGroup]

omit [DecidableEq P] in
theorem SameEpochs.exposure (same : SameEpochs w w') (t : P) : w'.exposure t = w.exposure t := by
  simp only [World.exposure, same.pwGroup]

theorem Lane.of_same {o t : P} (h : Lane z w o t) (same : SameEpochs w w')
    (postsOn : (w'.chan t o).countP Msg.isPost = (w.chan t o).countP Msg.isPost)
    (line : w'.line o t = w.line o t) (begun : w'.begun t o = w.begun t o)
    (back : w'.back t o = w.back t o) : Lane z w' o t := by
  refine h.congr ?_ ?_ ?_ ?_ postsOn ?_ ?_ ?_ ?_ line begun back
  · rw [same.posts]
  · rw [same.completes]
  · rw [same.waits]
  · rw [same.starts]
  · rw [same.postsFrom]
  · rw [same.exposure]
  · rw [same.access]
  · rw [same.completesFrom]

omit [DecidableEq P] in
theorem Access.of_same {o : P} (h : Access w o) (same : SameEpochs w w') : Access w' o := by
  constructor
  · rw [same.numPostMsgs, same.access, same.postsFrom]
    exact h.postMsgs
  · rw [same.access]
    exact h.nodup
  · rw [same.pending, same.access, same.starts]
    exact h.pending
  · rw [same.call]
    exact h.call

theorem Exposure.of_same {t : P} (h : Exposure w t) (same : SameEpochs w w')
    (incoming : w'.numPendingIn t =
      ((w.completesFrom t).map fun o => (w'.underWay o t).length).sum) : Exposure w' t := by
  constructor
  · rw [same.completesFrom]
    exact incoming
  · rw [same.numCompleteMsgs, same.exposure, same.completesFrom]
    exact h.completeMsgs
  · rw [same.exposure]
    exact h.nodup
  · rw [same.status]
    exact h.unlocked

theorem Epochs.of_same (h : Epochs z w) (same : SameEpochs w w')
    (postsOn : ∀ t o, (w'.chan t o).countP Msg.isPost = (w.chan t o).countP Msg.isPost)
    (line : ∀ o t, w'.line o t = w.line o t) (begun : ∀ t o, w'.begun t o = w.begun t o)
    (back : ∀ t o, w'.back t o = w.back t o) (incoming : w'.numPendingIn = w.numPendingIn) :
    Epochs z w' := by
  refine ⟨fun o t => (h.lanes o t).of_same same (postsOn t o) (line o t) (begun t o) (back t o),
    fun t => (h.exposures t).of_same same ?_, fun o => (h.accesses o).of_same same⟩
  have hway : ∀ o, w'.underWay o t = w.underWay o t := by
    intro o
    unfold underWay
    rw [flying_eq, flying_eq, line, begun]
  simp only [hway, incoming]
  exact (h.exposures t).incoming

end Frames

section Counts

/-- The posts that are counted, the completes that are counted, and those that are on their
way belong to one exposure epoch. -/
theorem Lane.count_le {o t : P} (h : Lane z w o t) (hnodup : (w.exposure t).Nodup) :
    (w.chan t o).countP Msg.isPost + (w.postsFrom o).count t +
      (w.line o t).countP Msg.isComplete + (w.completesFrom t).count o =
        (w.exposure t).count o ∧ (w.exposure t).count o ≤ 1 := by
  have hposts := h.posts
  have hexposed := h.exposed
  have hcompletes := h.completes
  have hone := nodup_iff_count_le_one.mp hnodup o
  omega

theorem Epochs.nodup_postsFrom (h : Epochs z w) (o : P) : (w.postsFrom o).Nodup := by
  refine nodup_iff_count_le_one.mpr fun t => ?_
  obtain ⟨hcount, hone⟩ := (h.lanes o t).count_le (h.exposures t).nodup
  omega

theorem Epochs.nodup_completesFrom (h : Epochs z w) (t : P) : (w.completesFrom t).Nodup := by
  refine nodup_iff_count_le_one.mpr fun o => ?_
  obtain ⟨hcount, hone⟩ := (h.lanes o t).count_le (h.exposures t).nodup
  omega

theorem Epochs.completesFrom_subset (h : Epochs z w) (t : P) :
    w.completesFrom t ⊆ w.exposure t := by
  intro o ho
  obtain ⟨hcount, -⟩ := (h.lanes o t).count_le (h.exposures t).nodup
  have hpos := count_pos_iff.mpr ho
  exact count_pos_iff.mp (by omega)

omit [DecidableEq P] in
theorem perm_of_subset {l l' : List P} (hl : l.Nodup) (hsub : l ⊆ l')
    (hlength : l'.length ≤ l.length) : l.Perm l' :=
  (subperm_of_subset hl hsub).perm_of_length_le hlength

end Counts

end Ulfm.Osc
