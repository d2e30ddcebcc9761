import Ulfm.Osc.Lines

/-!
# The sessions of a passive target

What there is between an origin and a target that it has locked: the messages in both
directions, the request in the queue, the lock, the release that is due and the
operations that the target has begun. A session goes from the request over the lock to
the release, and in each of its stages all of this is known.
-/

namespace Ulfm.Osc

open List Option Osc.World

section Views

variable {P : Type}

def Msg.isLockReq : Msg P → Bool
  | .lockReq _ => true
  | _ => false

/-- What there is between an origin and a target. -/
@[ext]
structure Pair (P : Type) where
  line : List (Msg P)
  back : List (Msg P)
  queue : List LockType
  held : List LockType
  closing : ℕ
  begun : List (Op P)

def Pair.empty : Pair P := ⟨[], [], [], [], 0, []⟩

/-- The operations that have been announced to the target and are not marked complete. -/
def Pair.rest (v : Pair P) : ℕ := (v.line.filterMap Msg.op?).length + v.begun.length

variable [DecidableEq P]

def typesOf (l : List (P × LockType)) (o : P) : List LockType :=
  l.filterMap fun g => if g.1 = o then some g.2 else none

theorem typesOf_append (l l' : List (P × LockType)) (o : P) :
    typesOf (l ++ l') o = typesOf l o ++ typesOf l' o :=
  filterMap_append

theorem typesOf_cons (g : P × LockType) (l : List (P × LockType)) (o : P) :
    typesOf (g :: l) o = (if g.1 = o then [g.2] else []) ++ typesOf l o := by
  unfold typesOf
  rw [filterMap_cons]
  split_ifs <;> rfl

theorem mem_typesOf {l : List (P × LockType)} {o : P} {type : LockType} :
    type ∈ typesOf l o ↔ (o, type) ∈ l := by
  unfold typesOf
  simp

namespace World

variable (w : World P)

def pair (o t : P) : Pair P where
  line := w.line o t
  back := w.back t o
  queue := typesOf (w.locksPending t) o
  held := typesOf (w.granted t) o
  closing := (w.unlocksPending t).count o
  begun := w.begun t o

end World

end Views

/-- The stages of a session, from the request to the answer to the release. -/
inductive Stage (P : Type)
  | requested (type : LockType)
  | queued (type : LockType)
  | granted (type : LockType) (acked : Bool)
  | unlocking (type : LockType) (ops : List (Op P))
  | closing (type : LockType) (ops begun : List (Op P))
  | released
  | replied

namespace Stage

variable {P : Type}

/-- What there is between the origin and the target. -/
def pair (z : Sizes) : Stage P → Pair P
  | .requested type => { Pair.empty with line := [.lockReq type] }
  | .queued type => { Pair.empty with queue := [type] }
  | .granted type acked =>
    { Pair.empty with held := [type], back := if acked then [] else [.lockAck] }
  | .unlocking type ops =>
    { Pair.empty with held := [type], line := .unlockReq ops.length :: ops.map z.opMsg }
  | .closing type ops begun =>
    { Pair.empty with held := [type], line := ops.map z.opMsg, closing := 1, begun := begun }
  | .released => { Pair.empty with back := [.unlockReply] }
  | .replied => Pair.empty

/-- `p2p_lock_received_ack`. -/
def ack : Stage P → ℤ
  | .granted _ true => 1
  | _ => 0

def call : Stage P → Call
  | .requested _ | .queued _ | .granted _ _ => .idle
  | .unlocking _ _ | .closing _ _ _ | .released | .replied => .unlocking

/-- The answer to the release is still to come. -/
def due : Stage P → ℤ
  | .unlocking _ _ | .closing _ _ _ | .released => 1
  | .requested _ | .queued _ | .granted _ _ | .replied => 0

end Stage

section Sessions

variable {P : Type} [DecidableEq P]

/-- What there is between an origin in the given session and a target. -/
def sessionPair (z : Sizes) (s : Option (P × Stage P)) (t : P) : Pair P :=
  match s with
  | none => Pair.empty
  | some (t', stage) => if t = t' then stage.pair z else Pair.empty

/-- An origin is in the given session, with the target and the stage, or in none. -/
structure Session (z : Sizes) (w : World P) (o : P) (s : Option (P × Stage P)) : Prop where
  target : w.lockTarget o = s.map Prod.fst
  pair : ∀ t, w.pair o t = sessionPair z s t
  ack : w.lockReceivedAck o = (s.map fun e => e.2.ack).getD 0
  call : w.call o = (s.map fun e => e.2.call).getD .idle
  out : w.numPendingOut o = (w.sending o).length + (s.map fun e => e.2.due).getD 0
  rests : w.call o = .idle → w.sending o = []
  queued : ∀ r ∈ w.pendingSendreqs o, w.lockTarget o = some r.target
  closed : w.call o = .unlocking → w.pendingSendreqs o = []

/-- The lock of a target and the locks that are granted. -/
def Agrees (status : Option LockType) (granted : List (P × LockType)) : Prop :=
  match status with
  | none => granted = []
  | some .exclusive => ∃ o, granted = [(o, .exclusive)]
  | some .shared => granted ≠ [] ∧ ∀ g ∈ granted, g.2 = .shared

/-- What a target knows agrees with the sessions. -/
structure Serves (w : World P) (t : P) : Prop where
  incoming : w.numPendingIn t = ((w.unlocksPending t).map fun o => (w.pair o t).rest).sum
  status : Agrees (w.lockStatus t) (w.granted t)
  shared : w.sharedCount t = (w.granted t).countP fun g => g.2 = LockType.shared
  waiting : w.lockStatus t = none → w.granting t = 0 → w.locksPending t = []
  once : ∀ o, w.requests o t =
    w.grants t o + (w.pair o t).line.countP Msg.isLockReq + (w.pair o t).queue.length

/-- Every process is in a session or in none, as an origin, and serves as a target. -/
structure Locking (z : Sizes) (w : World P) : Prop where
  sessions : ∀ o, ∃ s, Session z w o s
  serves : ∀ t, Serves w t
  noGroup : ∀ o, w.scGroup o = none

theorem Session.init (z : Sizes) (o : P) : Session z (init : World P) o none := by
  constructor <;> intros <;> first | rfl | simp_all [Osc.init]

theorem Locking.init (z : Sizes) : Locking z (init : World P) := by
  refine ⟨fun o => ⟨none, Session.init z o⟩, fun t => ?_, fun o => rfl⟩
  constructor <;> intros <;> rfl

end Sessions

section Frames

variable {P : Type} [DecidableEq P] {z : Sizes} {w w' : World P}

theorem Session.congr {o : P} {s : Option (P × Stage P)} (h : Session z w o s)
    (target : w'.lockTarget o = w.lockTarget o) (pair : ∀ t, w'.pair o t = w.pair o t)
    (ack : w'.lockReceivedAck o = w.lockReceivedAck o) (call : w'.call o = w.call o)
    (out : w'.numPendingOut o - (w'.sending o).length = w.numPendingOut o - (w.sending o).length)
    (rests : w.sending o = [] → w'.sending o = [])
    (pending : w'.pendingSendreqs o = w.pendingSendreqs o) : Session z w' o s := by
  constructor
  · rw [target, h.target]
  · intro t
    rw [pair, h.pair]
  · rw [ack, h.ack]
  · rw [call, h.call]
  · have := h.out
    omega
  · intro hidle
    exact rests (h.rests (call ▸ hidle))
  · rw [pending, target]
    exact h.queued
  · rw [pending, call]
    exact h.closed

theorem Session.pair_eq {o t : P} {stage : Stage P} (h : Session z w o (some (t, stage))) :
    w.pair o t = stage.pair z := by
  rw [h.pair]
  exact if_pos rfl

theorem Session.pair_of_ne {o t t' : P} {stage : Stage P} (h : Session z w o (some (t, stage)))
    (ht : t' ≠ t) : w.pair o t' = Pair.empty := by
  rw [h.pair]
  exact if_neg ht

/-- What an origin knows is the same in both states. -/
structure SameOrigins (w w' : World P) : Prop where
  target : w'.lockTarget = w.lockTarget
  ack : w'.lockReceivedAck = w.lockReceivedAck
  call : w'.call = w.call
  out : w'.numPendingOut = w.numPendingOut
  sending : w'.sending = w.sending
  pending : w'.pendingSendreqs = w.pendingSendreqs

theorem Session.of_same {o : P} {s : Option (P × Stage P)} (h : Session z w o s)
    (same : SameOrigins w w') (pair : ∀ t, w'.pair o t = w.pair o t) : Session z w' o s := by
  refine h.congr ?_ pair ?_ ?_ ?_ ?_ ?_
  · rw [same.target]
  · rw [same.ack]
  · rw [same.call]
  · rw [same.out, same.sending]
  · rw [same.sending]
    exact id
  · rw [same.pending]

theorem Session.pair_to {o t : P} {stage stage' : Stage P} (h : Session z w o (some (t, stage)))
    (pair : w'.pair o t = stage'.pair z) (others : ∀ t', t' ≠ t → w'.pair o t' = w.pair o t')
    (t' : P) : w'.pair o t' = sessionPair z (some (t, stage')) t' := by
  unfold sessionPair
  simp only
  split_ifs with ht
  · rw [ht, pair]
  · rw [others t' ht, h.pair_of_ne ht]

theorem Session.move {o t : P} {stage stage' : Stage P} (h : Session z w o (some (t, stage)))
    (same : SameOrigins w w') (pair : w'.pair o t = stage'.pair z)
    (others : ∀ t', t' ≠ t → w'.pair o t' = w.pair o t') (ack : stage'.ack = stage.ack)
    (call : stage'.call = stage.call) (due : stage'.due = stage.due) :
    Session z w' o (some (t, stage')) := by
  constructor
  · rw [same.target, h.target]
    rfl
  · exact h.pair_to pair others
  · rw [same.ack, h.ack]
    exact ack.symm
  · rw [same.call, h.call]
    exact call.symm
  · rw [same.out, same.sending, h.out]
    simp only [map_some, getD_some, due]
  · rw [same.call, same.sending]
    exact h.rests
  · rw [same.pending, same.target]
    exact h.queued
  · rw [same.pending, same.call]
    exact h.closed

/-- The locks of all targets are the same in both states. -/
structure SameTargets (w w' : World P) : Prop where
  unlocks : w'.unlocksPending = w.unlocksPending
  status : w'.lockStatus = w.lockStatus
  granted : w'.granted = w.granted
  shared : w'.sharedCount = w.sharedCount
  granting : w'.granting = w.granting
  locks : w'.locksPending = w.locksPending
  requests : w'.requests = w.requests
  grants : w'.grants = w.grants
  group : w'.scGroup = w.scGroup

theorem Serves.congr {t : P} (h : Serves w t) (line : ∀ o, w'.line o t = w.line o t)
    (begun : ∀ o, w'.begun t o = w.begun t o) (incoming : w'.numPendingIn t = w.numPendingIn t)
    (unlocks : w'.unlocksPending t = w.unlocksPending t)
    (status : w'.lockStatus t = w.lockStatus t) (granted : w'.granted t = w.granted t)
    (shared : w'.sharedCount t = w.sharedCount t) (granting : w'.granting t = w.granting t)
    (locks : w'.locksPending t = w.locksPending t)
    (requests : ∀ o, w'.requests o t = w.requests o t)
    (grants : w'.grants t = w.grants t) : Serves w' t := by
  have hrest : ∀ o, (w'.pair o t).rest = (w.pair o t).rest := by
    intro o
    simp only [Pair.rest, pair, line, begun]
  constructor
  · rw [incoming, unlocks, h.incoming]
    simp only [hrest]
  · rw [status, granted]
    exact h.status
  · rw [shared, granted]
    exact h.shared
  · rw [status, granting, locks]
    exact h.waiting
  · intro o
    have honce := h.once o
    simp only [pair] at honce ⊢
    rw [requests, grants, line, locks]
    exact honce

theorem Serves.of_same {t : P} (h : Serves w t) (same : SameTargets w w')
    (line : ∀ o, w'.line o t = w.line o t) (begun : ∀ o, w'.begun t o = w.begun t o)
    (incoming : w'.numPendingIn t = w.numPendingIn t) : Serves w' t := by
  refine h.congr line begun incoming ?_ ?_ ?_ ?_ ?_ ?_ ?_ ?_
  · rw [same.unlocks]
  · rw [same.status]
  · rw [same.granted]
  · rw [same.shared]
  · rw [same.granting]
  · rw [same.locks]
  · intro o
    rw [same.requests]
  · rw [same.grants]

theorem Session.exists_stage {o t : P} {s : Option (P × Stage P)} (h : Session z w o s)
    (hne : w.pair o t ≠ Pair.empty) : ∃ stage, s = some (t, stage) := by
  rw [h.pair] at hne
  unfold sessionPair at hne
  cases s with
  | none => exact absurd rfl hne
  | some e =>
    obtain ⟨t', stage⟩ := e
    simp only at hne
    split_ifs at hne with ht
    · exact ⟨stage, by rw [ht]⟩
    · exact absurd rfl hne

end Frames

section Closing

variable {P : Type} [DecidableEq P] {z : Sizes} {w : World P}

theorem World.pair_passiveUnlockComplete {p : P} (hin : w.numPendingIn p = 0) (o t : P) :
    (w.passiveUnlockComplete p).pair o t = if t = p then
        { w.pair o t with
          back := w.back p o ++ ((w.unlocksPending p).filter (· = o)).map fun _ => .unlockReply
          held := typesOf ((w.granted p).filter fun g => g.1 ∉ w.unlocksPending p) o
          closing := 0 }
      else w.pair o t := by
  unfold passiveUnlockComplete
  rw [if_neg (not_not.mpr hin)]
  simp only
  have hrequest : ∀ b, (((w.unlocksPending p).filter (· = b)).map
      fun _ => (Msg.unlockReply : Msg P)).filter Msg.isRequest = [] := by
    intro b
    simp [Msg.isRequest]
  have hanswer : ∀ b, (((w.unlocksPending p).filter (· = b)).map
      fun _ => (Msg.unlockReply : Msg P)).filter Msg.isAnswer =
        ((w.unlocksPending p).filter (· = b)).map fun _ => .unlockReply := by
    intro b
    simp [filter_eq_self, Msg.isAnswer]
  by_cases ht : t = p
  · subst ht
    rw [if_pos rfl]
    ext1
    · simp only [pair]
      rw [line_emit, hrequest, ite_self, append_nil]
      rfl
    · simp only [pair]
      rw [back_emit, hanswer, if_pos rfl]
      rfl
    · rfl
    · simp only [pair]
      change typesOf (upd _ t _ t) o = _
      rw [upd_self]
    · simp only [pair]
      change (upd _ t [] t).count o = _
      rw [upd_self]
      rfl
    · rfl
  · rw [if_neg ht]
    ext1
    · simp only [pair]
      rw [line_emit, hrequest, ite_self, append_nil]
      rfl
    · simp only [pair]
      rw [back_emit, if_neg ht, append_nil]
      rfl
    · rfl
    · simp only [pair]
      change typesOf (upd _ p _ t) o = _
      rw [upd_of_ne _ _ ht]
    · simp only [pair]
      change (upd _ p [] t).count o = _
      rw [upd_of_ne _ _ ht]
    · rfl

theorem typesOf_filter_of_notMem {l : List (P × LockType)} {releases : List P} {o : P}
    (h : o ∉ releases) : typesOf (l.filter fun g => g.1 ∉ releases) o = typesOf l o := by
  unfold typesOf
  rw [filterMap_filter]
  congr 1
  funext g
  by_cases hg : g.1 = o
  · simp [hg, h]
  · simp [hg]

theorem typesOf_filter_of_mem {l : List (P × LockType)} {releases : List P} {o : P}
    (h : o ∈ releases) : typesOf (l.filter fun g => g.1 ∉ releases) o = [] := by
  unfold typesOf
  rw [filterMap_filter]
  refine filterMap_eq_nil_iff.mpr fun g _ => ?_
  by_cases hg : g.1 = o
  · simp [hg, h]
  · simp [hg]

theorem Locking.stage_of (h : Locking z w) {o t : P} {α : Type} (part : Pair P → α) {a : α}
    (hpart : part (w.pair o t) = a) (hne : a ≠ part Pair.empty) :
    ∃ stage, Session z w o (some (t, stage)) ∧ part (stage.pair z) = a := by
  obtain ⟨s, hs⟩ := h.sessions o
  obtain ⟨stage, rfl⟩ := hs.exists_stage (t := t) fun h => hne (hpart.symm.trans (congrArg part h))
  exact ⟨stage, hs, hs.pair_eq ▸ hpart⟩

theorem Locking.closing_of_mem (h : Locking z w) {o p : P} (ho : o ∈ w.unlocksPending p) :
    ∃ type ops begun, Session z w o (some (p, .closing type ops begun)) := by
  have hcount : 0 < (w.pair o p).closing := count_pos_iff.mpr ho
  obtain ⟨stage, hs, hclosing⟩ := h.stage_of Pair.closing rfl hcount.ne'
  rw [← hclosing] at hcount
  cases stage with
  | closing type ops begun => exact ⟨type, ops, begun, hs⟩
  | requested type | queued type | granted type acked | unlocking type ops | released | replied =>
    exact absurd hcount (by simp [Stage.pair, Pair.empty])

theorem Locking.count_unlocksPending_le (h : Locking z w) (o p : P) :
    (w.unlocksPending p).count o ≤ 1 := by
  by_cases ho : o ∈ w.unlocksPending p
  · obtain ⟨type, ops, begun, hs⟩ := h.closing_of_mem ho
    have hclosing := congrArg Pair.closing hs.pair_eq
    exact hclosing.le
  · rw [count_eq_zero.mpr ho]
    omega

theorem Locking.nodup_unlocksPending (h : Locking z w) (p : P) : (w.unlocksPending p).Nodup :=
  nodup_iff_count_le_one.mpr fun o => h.count_unlocksPending_le o p

theorem countP_mem_cons {α : Type} {f : α → P} (l : List α) {o : P} {releases : List P}
    (ho : o ∉ releases) :
    (l.countP fun a => f a ∈ o :: releases) =
      (l.countP fun a => f a = o) + l.countP fun a => f a ∈ releases := by
  induction l with
  | nil => rfl
  | cons a l ih =>
    rw [countP_cons, countP_cons, countP_cons, ih]
    by_cases ha : f a = o
    · simp [ha, ho]
      omega
    · simp [ha]
      omega

theorem countP_mem_eq_sum {α : Type} {f : α → P} (l : List α) {releases : List P}
    (hnodup : releases.Nodup) :
    (l.countP fun a => f a ∈ releases) = (releases.map fun o => l.countP fun a => f a = o).sum := by
  induction releases with
  | nil => simp
  | cons o releases ih =>
    obtain ⟨ho, hnodup⟩ := nodup_cons.mp hnodup
    rw [countP_mem_cons l ho, ih hnodup, map_cons, sum_cons]

theorem countP_eq_length_typesOf (l : List (P × LockType)) (o : P) :
    (l.countP fun g => g.1 = o) = (typesOf l o).length := by
  induction l with
  | nil => rfl
  | cons g l ih =>
    rw [typesOf_cons, countP_cons, length_append, ih]
    by_cases hg : g.1 = o
    · simp [hg]
      omega
    · simp [hg]

theorem Locking.length_released (h : Locking z w) (p : P) :
    ((w.granted p).filter fun g => g.1 ∉ w.unlocksPending p).length +
      (w.unlocksPending p).length = (w.granted p).length := by
  have hsum := countP_mem_eq_sum (f := Prod.fst) (w.granted p) (h.nodup_unlocksPending p)
  have hone : ∀ o ∈ w.unlocksPending p, ((w.granted p).countP fun g => g.1 = o) = 1 := by
    intro o ho
    obtain ⟨type, ops, begun, hs⟩ := h.closing_of_mem ho
    rw [countP_eq_length_typesOf]
    exact congrArg length (congrArg Pair.held hs.pair_eq)
  rw [map_congr_left hone, map_const', sum_replicate_nat, Nat.mul_one] at hsum
  have hsplit := length_eq_countP_add_countP (l := w.granted p)
    fun g => decide (g.1 ∈ w.unlocksPending p)
  rw [← countP_eq_length_filter]
  simp only [decide_eq_true_eq, decide_not] at hsplit ⊢
  omega

theorem Locking.closing_done (h : Locking z w) {o p : P} (hin : w.numPendingIn p = 0)
    (ho : o ∈ w.unlocksPending p) :
    ∃ type, Session z w o (some (p, .closing type [] [])) := by
  obtain ⟨type, ops, begun, hs⟩ := h.closing_of_mem ho
  have hincoming := (h.serves p).incoming
  rw [hin] at hincoming
  have hsum : ((w.unlocksPending p).map fun o => (w.pair o p).rest).sum = 0 := by
    exact_mod_cast hincoming.symm
  have hzero : (w.pair o p).rest = 0 :=
    List.sum_eq_zero_iff_forall_eq_nat.mp hsum _ (List.mem_map_of_mem ho)
  rw [hs.pair_eq] at hzero
  simp only [Pair.rest, Stage.pair, filterMap_op?_map] at hzero
  obtain rfl : ops = [] := length_eq_zero_iff.mp (by omega)
  obtain rfl : begun = [] := length_eq_zero_iff.mp (by omega)
  exact ⟨type, hs⟩

theorem filter_eq_of_count_one {l : List P} {o : P} (h : l.count o = 1) :
    l.filter (· = o) = [o] := by
  have hfilter := filter_eq (l := l) o
  rw [h] at hfilter
  exact hfilter

theorem SameOrigins.passiveUnlockComplete (w : World P) (p : P) :
    SameOrigins w (w.passiveUnlockComplete p) := by
  unfold World.passiveUnlockComplete
  split_ifs <;> exact ⟨rfl, rfl, rfl, rfl, rfl, rfl⟩

theorem Locking.session_passiveUnlockComplete (h : Locking z w) {p : P}
    (hin : w.numPendingIn p = 0) (o : P) :
    ∃ s, Session z (w.passiveUnlockComplete p) o s := by
  have same := SameOrigins.passiveUnlockComplete w p
  by_cases ho : o ∈ w.unlocksPending p
  · obtain ⟨type, hs⟩ := h.closing_done hin ho
    have hpair := hs.pair_eq
    have hcount : (w.unlocksPending p).count o = 1 := congrArg Pair.closing hpair
    have hback : w.back p o = [] := congrArg Pair.back hpair
    refine ⟨some (p, .released), hs.move same ?_ (fun t ht => ?_) rfl rfl rfl⟩
    · rw [pair_passiveUnlockComplete hin, if_pos rfl, typesOf_filter_of_mem ho,
        filter_eq_of_count_one hcount, hpair, hback]
      rfl
    · rw [pair_passiveUnlockComplete hin, if_neg ht]
  · obtain ⟨s, hs⟩ := h.sessions o
    refine ⟨s, hs.of_same same fun t => ?_⟩
    rw [pair_passiveUnlockComplete hin]
    split_ifs with ht
    · subst ht
      have hnil : (w.unlocksPending t).filter (· = o) = [] := by
        rw [filter_eq_nil_iff]
        intro o' ho'
        simp only [decide_eq_true_eq]
        rintro rfl
        exact ho ho'
      rw [typesOf_filter_of_notMem ho, hnil]
      ext1
      · rfl
      · exact append_nil _
      · rfl
      · rfl
      · exact (count_eq_zero.mpr ho).symm
      · rfl
    · rfl

theorem Locking.agrees_passiveUnlockComplete (h : Locking z w) {p : P}
    (hin : w.numPendingIn p = 0) (hne : w.unlocksPending p ≠ []) :
    Agrees ((w.passiveUnlockComplete p).lockStatus p) ((w.passiveUnlockComplete p).granted p) ∧
      (w.passiveUnlockComplete p).sharedCount p =
        ((w.passiveUnlockComplete p).granted p).countP fun g => g.2 = LockType.shared := by
  have hlength := h.length_released p
  have hpos := length_pos_of_ne_nil hne
  have hshared := (h.serves p).shared
  have hstatus := (h.serves p).status
  have hgranted : (w.passiveUnlockComplete p).granted p =
      (w.granted p).filter fun g => g.1 ∉ w.unlocksPending p := by
    simp only [passiveUnlockComplete, if_neg (not_not.mpr hin)]
    exact upd_self _ _ _
  have hlock : (w.passiveUnlockComplete p).lockStatus p =
      if w.lockStatus p = some LockType.exclusive then none
      else if w.sharedCount p - (w.unlocksPending p).length = 0 then none
      else w.lockStatus p := by
    simp only [passiveUnlockComplete, if_neg (not_not.mpr hin)]
    exact upd_self _ _ _
  have hcount : (w.passiveUnlockComplete p).sharedCount p =
      if w.lockStatus p = some LockType.exclusive then w.sharedCount p
      else w.sharedCount p - (w.unlocksPending p).length := by
    simp only [passiveUnlockComplete, if_neg (not_not.mpr hin)]
    exact upd_self _ _ _
  rw [hgranted, hlock, hcount]
  set left := (w.granted p).filter fun g => g.1 ∉ w.unlocksPending p
  cases hst : w.lockStatus p with
  | none =>
    rw [hst] at hstatus
    rw [show w.granted p = [] from hstatus] at hlength
    simp only [length_nil] at hlength
    omega
  | some type =>
    cases type with
    | exclusive =>
      rw [hst] at hstatus
      obtain ⟨o, ho⟩ := hstatus
      rw [ho] at hlength hshared
      simp only [length_singleton] at hlength
      have hleft : left = [] := length_eq_zero_iff.mp (by omega)
      rw [hleft, if_pos rfl, if_pos rfl, hshared]
      exact ⟨rfl, rfl⟩
    | shared =>
      rw [hst] at hstatus
      obtain ⟨-, hall⟩ := hstatus
      have hleft : ∀ g ∈ left, g.2 = LockType.shared := fun g hg =>
        hall g (mem_filter.mp hg).1
      have hcountAll : ((w.granted p).countP fun g => g.2 = LockType.shared) =
          (w.granted p).length :=
        countP_eq_length.mpr fun g hg => decide_eq_true (hall g hg)
      have hcountLeft : (left.countP fun g => g.2 = LockType.shared) = left.length :=
        countP_eq_length.mpr fun g hg => decide_eq_true (hleft g hg)
      have hne' : some LockType.shared ≠ some LockType.exclusive := by simp
      rw [if_neg hne', if_neg hne', hcountLeft, hshared, hcountAll]
      refine ⟨?_, by omega⟩
      split_ifs with hzero
      · exact length_eq_zero_iff.mp (by omega)
      · refine ⟨fun hnil => hzero ?_, hleft⟩
        rw [hnil] at hlength
        simp only [length_nil] at hlength
        omega

theorem Locking.passiveUnlockComplete (h : Locking z w) {p : P} (hne : w.unlocksPending p ≠ []) :
    Locking z (w.passiveUnlockComplete p) := by
  by_cases hin : w.numPendingIn p = 0
  · refine ⟨h.session_passiveUnlockComplete hin, fun t => ?_, ?_⟩
    · by_cases ht : t = p
      · subst ht
        obtain ⟨hagrees, hshared⟩ := h.agrees_passiveUnlockComplete hin hne
        refine ⟨?_, hagrees, hshared, ?_, fun o => ?_⟩
        · simp only [World.passiveUnlockComplete, if_neg (not_not.mpr hin)]
          change w.numPendingIn t = _
          rw [hin]
          change (0 : ℤ) = ((((upd w.unlocksPending t [] t).map _).sum : ℕ) : ℤ)
          rw [upd_self]
          rfl
        · intro _ hgranting
          simp only [World.passiveUnlockComplete, if_neg (not_not.mpr hin)] at hgranting
          change upd w.granting t _ t = 0 at hgranting
          rw [upd_self] at hgranting
          omega
        · have honce := (h.serves t).once o
          rw [World.pair_passiveUnlockComplete hin, if_pos rfl]
          simp only [World.passiveUnlockComplete, if_neg (not_not.mpr hin)]
          exact honce
      · have hpair : ∀ o, (w.passiveUnlockComplete p).pair o t = w.pair o t := by
          intro o
          rw [World.pair_passiveUnlockComplete hin, if_neg ht]
        refine (h.serves t).congr (fun o => congrArg Pair.line (hpair o))
          (fun o => congrArg Pair.begun (hpair o)) ?_ ?_ ?_ ?_ ?_ ?_ ?_ ?_ ?_
        all_goals simp only [World.passiveUnlockComplete, if_neg (not_not.mpr hin)]
        · rfl
        · exact upd_of_ne _ _ ht
        · exact upd_of_ne _ _ ht
        · exact upd_of_ne _ _ ht
        · exact upd_of_ne _ _ ht
        · exact upd_of_ne _ _ ht
        · rfl
        · exact fun _ => rfl
        · rfl
    · unfold World.passiveUnlockComplete
      rw [if_neg (not_not.mpr hin)]
      exact h.noGroup
  · unfold World.passiveUnlockComplete
    rw [if_pos hin]
    exact h

end Closing

end Ulfm.Osc
