import Ulfm.Osc.Session

/-!
# Passive target synchronisation

What an origin may do with a lock, and that every event takes the sessions and the
targets to such again: requests are granted or queued, operations are applied under the
lock of their origin, and the releases are answered when no operation is left.
-/

namespace Ulfm.Osc

open List Option Osc.World Stage Pair Msg

variable {P : Type} [DecidableEq P] {z : Sizes} {w w' : World P}

section Messages

variable {q p : P} {m : Msg P} {rest : List (Msg P)}

theorem Locking.stage_of_request (h : Locking z w) (hc : w.chan q p = m :: rest)
    (hm : m.isRequest = true) : ∃ stage, Session z w q (some (p, stage)) ∧
      (stage.pair z).line = m :: (w.pop q p).line q p :=
  h.stage_of Pair.line (line_eq_cons hc hm) (cons_ne_nil _ _)

theorem Locking.stage_of_answer (h : Locking z w) (hc : w.chan q p = m :: rest)
    (hm : m.isAnswer = true) : ∃ stage, Session z w p (some (q, stage)) ∧
      (stage.pair z).back = m :: (w.pop q p).back q p :=
  h.stage_of Pair.back (back_eq_cons hc hm) (cons_ne_nil _ _)

end Messages

section Operations

omit [DecidableEq P] in
theorem Stage.rest_closing (type : LockType) (ops begun : List (Op P)) :
    ((Stage.closing type ops begun).pair z).rest = ops.length + begun.length := by
  simp only [rest, Stage.pair, filterMap_op?_map]

omit [DecidableEq P] in
theorem countP_isLockReq_map (ops : List (Op P)) : (ops.map z.opMsg).countP Msg.isLockReq = 0 := by
  rw [countP_eq_zero]
  intro m hm
  obtain ⟨r, -, rfl⟩ := List.mem_map.mp hm
  simp [Sizes.opMsg, isLockReq]

theorem Locking.advance (h : Locking z w) (same : SameOrigins w w') (targets : SameTargets w w')
    {q p : P} {type : LockType} {ops begun ops' begun' : List (Op P)} {k : ℕ}
    (hs : Session z w q (some (p, .closing type ops begun)))
    (pair : w'.pair q p = (Stage.closing type ops' begun').pair z)
    (others : ∀ o t, ¬(o = q ∧ t = p) → w'.pair o t = w.pair o t)
    (incoming : w'.numPendingIn = upd w.numPendingIn p (w.numPendingIn p - k))
    (hk : ops.length + begun.length = ops'.length + begun'.length + k) : Locking z w' := by
  refine ⟨fun o => ?_, fun t => ?_, ?_⟩
  · by_cases ho : o = q
    · subst ho
      exact ⟨_, hs.move same pair (fun t ht => others o t fun h => ht h.2) rfl rfl rfl⟩
    · obtain ⟨s, hs⟩ := h.sessions o
      exact ⟨s, hs.of_same same fun t => others o t fun h => ho h.1⟩
  · by_cases ht : t = p
    · subst ht
      have hserves := h.serves t
      have hq : q ∈ w.unlocksPending t := by
        have hcount : (w.unlocksPending t).count q = 1 := congrArg Pair.closing hs.pair_eq
        exact count_pos_iff.mp (by omega)
      have hsum := sum_map_of_dec (f := fun o => (w.pair o t).rest)
        (g := fun o => (w'.pair o t).rest) (k := k) (h.nodup_unlocksPending t) hq
        (by rw [hs.pair_eq, pair, rest_closing, rest_closing, hk])
        (fun o ho => by rw [others o t fun h => ho h.1])
      refine ⟨?_, ?_, ?_, ?_, fun o => ?_⟩
      · rw [incoming, upd_self, targets.unlocks, hserves.incoming, hsum]
        push_cast
        omega
      · rw [targets.status, targets.granted]
        exact hserves.status
      · rw [targets.shared, targets.granted]
        exact hserves.shared
      · rw [targets.status, targets.granting, targets.locks]
        exact hserves.waiting
      · have honce := hserves.once o
        rw [targets.requests, targets.grants]
        by_cases ho : o = q
        · subst ho
          rw [hs.pair_eq] at honce
          rw [pair]
          simp only [Stage.pair, countP_isLockReq_map] at honce ⊢
          exact honce
        · rw [others o t fun h => ho h.1]
          exact honce
    · have hpair : ∀ o, w'.pair o t = w.pair o t := fun o => others o t fun h => ht h.2
      refine (h.serves t).of_same targets (fun o => congrArg Pair.line (hpair o))
        (fun o => congrArg Pair.begun (hpair o)) ?_
      rw [incoming, upd_of_ne _ _ ht]
  · rw [targets.group]
    exact h.noGroup

theorem World.pair_of_same (targets : SameTargets w w') {o t : P}
    (line : w'.line o t = w.line o t) (back : w'.back t o = w.back t o)
    (begun : w'.begun t o = w.begun t o) : w'.pair o t = w.pair o t := by
  ext1
  · exact line
  · exact back
  · simp only [World.pair, targets.locks]
  · simp only [World.pair, targets.granted]
  · simp only [World.pair, targets.unlocks]
  · exact begun

theorem Session.pair_closing {q p : P} {type : LockType} {ops begun ops' begun' : List (Op P)}
    (hs : Session z w q (some (p, .closing type ops begun))) (targets : SameTargets w w')
    (line : w'.line q p = ops'.map z.opMsg) (back : w'.back p q = w.back p q)
    (hbegun : w'.begun p q = begun') :
    w'.pair q p = (Stage.closing type ops' begun').pair z := by
  have hpair := hs.pair_eq
  ext1
  · exact line
  · exact back.trans (congrArg Pair.back hpair)
  · simp only [World.pair, targets.locks]
    exact congrArg queue hpair
  · simp only [World.pair, targets.granted]
    exact congrArg held hpair
  · simp only [World.pair, targets.unlocks]
    exact congrArg Pair.closing hpair
  · exact hbegun

theorem Locking.inmsgMarkComplete {q p : P} {r : Op P} (h : Locking z { w with
      numPendingIn := upd w.numPendingIn p (w.numPendingIn p - 1)
      applied := upd w.applied p (upd (w.applied p) q (r :: w.applied p q)) }) :
    Locking z (w.inmsgMarkComplete q p r) := by
  unfold World.inmsgMarkComplete
  simp only
  split
  · next hcond => exact h.passiveUnlockComplete hcond.2.2
  · exact h

variable {q p : P} {rest : List (Msg P)}

theorem Locking.stage_of_op (h : Locking z w) {r : Op P} {n : ℕ}
    (hc : w.chan q p = .op r n :: rest) : ∃ type ops begun,
      Session z w q (some (p, .closing type (r :: ops) begun)) ∧
        (w.pop q p).line q p = ops.map z.opMsg := by
  obtain ⟨stage, hs, hline⟩ := h.stage_of_request hc rfl
  cases stage with
  | closing type ops begun =>
    cases ops with
    | nil => cases hline
    | cons r' ops =>
      simp only [Stage.pair, map_cons, List.cons.injEq] at hline
      obtain ⟨hop, hline⟩ := hline
      obtain rfl : r' = r := by
        simp only [Sizes.opMsg, Msg.op.injEq] at hop
        exact hop.1
      exact ⟨type, ops, begun, hs, hline.symm⟩
  | requested type | queued type | granted type acked | unlocking type ops | released | replied =>
    cases hline

theorem Locking.deliver_op (h : Locking z w) (ht : Transfer z w) {r : Op P} {n : ℕ}
    (hc : w.chan q p = .op r n :: rest) :
    Locking z ((w.pop q p).fragment z q p (.op r n)) := by
  obtain ⟨type, ops, begun, hs, hline⟩ := h.stage_of_op hc
  have hbegun : w.begun p q = begun := congrArg Pair.begun hs.pair_eq
  have hlines : ∀ o t, ¬(o = q ∧ t = p) → (w.pop q p).line o t = w.line o t := fun o t =>
    line_pop_of_ne hc
  have hbacks : ∀ t o, (w.pop q p).back t o = w.back t o := back_pop_of_not hc rfl
  -- the operation is begun, and its origin may be sent a reply
  have hland : ∀ out : P → List (Msg P), (∀ b, (out b).filter isRequest = []) →
      (∀ b, (out b).filter isAnswer = []) → Locking z ({ w.pop q p with
        landing := upd w.landing p (w.landing p ++ [(q, r)]) }.emit p out) := by
    intro out hrequest hanswer
    show Locking z (?after : World P)
    set w' : World P := ?after
    have targets : SameTargets w w' := by constructor <;> rfl
    have hline' : ∀ o t, w'.line o t = (w.pop q p).line o t := line_emit_of_nil hrequest
    have hback' : ∀ t o, w'.back t o = w.back t o := fun t o =>
      (back_emit_of_nil hanswer t o).trans (hbacks t o)
    have hbegun' : ∀ t o, w'.begun t o = w.begun t o ++ if o = q ∧ t = p then [r] else [] :=
      w.begun_push q p r
    refine h.advance ⟨rfl, rfl, rfl, rfl, rfl, rfl⟩ targets (k := 0) hs
      (hs.pair_closing targets ((hline' q p).trans hline) (hback' p q) (hbegun' p q)) ?_ ?_ ?_
    · intro o t hne
      refine pair_of_same targets ((hline' o t).trans (hlines o t hne)) (hback' t o) ?_
      rw [hbegun', if_neg hne, append_nil]
    · funext t
      by_cases htp : t = p
      · rw [htp, upd_self]
        exact (sub_zero _).symm
      · rw [upd_of_ne _ _ htp]
        rfl
    · rw [if_pos ⟨rfl, rfl⟩, hbegun]
      simp only [length_append, length_cons, length_nil]
      omega
  simp only [fragment]
  rcases ht.recvOp_cases hc with ⟨-, heq⟩ | ⟨-, heq⟩ | ⟨-, -, heq⟩
  · rw [heq]
    refine Locking.inmsgMarkComplete ?_
    have targets : SameTargets w { w.pop q p with
        numPendingIn := upd w.numPendingIn p (w.numPendingIn p - 1)
        applied := upd w.applied p (upd (w.applied p) q (r :: w.applied p q)) } :=
      (by constructor <;> rfl)
    refine h.advance ⟨rfl, rfl, rfl, rfl, rfl, rfl⟩ targets (k := 1) hs
      (hs.pair_closing targets hline (hbacks p q) hbegun) ?_ rfl ?_
    · intro o t hne
      exact pair_of_same targets (hlines o t hne) (hbacks t o) rfl
    · simp only [length_cons]
      omega
  · rw [heq]
    have hnone := hland (fun _ => []) (fun _ => rfl) fun _ => rfl
    have hemit : ∀ w : World P, w.emit p (fun _ => []) = w := by
      intro w
      simp [emit]
    rwa [hemit] at hnone
  · rw [heq]
    refine hland _ (fun b => ?_) fun b => ?_
    · unfold only
      split_ifs <;> rfl
    · unfold only
      split_ifs <;> rfl

theorem Locking.stage_of_begun (h : Locking z w) {q p : P} (hne : w.begun p q ≠ []) :
    ∃ type ops, Session z w q (some (p, .closing type ops (w.begun p q))) := by
  obtain ⟨stage, hs, hbegun⟩ := h.stage_of (o := q) (t := p) Pair.begun rfl hne
  cases stage with
  | closing type ops begun =>
    refine ⟨type, ops, ?_⟩
    rw [show w.begun p q = begun from hbegun.symm]
    exact hs
  | requested type | queued type | granted type acked | unlocking type ops =>
    exact absurd hbegun.symm hne
  | released | replied => exact absurd hbegun.symm hne

theorem Locking.landed (h : Locking z w) (p : P) (i : ℕ) : Locking z (w.landed p i) := by
  unfold World.landed
  split
  · exact h
  · next q r hi =>
      refine Locking.inmsgMarkComplete ?_
      change Locking z (w.drop q p r i)
      have hlength := World.begun_drop hi
      have hne : w.begun p q ≠ [] := by
        intro hnil
        rw [hnil] at hlength
        cases hlength
      obtain ⟨type, ops, hs⟩ := h.stage_of_begun hne
      have targets : SameTargets w (w.drop q p r i) := by constructor <;> rfl
      refine h.advance ⟨rfl, rfl, rfl, rfl, rfl, rfl⟩ targets (k := 1) hs
        (hs.pair_closing targets (congrArg Pair.line hs.pair_eq) rfl rfl) ?_ rfl ?_
      · intro o t hne
        exact World.pair_of_same targets rfl rfl (World.begun_drop_of_ne hi hne)
      · omega

end Operations

section Grants

def World.give (w : World P) (o p : P) (type : LockType) : World P :=
  { w with
    lockStatus := upd w.lockStatus p (some type)
    sharedCount := upd w.sharedCount p <|
      if type = LockType.shared then w.sharedCount p + 1 else w.sharedCount p
    granted := upd w.granted p (w.granted p ++ [(o, type)])
    grants := upd w.grants p <| upd (w.grants p) o (w.grants p o + 1)
    }.emit p (only o .lockAck)

/-- The lock of a target can be given as well. -/
def World.Free (w : World P) (p : P) (type : LockType) : Prop :=
  w.lockStatus p = none ∨ (type = LockType.shared ∧ w.lockStatus p = some LockType.shared)

theorem World.passiveLock_of_free {q p : P} {type : LockType} (h : w.Free p type) :
    w.passiveLock q p type = w.give q p type := by
  cases type with
  | exclusive =>
    have hnone : w.lockStatus p = none := by
      rcases h with h | h
      · exact h
      · cases h.1
    simp only [passiveLock, give, hnone, if_true, reduceCtorEq, if_false, upd_eq_self]
  | shared =>
    have hne : w.lockStatus p ≠ some LockType.exclusive := by
      rcases h with h | h
      · simp [h]
      · simp [h.2]
    simp only [passiveLock, give, if_pos hne, if_true]

theorem World.passiveLock_of_not_free {q p : P} {type : LockType} (h : ¬w.Free p type) :
    w.passiveLock q p type =
      { w with locksPending := upd w.locksPending p (w.locksPending p ++ [(q, type)]) } := by
  cases type with
  | exclusive =>
    have hne : w.lockStatus p ≠ none := fun hnone => h (.inl hnone)
    simp only [passiveLock, if_neg hne]
  | shared =>
    have hexclusive : w.lockStatus p = some LockType.exclusive := by
      cases hst : w.lockStatus p with
      | none => exact absurd (.inl hst) h
      | some type =>
        cases type with
        | exclusive => rfl
        | shared => exact absurd (.inr ⟨rfl, hst⟩) h
    simp only [passiveLock, hexclusive, ne_eq, not_true_eq_false, if_false]

theorem World.pair_give (w : World P) (o p : P) (type : LockType) : (w.give o p type).pair o p =
      { w.pair o p with
        back := w.back p o ++ [.lockAck]
        held := typesOf (w.granted p) o ++ [type] } := by
  unfold give
  ext1
  · refine (line_emit _ p _ o p).trans ?_
    rw [show (only o (Msg.lockAck : Msg P) p).filter isRequest = [] by
      unfold only
      split_ifs <;> rfl, ite_self, append_nil]
    rfl
  · refine (back_emit _ p _ p o).trans ?_
    rw [if_pos rfl, only, if_pos rfl]
    rfl
  · rfl
  · change typesOf (upd w.granted p _ p) o = _
    rw [upd_self, typesOf_append, typesOf_cons, if_pos rfl]
    rfl
  · rfl
  · rfl

theorem World.pair_give_of_ne (w : World P) {o p : P} (type : LockType) {o' t : P}
    (h : ¬(o' = o ∧ t = p)) : (w.give o p type).pair o' t = w.pair o' t := by
  unfold give
  ext1
  · refine (line_emit _ p _ o' t).trans ?_
    rw [show (only o (Msg.lockAck : Msg P) t).filter isRequest = [] by
      unfold only
      split_ifs <;> rfl, ite_self, append_nil]
    rfl
  · refine (back_emit _ p _ t o').trans ?_
    by_cases ht : t = p
    · have ho : o' ≠ o := fun ho => h ⟨ho, ht⟩
      rw [if_pos ht, only, if_neg ho]
      exact append_nil _
    · rw [if_neg ht]
      exact append_nil _
  · rfl
  · change typesOf (upd w.granted p _ t) o' = _
    by_cases ht : t = p
    · have ho : o ≠ o' := fun ho => h ⟨ho.symm, ht⟩
      rw [ht, upd_self, typesOf_append, typesOf_cons, if_neg ho]
      exact append_nil _
    · rw [upd_of_ne _ _ ht]
      rfl
  · rfl
  · rfl

omit [DecidableEq P] in
theorem Agrees.give {granted : List (P × LockType)} {p o : P} {type : LockType}
    (h : Agrees (w.lockStatus p) granted) (hfree : w.Free p type) :
    Agrees (some type) (granted ++ [(o, type)]) := by
  rcases hfree with hnone | ⟨rfl, hshared⟩
  · rw [hnone] at h
    rw [show granted = [] from h, nil_append]
    cases type with
    | exclusive => exact ⟨o, rfl⟩
    | shared => exact ⟨by simp, by simp⟩
  · rw [hshared] at h
    refine ⟨by simp, fun g hg => ?_⟩
    rcases mem_append.mp hg with hg | hg
    · exact h.2 g hg
    · rw [mem_singleton.mp hg]

theorem Serves.give {o p : P} {type : LockType}
    (incoming : w.numPendingIn p = ((w.unlocksPending p).map fun o => (w.pair o p).rest).sum)
    (status : Agrees (w.lockStatus p) (w.granted p))
    (shared : w.sharedCount p = (w.granted p).countP fun g => g.2 = LockType.shared)
    (once : ∀ o', w.requests o' p = w.grants p o' + (w.pair o' p).line.countP Msg.isLockReq +
      (w.pair o' p).queue.length + if o' = o then 1 else 0)
    (hfree : w.Free p type) : Serves (w.give o p type) p := by
  have hline : ∀ o', ((w.give o p type).pair o' p).line = (w.pair o' p).line := by
    intro o'
    by_cases ho : o' = o
    · rw [ho, pair_give]
    · rw [pair_give_of_ne w type fun h => ho h.1]
  have hqueue : ∀ o', ((w.give o p type).pair o' p).queue = (w.pair o' p).queue := fun _ => rfl
  have hbegun : ∀ o', ((w.give o p type).pair o' p).begun = (w.pair o' p).begun := fun _ => rfl
  have hstatus : (w.give o p type).lockStatus p = some type := upd_self _ _ _
  have hgranted : (w.give o p type).granted p = w.granted p ++ [(o, type)] := upd_self _ _ _
  constructor
  · have hrest : ∀ o', ((w.give o p type).pair o' p).rest = (w.pair o' p).rest := by
      intro o'
      simp only [rest, hline, hbegun]
    simp only [hrest]
    exact incoming
  · rw [hstatus, hgranted]
    exact status.give hfree
  · rw [hgranted]
    change upd w.sharedCount p _ p = _
    rw [upd_self, countP_append, shared]
    cases type <;> simp
  · intro hnone
    rw [hstatus] at hnone
    cases hnone
  · intro o'
    have honce := once o'
    rw [hline, hqueue]
    change w.requests o' p = upd w.grants p _ p o' + _ + _
    rw [upd_self]
    by_cases ho : o' = o
    · subst ho
      rw [if_pos rfl] at honce
      rw [upd_self]
      omega
    · rw [if_neg ho] at honce
      rw [upd_of_ne _ _ ho]
      omega

end Grants

section Control

variable {q p : P} {rest : List (Msg P)}

theorem World.pair_pop_of_ne {m : Msg P} (hc : w.chan q p = m :: rest) (hm : m.isAnswer = false)
    {o t : P} (h : ¬(o = q ∧ t = p)) : (w.pop q p).pair o t = w.pair o t := by
  have targets : SameTargets w (w.pop q p) := by constructor <;> rfl
  exact pair_of_same targets (line_pop_of_ne hc h) (back_pop_of_not hc hm t o)
    rfl

theorem World.pair_pop {m : Msg P} (hc : w.chan q p = m :: rest) (hm : m.isAnswer = false) :
    (w.pop q p).pair q p = { w.pair q p with line := (w.pop q p).line q p } := by
  ext1
  · rfl
  · exact back_pop_of_not hc hm p q
  · rfl
  · rfl
  · rfl
  · rfl

section

variable (h : Locking z w) {type : LockType} (hc : w.chan q p = .lockReq type :: rest)
include h hc

theorem Locking.stage_of_lockReq :
    Session z w q (some (p, .requested type)) ∧ (w.pop q p).pair q p = Pair.empty := by
  obtain ⟨stage, hs, hline⟩ := h.stage_of_request hc rfl
  obtain ⟨rfl, hnil⟩ : stage = .requested type ∧ (w.pop q p).line q p = [] := by
    cases stage with
    | requested type' =>
      simp only [Stage.pair, List.cons.injEq, Msg.lockReq.injEq] at hline
      exact ⟨by rw [hline.1], hline.2.symm⟩
    | closing type' ops begun =>
      cases ops with
      | nil | cons r ops => cases hline
    | queued type' | granted type' acked | unlocking type' ops | released | replied => cases hline
  refine ⟨hs, ?_⟩
  rw [pair_pop hc rfl, hs.pair_eq, hnil]
  rfl

theorem Locking.rest_pop_lockReq (o : P) : ((w.pop q p).pair o p).rest = (w.pair o p).rest := by
  obtain ⟨hs, hpair⟩ := h.stage_of_lockReq hc
  by_cases ho : o = q
  · rw [ho, hpair, hs.pair_eq]
    rfl
  · rw [pair_pop_of_ne hc rfl fun h => ho h.1]

theorem Locking.once_pop_lockReq (o : P) : w.requests o p = w.grants p o +
      ((w.pop q p).pair o p).line.countP Msg.isLockReq + ((w.pop q p).pair o p).queue.length +
        if o = q then 1 else 0 := by
  obtain ⟨hs, hpair⟩ := h.stage_of_lockReq hc
  have honce := (h.serves p).once o
  by_cases ho : o = q
  · subst ho
    rw [hs.pair_eq] at honce
    rw [hpair, if_pos rfl]
    simp only [Stage.pair, empty, countP_singleton, isLockReq, if_true,
      countP_nil, length_nil] at honce ⊢
    omega
  · rw [pair_pop_of_ne hc rfl fun h => ho h.1, if_neg ho]
    exact honce

theorem Locking.give_lockReq (hfree : (w.pop q p).Free p type) :
    Locking z ((w.pop q p).give q p type) := by
  obtain ⟨hs, hpair⟩ := h.stage_of_lockReq hc
  have hothers : ∀ o t, ¬(o = q ∧ t = p) → ((w.pop q p).give q p type).pair o t = w.pair o t := by
    intro o t hne
    rw [pair_give_of_ne _ type hne, pair_pop_of_ne hc rfl hne]
  refine ⟨fun o => ?_, fun t => ?_, h.noGroup⟩
  · by_cases ho : o = q
    · subst ho
      refine ⟨some (p, .granted type false), hs.move ⟨rfl, rfl, rfl, rfl, rfl, rfl⟩ ?_
        (fun t ht => hothers o t fun h => ht h.2) rfl rfl rfl⟩
      have hheld := congrArg held hpair
      have hback := congrArg Pair.back hpair
      simp only [World.pair] at hheld hback
      rw [pair_give, hheld, hback, hpair]
      rfl
    · obtain ⟨s, hs'⟩ := h.sessions o
      exact ⟨s, hs'.of_same ⟨rfl, rfl, rfl, rfl, rfl, rfl⟩ fun t => hothers o t fun h => ho h.1⟩
  · by_cases ht : t = p
    · subst ht
      refine Serves.give ?_ (h.serves t).status (h.serves t).shared (h.once_pop_lockReq hc) hfree
      simp only [h.rest_pop_lockReq hc]
      exact (h.serves t).incoming
    · exact (h.serves t).congr (fun o => congrArg Pair.line (hothers o t fun h => ht h.2))
        (fun o => congrArg Pair.begun (hothers o t fun h => ht h.2)) rfl rfl (upd_of_ne _ _ ht)
        (upd_of_ne _ _ ht) (upd_of_ne _ _ ht) rfl rfl (fun _ => rfl) (upd_of_ne _ _ ht)

end

theorem World.pair_queue (w : World P) (q p : P) (type : LockType) (o t : P) : World.pair { w with
        locksPending := upd w.locksPending p (w.locksPending p ++ [(q, type)]) } o t =
      { w.pair o t with
        queue := typesOf (w.locksPending t) o ++ if o = q ∧ t = p then [type] else [] } := by
  ext1
  · rfl
  · rfl
  · change typesOf (upd w.locksPending p _ t) o = _
    by_cases ht : t = p
    · rw [ht, upd_self, typesOf_append, typesOf_cons]
      by_cases ho : q = o
      · rw [if_pos ho, if_pos ⟨ho.symm, rfl⟩]
        rfl
      · rw [if_neg ho, if_neg fun h => ho h.1.symm]
        rfl
    · rw [upd_of_ne _ _ ht, if_neg fun h => ht h.2, append_nil]
  · rfl
  · rfl
  · rfl

theorem Locking.queue_lockReq (h : Locking z w) {type : LockType}
    (hc : w.chan q p = .lockReq type :: rest) (hfree : ¬(w.pop q p).Free p type) :
    Locking z { w.pop q p with
      locksPending := upd w.locksPending p (w.locksPending p ++ [(q, type)]) } := by
  obtain ⟨hs, hpair⟩ := h.stage_of_lockReq hc
  show Locking z (?after : World P)
  set w' : World P := ?after
  have hqueue : typesOf (w.locksPending p) q = [] := congrArg Pair.queue hpair
  have hq : w'.pair q p = { empty with queue := [type] } := by
    refine ((w.pop q p).pair_queue q p type q p).trans ?_
    rw [if_pos ⟨rfl, rfl⟩, hpair]
    exact congrArg (fun l => { empty with queue := l ++ [type] }) hqueue
  have hothers : ∀ o t, ¬(o = q ∧ t = p) → w'.pair o t = w.pair o t := by
    intro o t hne
    refine ((w.pop q p).pair_queue q p type o t).trans ?_
    rw [if_neg hne, append_nil]
    exact pair_pop_of_ne hc rfl hne
  refine ⟨fun o => ?_, fun t => ?_, h.noGroup⟩
  · by_cases ho : o = q
    · subst ho
      exact ⟨some (p, .queued type), hs.move ⟨rfl, rfl, rfl, rfl, rfl, rfl⟩ hq
        (fun t ht => hothers o t fun h => ht h.2) rfl rfl rfl⟩
    · obtain ⟨s, hs'⟩ := h.sessions o
      exact ⟨s, hs'.of_same ⟨rfl, rfl, rfl, rfl, rfl, rfl⟩ fun t => hothers o t fun h => ho h.1⟩
  · by_cases ht : t = p
    · subst ht
      refine ⟨?_, (h.serves t).status, (h.serves t).shared, fun hnone => ?_, fun o => ?_⟩
      · have hrest : ∀ o, (w'.pair o t).rest = (w.pair o t).rest := h.rest_pop_lockReq hc
        simp only [hrest]
        exact (h.serves t).incoming
      · exact absurd (.inl hnone) hfree
      · have honce := h.once_pop_lockReq hc o
        by_cases ho : o = q
        · subst ho
          rw [hpair, if_pos rfl] at honce
          rw [hq]
          exact honce
        · rw [pair_pop_of_ne hc rfl fun h => ho h.1, if_neg ho] at honce
          rw [hothers o t fun h => ho h.1]
          exact honce
    · exact (h.serves t).congr (fun o => congrArg Pair.line (hothers o t fun h => ht h.2))
        (fun o => congrArg Pair.begun (hothers o t fun h => ht h.2)) rfl rfl rfl rfl rfl rfl
        (upd_of_ne _ _ ht) (fun _ => rfl) rfl

theorem Locking.deliver_lockReq (h : Locking z w) {type : LockType}
    (hc : w.chan q p = .lockReq type :: rest) :
    Locking z ((w.pop q p).fragment z q p (.lockReq type)) := by
  simp only [fragment]
  by_cases hfree : (w.pop q p).Free p type
  · rw [passiveLock_of_free hfree]
    exact h.give_lockReq hc hfree
  · rw [passiveLock_of_not_free hfree]
    exact h.queue_lockReq hc hfree

theorem Locking.stage_of_unlockReq (h : Locking z w) {n : ℕ}
    (hc : w.chan q p = .unlockReq n :: rest) : ∃ type ops,
      Session z w q (some (p, .unlocking type ops)) ∧ n = ops.length ∧
        (w.pop q p).line q p = ops.map z.opMsg := by
  obtain ⟨stage, hs, hline⟩ := h.stage_of_request hc rfl
  cases stage with
  | unlocking type ops =>
    simp only [Stage.pair, List.cons.injEq, Msg.unlockReq.injEq] at hline
    exact ⟨type, ops, hs, hline.1.symm, hline.2.symm⟩
  | closing type ops begun =>
    cases ops with
    | nil | cons r ops => cases hline
  | requested type | queued type | granted type acked | released | replied => cases hline

theorem Locking.deliver_unlockReq (h : Locking z w) {n : ℕ}
    (hc : w.chan q p = .unlockReq n :: rest) :
    Locking z ((w.pop q p).fragment z q p (.unlockReq n)) := by
  obtain ⟨type, ops, hs, rfl, hline⟩ := h.stage_of_unlockReq hc
  simp only [fragment, passiveUnlock]
  set w' : World P := { w.pop q p with
    numPendingIn := upd (w.pop q p).numPendingIn p ((w.pop q p).numPendingIn p + ops.length)
    unlocksPending := upd (w.pop q p).unlocksPending p ((w.pop q p).unlocksPending p ++ [q]) }
  have hunlocks : w'.unlocksPending p = w.unlocksPending p ++ [q] := upd_self _ _ _
  have hnot : q ∉ w.unlocksPending p := count_eq_zero.mp (congrArg Pair.closing hs.pair_eq)
  have hothers : ∀ o t, ¬(o = q ∧ t = p) → w'.pair o t = w.pair o t := by
    intro o t hne
    rw [← pair_pop_of_ne hc rfl hne]
    ext1
    · rfl
    · rfl
    · rfl
    · rfl
    · change (upd w.unlocksPending p _ t).count o = (w.unlocksPending t).count o
      by_cases ht : t = p
      · have ho : q ≠ o := fun ho => hne ⟨ho.symm, ht⟩
        rw [ht, upd_self, count_append, count_singleton, if_neg (by simp [ho])]
        rfl
      · rw [upd_of_ne _ _ ht]
    · rfl
  have hq : w'.pair q p = (Stage.closing type ops []).pair z := by
    have hpair := pair_pop hc rfl
    rw [hs.pair_eq, hline] at hpair
    have hcount : (w'.unlocksPending p).count q = 1 := by
      rw [hunlocks, count_append, count_eq_zero.mpr hnot, count_singleton_self]
    ext1
    · exact (congrArg Pair.line hpair :)
    · exact (congrArg Pair.back hpair :)
    · exact (congrArg queue hpair :)
    · exact (congrArg held hpair :)
    · exact hcount
    · exact (congrArg Pair.begun hpair :)
  have hlocking : Locking z w' := by
    refine ⟨fun o => ?_, fun t => ?_, h.noGroup⟩
    · by_cases ho : o = q
      · subst ho
        exact ⟨_, hs.move ⟨rfl, rfl, rfl, rfl, rfl, rfl⟩ hq
          (fun t ht => hothers o t fun h => ht h.2) rfl rfl rfl⟩
      · obtain ⟨s, hs'⟩ := h.sessions o
        exact ⟨s, hs'.of_same ⟨rfl, rfl, rfl, rfl, rfl, rfl⟩ fun t => hothers o t fun h => ho h.1⟩
    · by_cases ht : t = p
      · subst ht
        refine ⟨?_, (h.serves t).status, (h.serves t).shared, (h.serves t).waiting, fun o => ?_⟩
        · have hsum : ((w.unlocksPending t).map fun o => (w'.pair o t).rest) =
              (w.unlocksPending t).map fun o => (w.pair o t).rest := by
            refine map_congr_left fun o ho => ?_
            rw [hothers o t fun h => hnot (h.1 ▸ ho)]
          rw [hunlocks, map_append, sum_append, hsum, map_singleton,
            sum_singleton, hq, rest_closing]
          change upd w.numPendingIn t (w.numPendingIn t + ops.length) t = _
          rw [upd_self, (h.serves t).incoming]
          push_cast
          simp
        · have honce := (h.serves t).once o
          by_cases ho : o = q
          · subst ho
            rw [hs.pair_eq] at honce
            rw [hq]
            simp only [Stage.pair, countP_cons, isLockReq, Bool.false_eq_true, if_false,
              Nat.add_zero, countP_isLockReq_map] at honce ⊢
            exact honce
          · rw [hothers o t fun h => ho h.1]
            exact honce
      · exact (h.serves t).congr (fun o => congrArg Pair.line (hothers o t fun h => ht h.2))
          (fun o => congrArg Pair.begun (hothers o t fun h => ht h.2)) (upd_of_ne _ _ ht)
          (upd_of_ne _ _ ht) rfl rfl rfl rfl rfl (fun _ => rfl) rfl
  refine hlocking.passiveUnlockComplete ?_
  rw [hunlocks]
  simp

theorem Locking.learn (h : Locking z w) (targets : SameTargets w w')
    (line : ∀ o t, w'.line o t = w.line o t) (begun : w'.landing = w.landing)
    (incoming : w'.numPendingIn = w.numPendingIn)
    (sessions : ∀ o, ∃ s, Session z w' o s) : Locking z w' := by
  refine ⟨sessions, fun t => ?_, ?_⟩
  · refine (h.serves t).of_same targets (fun o => line o t) (fun o => ?_) ?_
    · simp only [World.begun, begun]
    · rw [incoming]
  · rw [targets.group]
    exact h.noGroup

theorem World.pair_pop_answer {m : Msg P} (hc : w.chan q p = m :: rest)
    (hm : m.isRequest = false) : (w.pop q p).pair p q =
      { w.pair p q with back := (w.pop q p).back q p } := by
  ext1
  · exact line_pop_of_not hc hm p q
  · rfl
  · rfl
  · rfl
  · rfl
  · rfl

theorem World.pair_pop_answer_of_ne {m : Msg P} (hc : w.chan q p = m :: rest)
    (hm : m.isRequest = false) {o t : P} (h : ¬(o = p ∧ t = q)) :
    (w.pop q p).pair o t = w.pair o t := by
  have targets : SameTargets w (w.pop q p) := by constructor <;> rfl
  exact pair_of_same targets (line_pop_of_not hc hm o t)
    (back_pop_of_ne hc fun h' => h ⟨h'.2, h'.1⟩) rfl

theorem Locking.deliver_lockAck (h : Locking z w) (hc : w.chan q p = .lockAck :: rest) :
    Locking z ((w.pop q p).fragment z q p .lockAck) := by
  obtain ⟨stage, hs, hback⟩ := h.stage_of_answer hc rfl
  obtain ⟨type, rfl, hnil⟩ : ∃ type, stage = .granted type false ∧ (w.pop q p).back q p = [] := by
    cases stage with
    | granted type acked =>
      cases acked with
      | false =>
        exact ⟨type, rfl, ((cons.injEq _ _ _ _).mp hback).2.symm⟩
      | true => cases hback
    | requested type | queued type | unlocking type ops | closing type ops begun | released =>
      cases hback
    | replied => cases hback
  simp only [fragment]
  show Locking z (?after : World P)
  set w' : World P := ?after
  have hothers : ∀ o t, ¬(o = p ∧ t = q) → w'.pair o t = w.pair o t := fun o t hne =>
    pair_pop_answer_of_ne hc rfl hne
  have hp : w'.pair p q = (Stage.granted type true).pair z := by
    refine (pair_pop_answer hc rfl).trans ?_
    rw [hs.pair_eq, hnil]
    rfl
  refine h.learn (by constructor <;> rfl) (line_pop_of_not hc rfl) rfl
    rfl fun o => ?_
  by_cases ho : o = p
  · subst ho
    refine ⟨some (q, .granted type true), hs.target, hs.pair_to hp fun t ht =>
      hothers o t fun h => ht h.2, ?_, hs.call, hs.out, hs.rests, hs.queued, hs.closed⟩
    refine (upd_self _ _ _).trans ?_
    change w.lockReceivedAck o + 1 = 1
    rw [hs.ack]
    rfl
  · obtain ⟨s, hs'⟩ := h.sessions o
    exact ⟨s, hs'.congr rfl (fun t => hothers o t fun h => ho h.1) (upd_of_ne _ _ ho) rfl rfl id
      rfl⟩

theorem Locking.deliver_unlockReply (h : Locking z w) (hc : w.chan q p = .unlockReply :: rest) :
    Locking z ((w.pop q p).fragment z q p .unlockReply) := by
  obtain ⟨stage, hs, hback⟩ := h.stage_of_answer hc rfl
  obtain ⟨rfl, hnil⟩ : stage = .released ∧ (w.pop q p).back q p = [] := by
    cases stage with
    | released =>
      simp only [Stage.pair, cons.injEq] at hback
      exact ⟨rfl, hback.2.symm⟩
    | granted type acked => cases acked <;> cases hback
    | requested type | queued type | unlocking type ops | closing type ops begun | replied =>
      cases hback
  simp only [fragment]
  show Locking z (?after : World P)
  set w' : World P := ?after
  have hothers : ∀ o t, ¬(o = p ∧ t = q) → w'.pair o t = w.pair o t := fun o t hne =>
    pair_pop_answer_of_ne hc rfl hne
  have hp : w'.pair p q = Stage.replied.pair z := by
    refine (pair_pop_answer hc rfl).trans ?_
    rw [hs.pair_eq, hnil]
    rfl
  refine h.learn (by constructor <;> rfl) (line_pop_of_not hc rfl) rfl
    rfl fun o => ?_
  by_cases ho : o = p
  · subst ho
    refine ⟨some (q, .replied), hs.target, hs.pair_to hp fun t ht =>
      hothers o t fun h => ht h.2, hs.ack, hs.call, ?_, hs.rests, hs.queued, hs.closed⟩
    have hout := hs.out
    refine (upd_self _ _ _).trans ?_
    change w.numPendingOut o - 1 = _
    rw [hout]
    simp [due]
    rfl
  · obtain ⟨s, hs'⟩ := h.sessions o
    refine ⟨s, hs'.congr rfl (fun t => hothers o t fun h => ho h.1) rfl rfl ?_ id rfl⟩
    exact congrArg (· - _) (upd_of_ne _ _ ho)

end Control

section Origins

variable {q p : P} {rest : List (Msg P)}

section

variable (h : Locking z w)
include h

theorem Locking.finish (targets : SameTargets w w')
    (line : ∀ o t, w'.line o t = w.line o t) (back : ∀ t o, w'.back t o = w.back t o)
    (begun : w'.landing = w.landing) (incoming : w'.numPendingIn = w.numPendingIn)
    (target : w'.lockTarget = w.lockTarget) (ack : w'.lockReceivedAck = w.lockReceivedAck)
    (call : w'.call = w.call) (pending : w'.pendingSendreqs = w.pendingSendreqs)
    (out : w'.numPendingOut = upd w.numPendingOut p (w.numPendingOut p - 1))
    (sending : (w'.sending p).length + 1 = (w.sending p).length)
    (others : ∀ o, o ≠ p → w'.sending o = w.sending o) : Locking z w' := by
  have hbegun : ∀ t o, w'.begun t o = w.begun t o := by
    intro t o
    simp only [World.begun, begun]
  refine h.learn targets line begun incoming fun o => ?_
  obtain ⟨s, hs⟩ := h.sessions o
  refine ⟨s, hs.congr (by rw [target]) (fun t => ?_) (by rw [ack]) (by rw [call]) ?_ ?_
    (by rw [pending])⟩
  · exact pair_of_same targets (line o t) (back t o) (hbegun t o)
  · by_cases ho : o = p
    · subst ho
      rw [out, upd_self]
      omega
    · rw [out, upd_of_ne _ _ ho, others o ho]
  · by_cases ho : o = p
    · subst ho
      intro hnil
      rw [hnil] at sending
      cases sending
    · rw [others o ho]
      exact id

theorem Locking.deliver_reply (ht : Transfer z w) {r : Op P} {n : ℕ}
    (hc : w.chan q p = .reply r n :: rest) :
    Locking z ((w.pop q p).fragment z q p (.reply r n)) := by
  have hline := line_pop_of_not hc rfl
  have hback := back_pop_of_not hc rfl
  simp only [fragment, recvReply]
  split_ifs
  · have hmem := ht.mem_sending_of_reply hc
    refine h.finish (p := p) (by constructor <;> rfl) hline hback rfl rfl
      rfl rfl rfl rfl rfl ?_ fun o ho => upd_of_ne _ _ ho
    change (upd w.sending p ((w.sending p).erase r) p).length + 1 = _
    rw [upd_self, length_erase_add_one hmem]
  · refine h.learn (by constructor <;> rfl) hline rfl rfl fun o => ?_
    obtain ⟨s, hs⟩ := h.sessions o
    have targets : SameTargets w (w.pop q p) := by constructor <;> rfl
    exact ⟨s, hs.of_same ⟨rfl, rfl, rfl, rfl, rfl, rfl⟩ fun t =>
      pair_of_same targets (hline o t) (hback t o) rfl⟩

theorem Locking.deliver_post (hc : w.chan q p = .post :: rest) :
    Locking z ((w.pop q p).fragment z q p .post) := by
  have hline := line_pop_of_not hc rfl
  have hback := back_pop_of_not hc rfl
  refine h.learn (by constructor <;> rfl) hline rfl rfl fun o => ?_
  obtain ⟨s, hs⟩ := h.sessions o
  have targets : SameTargets w (w.pop q p) := by constructor <;> rfl
  exact ⟨s, hs.of_same ⟨rfl, rfl, rfl, rfl, rfl, rfl⟩ fun t =>
    pair_of_same targets (hline o t) (hback t o) rfl⟩

theorem Locking.not_complete {n : ℕ} : w.chan q p ≠ .complete n :: rest := by
  intro hc
  obtain ⟨stage, -, hline⟩ := h.stage_of_request hc rfl
  cases stage with
  | closing type ops begun =>
    cases ops with
    | nil | cons r ops => cases hline
  | requested type | queued type | granted type acked | unlocking type ops | released | replied =>
    cases hline

theorem Locking.deliver (ht : Transfer z w) (q p : P) : Locking z (w.deliver z q p) := by
  cases hc : w.chan q p with
  | nil =>
    unfold World.deliver
    rw [hc]
    exact h
  | cons m rest =>
    rw [World.deliver_eq hc]
    cases m with
    | op r n => exact h.deliver_op ht hc
    | reply r n => exact h.deliver_reply ht hc
    | post => exact h.deliver_post hc
    | complete n => exact absurd hc h.not_complete
    | lockReq type => exact h.deliver_lockReq hc
    | lockAck => exact h.deliver_lockAck hc
    | unlockReq n => exact h.deliver_unlockReq hc
    | unlockReply => exact h.deliver_unlockReply hc

theorem Locking.replyLanded (ht : Transfer z w) (p : P) (i : ℕ) :
    Locking z (w.replyLanded p i) := by
  unfold World.replyLanded
  split
  · exact h
  · next r hi =>
      have hmem := ht.mem_sending_of_landing hi
      refine h.finish (p := p) (by constructor <;> rfl) (fun _ _ => rfl)
        (fun _ _ => rfl) rfl rfl rfl rfl rfl rfl rfl ?_ fun o ho => upd_of_ne _ _ ho
      change (upd w.sending p ((w.sending p).erase r) p).length + 1 = _
      rw [upd_self, length_erase_add_one hmem]

theorem Locking.sent (p : P) (i : ℕ) : Locking z (w.sent p i) := by
  unfold World.sent
  split
  · exact h
  · next r hi =>
      split_ifs
      · exact h
      · refine h.finish (p := p) (by constructor <;> rfl) (fun _ _ => rfl)
          (fun _ _ => rfl) rfl rfl rfl rfl rfl rfl rfl ?_ fun o ho => upd_of_ne _ _ ho
        change (upd w.sending p ((w.sending p).eraseIdx i) p).length + 1 = _
        obtain ⟨hlt, -⟩ := List.getElem?_eq_some_iff.mp hi
        rw [upd_self, length_eraseIdx_add_one hlt]

theorem Locking.stage_of_queue {o p : P} {type : LockType}
    {queue : List (P × LockType)} (hq : w.locksPending p = (o, type) :: queue) :
    Session z w o (some (p, .queued type)) ∧ typesOf queue o = [] := by
  obtain ⟨stage, hs, hqueue⟩ := h.stage_of (t := p) Pair.queue
    (show (w.pair o p).queue = type :: typesOf queue o by
      simp only [World.pair, hq]
      rw [typesOf_cons, if_pos rfl]
      rfl) (cons_ne_nil _ _)
  cases stage with
  | queued type' =>
    simp only [Stage.pair, cons.injEq] at hqueue
    obtain ⟨rfl, hnil⟩ := hqueue
    exact ⟨hs, hnil.symm⟩
  | requested type' | granted type' acked | unlocking type' ops | closing type' ops begun =>
    cases hqueue
  | released | replied => cases hqueue

theorem Locking.give_queue {o p : P} {type : LockType}
    {queue : List (P × LockType)} (hq : w.locksPending p = (o, type) :: queue)
    (hnone : w.lockStatus p = none) (n : ℕ) :
    Locking z (World.give { w with
      granting := upd w.granting p n
      locksPending := upd w.locksPending p queue } o p type) := by
  obtain ⟨hs, hnil⟩ := h.stage_of_queue hq
  set v : World P := { w with
    granting := upd w.granting p n
    locksPending := upd w.locksPending p queue }
  have hfree : v.Free p type := .inl hnone
  have hv : v.pair o p = empty := by
    have hpair := hs.pair_eq
    ext1
    · exact (congrArg Pair.line hpair :)
    · exact (congrArg Pair.back hpair :)
    · change typesOf (upd w.locksPending p queue p) o = []
      rw [upd_self, hnil]
    · exact (congrArg held hpair :)
    · exact (congrArg Pair.closing hpair :)
    · exact (congrArg Pair.begun hpair :)
  have hvOthers : ∀ o' t, ¬(o' = o ∧ t = p) → v.pair o' t = w.pair o' t := by
    intro o' t hne
    ext1
    · rfl
    · rfl
    · change typesOf (upd w.locksPending p queue t) o' = typesOf (w.locksPending t) o'
      by_cases ht : t = p
      · have ho : o ≠ o' := fun ho => hne ⟨ho.symm, ht⟩
        rw [ht, upd_self, hq, typesOf_cons, if_neg ho]
        rfl
      · rw [upd_of_ne _ _ ht]
    · rfl
    · rfl
    · rfl
  have hothers : ∀ o' t, ¬(o' = o ∧ t = p) → (v.give o p type).pair o' t = w.pair o' t := by
    intro o' t hne
    rw [pair_give_of_ne _ type hne, hvOthers o' t hne]
  refine ⟨fun o' => ?_, fun t => ?_, h.noGroup⟩
  · by_cases ho : o' = o
    · subst ho
      refine ⟨some (p, .granted type false), hs.move ⟨rfl, rfl, rfl, rfl, rfl, rfl⟩ ?_
        (fun t ht => hothers o' t fun h => ht h.2) rfl rfl rfl⟩
      have hheld := congrArg held hv
      have hback := congrArg Pair.back hv
      simp only [World.pair] at hheld hback
      rw [pair_give, hheld, hback, hv]
      rfl
    · obtain ⟨s, hs'⟩ := h.sessions o'
      exact ⟨s, hs'.of_same ⟨rfl, rfl, rfl, rfl, rfl, rfl⟩ fun t =>
        hothers o' t fun h => ho h.1⟩
  · by_cases ht : t = p
    · subst ht
      have hrest : ∀ o', (v.pair o' t).rest = (w.pair o' t).rest := fun _ => rfl
      refine Serves.give ?_ (h.serves t).status (h.serves t).shared (fun o' => ?_) hfree
      · simp only [hrest]
        exact (h.serves t).incoming
      · have honce := (h.serves t).once o'
        by_cases ho : o' = o
        · subst ho
          rw [hs.pair_eq] at honce
          rw [hv, if_pos rfl]
          exact honce
        · rw [hvOthers o' t fun h => ho h.1, if_neg ho]
          exact honce
    · exact (h.serves t).congr (fun o' => congrArg Pair.line (hothers o' t fun h => ht h.2))
        (fun o' => congrArg Pair.begun (hothers o' t fun h => ht h.2)) rfl rfl (upd_of_ne _ _ ht)
        (upd_of_ne _ _ ht) (upd_of_ne _ _ ht) (upd_of_ne _ _ ht) (upd_of_ne _ _ ht)
        (fun _ => rfl) (upd_of_ne _ _ ht)

theorem Locking.no_grant {p : P} (n : ℕ) (hp : w.lockStatus p ≠ none ∨ w.locksPending p = []) :
    Locking z { w with granting := upd w.granting p n } := by
  refine ⟨fun o => ?_, fun t => ?_, h.noGroup⟩
  · obtain ⟨s, hs⟩ := h.sessions o
    exact ⟨s, hs.of_same ⟨rfl, rfl, rfl, rfl, rfl, rfl⟩ fun _ => rfl⟩
  · by_cases ht : t = p
    · subst ht
      refine ⟨(h.serves t).incoming, (h.serves t).status, (h.serves t).shared,
        fun hnone _ => ?_, (h.serves t).once⟩
      rcases hp with hp | hp
      · exact absurd hnone hp
      · exact hp
    · exact (h.serves t).congr (fun _ => rfl) (fun _ => rfl) rfl rfl rfl rfl rfl
        (upd_of_ne _ _ ht) rfl (fun _ => rfl) rfl

theorem Locking.grant (p : P) : Locking z (w.grant p) := by
  unfold World.grant
  simp only
  split_ifs with hgranting hstatus
  · exact h
  · exact h.no_grant _ (.inl hstatus)
  · split
    · next hq => exact h.no_grant _ (.inr hq)
    · next o type queue hq => exact h.give_queue hq (not_not.mp hstatus) _

theorem Locking.issue {p : P} {r : Op P} (hcall : w.call p = .idle)
    (htarget : w.lockTarget p = some r.target) : Locking z (w.issue p r) := by
  unfold World.issue
  split_ifs
  · exact h
  · refine h.learn (by constructor <;> rfl) (fun _ _ => rfl) rfl rfl
      fun o => ?_
    obtain ⟨s, hs⟩ := h.sessions o
    by_cases ho : o = p
    · subst ho
      refine ⟨s, hs.target, hs.pair, hs.ack, hs.call, hs.out, hs.rests, fun r' hr' => ?_,
        fun hclosed => ?_⟩
      · simp only [upd_self, mem_append, mem_singleton] at hr'
        rcases hr' with hr' | rfl
        · exact hs.queued r' hr'
        · exact htarget
      · change w.call o = .unlocking at hclosed
        rw [hcall] at hclosed
        cases hclosed
    · exact ⟨s, hs.congr rfl (fun _ => rfl) rfl rfl rfl id (upd_of_ne _ _ ho)⟩

end

theorem Session.eq_none {o : P} {s : Option (P × Stage P)} (h : Session z w o s)
    (htarget : w.lockTarget o = none) : s = none := by
  have hs := h.target
  rw [htarget] at hs
  exact map_eq_none_iff.mp hs.symm

theorem Session.eq_some {o t : P} {s : Option (P × Stage P)} (h : Session z w o s)
    (htarget : w.lockTarget o = some t) : ∃ stage, s = some (t, stage) := by
  have hs := h.target
  rw [htarget] at hs
  obtain ⟨⟨t', stage⟩, rfl, ht⟩ := map_eq_some_iff.mp hs.symm
  exact ⟨stage, by rw [← ht]⟩

theorem Locking.lock (h : Locking z w) {p : P} (target : P) (type : LockType)
    (htarget : w.lockTarget p = none) : Locking z (w.lock p target type) := by
  obtain ⟨s, hs⟩ := h.sessions p
  obtain rfl := hs.eq_none htarget
  have hpending : w.pendingSendreqs p = [] := by
    rw [eq_nil_iff_forall_not_mem]
    intro r hr
    have := hs.queued r hr
    rw [htarget] at this
    cases this
  set w' := w.lock p target type
  have hline : ∀ o t, w'.line o t =
      w.line o t ++ if o = p then only target (.lockReq type) t else [] := by
    intro o t
    refine (line_emit _ p _ o t).trans ?_
    rw [filter_isRequest_only rfl]
    rfl
  have hback : ∀ t o, w'.back t o = w.back t o :=
    back_emit_of_nil (filter_isAnswer_only rfl)
  have hothers : ∀ o t, ¬(o = p ∧ t = target) → w'.pair o t = w.pair o t := by
    intro o t hne
    have hsame : w'.line o t = w.line o t := by
      rw [hline]
      split_ifs with ho
      · rw [only, if_neg fun ht => hne ⟨ho, ht⟩, append_nil]
      · rw [append_nil]
    ext1
    · exact hsame
    · exact hback t o
    · rfl
    · rfl
    · rfl
    · rfl
  have hp : w'.pair p target = (Stage.requested type).pair z := by
    have hempty : w.pair p target = empty := hs.pair target
    ext1
    · refine (hline p target).trans ?_
      rw [if_pos rfl, only, if_pos rfl, show w.line p target = [] from congrArg Pair.line hempty]
      rfl
    · exact (hback target p).trans (congrArg Pair.back hempty :)
    · exact (congrArg queue hempty :)
    · exact (congrArg held hempty :)
    · exact (congrArg Pair.closing hempty :)
    · exact (congrArg Pair.begun hempty :)
  refine ⟨fun o => ?_, fun t => ?_, h.noGroup⟩
  · by_cases ho : o = p
    · subst ho
      refine ⟨some (target, .requested type), upd_self _ _ _, fun t => ?_, hs.ack, hs.call,
        hs.out, hs.rests, fun r hr => ?_, fun _ => hpending⟩
      · unfold sessionPair
        simp only
        split_ifs with ht
        · rw [ht, hp]
        · rw [hothers o t fun h => ht h.2, hs.pair]
          rfl
      · change r ∈ w.pendingSendreqs o at hr
        rw [hpending] at hr
        cases hr
    · obtain ⟨s, hs'⟩ := h.sessions o
      exact ⟨s, hs'.congr (upd_of_ne _ _ ho) (fun t => hothers o t fun h => ho h.1) rfl rfl rfl id
        rfl⟩
  · have hrest : ∀ o, (w'.pair o t).rest = (w.pair o t).rest := by
      intro o
      by_cases hot : o = p ∧ t = target
      · obtain ⟨rfl, rfl⟩ := hot
        rw [hp, hs.pair]
        rfl
      · rw [hothers o t hot]
    refine ⟨?_, (h.serves t).status, (h.serves t).shared, (h.serves t).waiting, fun o => ?_⟩
    · simp only [hrest]
      exact (h.serves t).incoming
    · have honce := (h.serves t).once o
      change upd w.requests p _ o t = w.grants t o + _ + _
      by_cases ho : o = p
      · rw [ho, upd_self]
        rw [ho] at honce
        by_cases ht : t = target
        · rw [ht] at honce ⊢
          rw [hs.pair] at honce
          rw [upd_self, hp]
          simp only [Stage.pair, sessionPair, empty, countP_singleton, isLockReq,
            if_true, countP_nil, length_nil] at honce ⊢
          omega
        · rw [upd_of_ne _ _ ht, hothers p t fun h => ht h.2]
          exact honce
      · rw [upd_of_ne _ _ ho, hothers o t fun h => ho h.1]
        exact honce

theorem Locking.release (h : Locking z w) {p target : P} {type : LockType} (order : List (Op P))
    (hs : Session z w p (some (target, .granted type true))) (hidle : w.call p = .idle)
    (targets : SameTargets w w')
    (line : ∀ o t, w'.line o t = w.line o t ++
      if o = p ∧ t = target then .unlockReq order.length :: order.map z.opMsg else [])
    (back : ∀ t o, w'.back t o = w.back t o) (begun : w'.landing = w.landing)
    (incoming : w'.numPendingIn = w.numPendingIn) (lockTarget : w'.lockTarget = w.lockTarget)
    (ack : w'.lockReceivedAck = upd w.lockReceivedAck p (w.lockReceivedAck p - 1))
    (call : w'.call = upd w.call p .unlocking)
    (out : w'.numPendingOut = upd w.numPendingOut p (w.numPendingOut p + (order.length + 1)))
    (sending : w'.sending = upd w.sending p (w.sending p ++ order))
    (pending : w'.pendingSendreqs = upd w.pendingSendreqs p []) : Locking z w' := by
  have hbegun : ∀ t o, w'.begun t o = w.begun t o := by
    intro t o
    simp only [World.begun, begun]
  have hothers : ∀ o t, ¬(o = p ∧ t = target) → w'.pair o t = w.pair o t := by
    intro o t hne
    refine pair_of_same targets ?_ (back t o) (hbegun t o)
    rw [line, if_neg hne, append_nil]
  have hpair := hs.pair_eq
  have hline : w'.line p target = .unlockReq order.length :: order.map z.opMsg := by
    rw [line, if_pos ⟨rfl, rfl⟩, show w.line p target = [] from congrArg Pair.line hpair]
    rfl
  have hp : w'.pair p target = (Stage.unlocking type order).pair z := by
    ext1
    · exact hline
    · exact (back target p).trans (congrArg Pair.back hpair :)
    · simp only [World.pair, targets.locks]
      exact (congrArg queue hpair :)
    · simp only [World.pair, targets.granted]
      exact (congrArg held hpair :)
    · simp only [World.pair, targets.unlocks]
      exact (congrArg Pair.closing hpair :)
    · exact (hbegun target p).trans (congrArg Pair.begun hpair :)
  refine ⟨fun o => ?_, fun t => ?_, ?_⟩
  · by_cases ho : o = p
    · subst ho
      refine ⟨some (target, .unlocking type order), ?_, fun t => ?_, ?_, ?_, ?_, fun hcall => ?_,
        fun r hr => ?_, fun _ => ?_⟩
      · rw [lockTarget, hs.target]
        rfl
      · exact hs.pair_to hp (fun t ht => hothers o t fun h => ht h.2) t
      · rw [ack, upd_self, hs.ack]
        rfl
      · rw [call, upd_self]
        rfl
      · rw [out, upd_self, sending, upd_self, hs.out, hs.rests hidle]
        simp [due]
      · rw [call, upd_self] at hcall
        cases hcall
      · rw [pending, upd_self] at hr
        cases hr
      · rw [pending, upd_self]
    · obtain ⟨s, hs'⟩ := h.sessions o
      refine ⟨s, hs'.congr (by rw [lockTarget]) (fun t => hothers o t fun h => ho h.1) ?_ ?_ ?_ ?_
        ?_⟩
      · rw [ack, upd_of_ne _ _ ho]
      · rw [call, upd_of_ne _ _ ho]
      · rw [out, sending, upd_of_ne _ _ ho, upd_of_ne _ _ ho]
      · rw [sending, upd_of_ne _ _ ho]
        exact id
      · rw [pending, upd_of_ne _ _ ho]
  · by_cases ht : t = target
    · subst ht
      have hserves := h.serves t
      have hnot : p ∉ w.unlocksPending t := count_eq_zero.mp (congrArg Pair.closing hpair)
      have hrest : (w.unlocksPending t).map (fun o => (w'.pair o t).rest) =
          (w.unlocksPending t).map fun o => (w.pair o t).rest := by
        refine map_congr_left fun o ho => ?_
        rw [hothers o t fun h => hnot (h.1 ▸ ho)]
      refine ⟨?_, ?_, ?_, ?_, fun o => ?_⟩
      · rw [incoming, targets.unlocks, hrest]
        exact hserves.incoming
      · rw [targets.status, targets.granted]
        exact hserves.status
      · rw [targets.shared, targets.granted]
        exact hserves.shared
      · rw [targets.status, targets.granting, targets.locks]
        exact hserves.waiting
      · have honce := hserves.once o
        rw [targets.requests, targets.grants]
        by_cases ho : o = p
        · subst ho
          rw [hpair] at honce
          rw [hp]
          simp only [Stage.pair, countP_cons, isLockReq, Bool.false_eq_true, if_false,
            Nat.add_zero, countP_isLockReq_map] at honce ⊢
          exact honce
        · rw [hothers o t fun h => ho h.1]
          exact honce
    · refine (h.serves t).of_same targets (fun o => ?_) (fun o => hbegun t o) (by rw [incoming])
      rw [line, if_neg fun h => ht h.2, append_nil]
  · rw [targets.group]
    exact h.noGroup

theorem Session.stage_of_ack {o t : P} {stage : Stage P}
    (hs : Session z w o (some (t, stage))) (hidle : w.call o = .idle)
    (hack : w.lockReceivedAck o ≠ 0) : ∃ type, stage = .granted type true := by
  have hc := hs.call
  have ha := hs.ack
  rw [hidle] at hc
  simp only [map_some, getD_some] at hc ha
  cases stage with
  | granted type acked =>
    cases acked with
    | true => exact ⟨type, rfl⟩
    | false => exact absurd ha hack
  | requested type | queued type => exact absurd ha hack
  | unlocking type ops | closing type ops begun | released | replied => cases hc

theorem Locking.unlock (h : Locking z w) (ht : Transfer z w) (hq : Queues w) {p target : P}
    (htarget : w.lockTarget p = some target) (order : List (Op P)) :
    Locking z (w.unlock z p target order) := by
  unfold World.unlock
  simp only
  split
  · next hcall =>
      obtain ⟨hidle, hack, hperm⟩ := hcall
      rw [isPerm_iff] at hperm
      have hstarted := ht.started_of_perm hperm
      rw [hq.copy_flipSendreqs hidle] at hperm ⊢
      obtain ⟨s, hs⟩ := h.sessions p
      obtain ⟨stage, rfl⟩ := hs.eq_some htarget
      obtain ⟨type, rfl⟩ := hs.stage_of_ack hidle hack
      -- all the requests are for the target that is locked
      have htargets : ∀ r ∈ order, r.target = target := by
        intro r hr
        have htr := hs.queued r (hperm.mem_iff.mp hr)
        rw [htarget] at htr
        exact (Option.some.inj htr).symm
      rw [hperm.length_eq.symm, if_pos hstarted]
      refine h.release order hs hidle ?_ (fun o t => ?_) (fun t o => ?_) ?_ ?_ ?_ ?_ ?_
        ?_ ?_ ?_
      · rw [World.startSendreqs_eq hstarted]
        constructor <;> rfl
      · rw [World.line_startSendreqs hstarted, World.line_emit, filter_isRequest_only rfl]
        change w.line o t ++ _ ++ _ = _
        by_cases ho : o = p
        · by_cases htt : t = target
          · subst htt
            rw [if_pos ho, if_pos ho, if_pos ⟨ho, rfl⟩, only, if_pos rfl, List.append_assoc,
              filter_eq_self.mpr fun r hr => decide_eq_true (htargets r hr)]
            rfl
          · have hnil : (order.filter fun r => r.target = t) = [] := by
              refine filter_eq_nil_iff.mpr fun r hr => ?_
              simp only [decide_eq_true_eq]
              exact fun hrt => htt (hrt.symm.trans (htargets r hr))
            rw [if_pos ho, if_pos ho, if_neg fun h => htt h.2, only, if_neg htt, hnil]
            simp
        · rw [if_neg ho, if_neg ho, if_neg fun h => ho h.1, List.append_nil]
      · rw [World.back_startSendreqs hstarted, World.back_emit, filter_isAnswer_only rfl, ite_self,
          List.append_nil]
        rfl
      all_goals rw [World.startSendreqs_eq hstarted]
      all_goals rfl
  · exact h

theorem Locking.unlocked (h : Locking z w) (p : P) : Locking z (w.unlocked p) := by
  unfold World.unlocked
  split_ifs with hcall
  · refine h.learn (by constructor <;> rfl) (fun _ _ => rfl) rfl rfl
      fun o => ?_
    obtain ⟨s, hs⟩ := h.sessions o
    by_cases ho : o = p
    · subst ho
      -- the release has been answered, so that nothing is left of the session
      obtain ⟨t, rfl⟩ : ∃ t, s = some (t, .replied) := by
        have hc := hs.call
        have hout := hs.out
        rw [hcall.1] at hc
        rw [hcall.2] at hout
        cases s with
        | none => cases hc
        | some e =>
          obtain ⟨t, stage⟩ := e
          have hdue : stage.due ≤ 0 := by
            simp only [map_some, getD_some] at hout
            omega
          cases stage with
          | replied => exact ⟨t, rfl⟩
          | requested type | queued type | granted type acked => cases hc
          | unlocking type ops | closing type ops begun | released =>
            exact absurd hdue (by simp [Stage.due])
      have hout := hs.out
      rw [hcall.2] at hout
      have hnil : w.sending o = [] := by
        refine length_eq_zero_iff.mp ?_
        simp only [map_some, getD_some, Stage.due] at hout
        omega
      have hpending := hs.closed hcall.1
      refine ⟨none, upd_self _ _ _, fun t' => ?_, hs.ack, upd_self _ _ _, hs.out, fun _ => hnil,
        fun r hr => ?_, fun _ => hpending⟩
      · refine (hs.pair t').trans ?_
        unfold sessionPair
        simp only
        split_ifs <;> rfl
      · change r ∈ w.pendingSendreqs o at hr
        rw [hpending] at hr
        cases hr
    · exact ⟨s, hs.congr (upd_of_ne _ _ ho) (fun _ => rfl) rfl (upd_of_ne _ _ ho) rfl id rfl⟩
  · exact h

end Origins

end Ulfm.Osc
