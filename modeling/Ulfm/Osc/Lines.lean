import Ulfm.Osc.Transfer

/-!
# The lines between origins and targets

The messages of an origin to a target, the acknowledgements that come back, and the
operations that the target has begun: what sending, arriving and landing do to them.
-/

namespace Ulfm.Osc

open List Osc.World

variable {P : Type}

def Msg.isRequest : Msg P → Bool
  | .op _ _ | .lockReq _ | .unlockReq _ | .complete _ => true
  | .reply _ _ | .post | .lockAck | .unlockReply => false

/-- An acknowledgement from a target to an origin. -/
def Msg.isAnswer : Msg P → Bool
  | .lockAck | .unlockReply => true
  | .op _ _ | .reply _ _ | .lockReq _ | .unlockReq _ | .post | .complete _ => false

@[simp]
theorem Sizes.isRequest_opMsg (z : Sizes) (r : Op P) : (z.opMsg r).isRequest = true := rfl

@[simp]
theorem Sizes.isAnswer_opMsg (z : Sizes) (r : Op P) : (z.opMsg r).isAnswer = false := rfl

theorem filterMap_op?_map {z : Sizes} (ops : List (Op P)) :
    (ops.map z.opMsg).filterMap Msg.op? = ops := by
  rw [filterMap_map]
  exact filterMap_some

variable [DecidableEq P]

namespace World

variable (w : World P)

def line (o t : P) : List (Msg P) := (w.chan o t).filter Msg.isRequest

def back (t o : P) : List (Msg P) := (w.chan t o).filter Msg.isAnswer

/-- The operations of an origin that are under way at a target. -/
def underWay (o t : P) : List (Op P) := w.flying o t ++ w.begun t o

omit [DecidableEq P] in
theorem flying_eq (o t : P) : w.flying o t = (w.line o t).filterMap Msg.op? := by
  unfold World.flying World.data World.line
  rw [filterMap_filter, filterMap_filter]
  congr 1
  funext m
  cases m <;> rfl

theorem filter_emit (f : Msg P → Bool) (p : P) (out : P → List (Msg P)) (a b : P) :
    ((w.emit p out).chan a b).filter f =
      (w.chan a b).filter f ++ if a = p then (out b).filter f else [] := by
  unfold World.emit
  simp only
  split_ifs
  · rw [filter_append]
  · rw [append_nil]

theorem line_emit (p : P) (out : P → List (Msg P)) (o t : P) : (w.emit p out).line o t =
      w.line o t ++ if o = p then (out t).filter Msg.isRequest else [] :=
  w.filter_emit _ p out o t

theorem back_emit (p : P) (out : P → List (Msg P)) (t o : P) : (w.emit p out).back t o =
      w.back t o ++ if t = p then (out o).filter Msg.isAnswer else [] :=
  w.filter_emit _ p out t o

section

variable {w} {p : P} {out : P → List (Msg P)}

theorem line_emit_of_nil (h : ∀ b, (out b).filter Msg.isRequest = []) (o t : P) :
    (w.emit p out).line o t = w.line o t := by
  rw [line_emit, h, ite_self, append_nil]

theorem back_emit_of_nil (h : ∀ b, (out b).filter Msg.isAnswer = []) (t o : P) :
    (w.emit p out).back t o = w.back t o := by
  rw [back_emit, h, ite_self, append_nil]

end

variable {w} {q p : P} {m : Msg P} {rest : List (Msg P)}

theorem line_pop (h : w.chan q p = m :: rest) (o t : P) : w.line o t =
      (if o = q ∧ t = p then if m.isRequest then [m] else [] else []) ++ (w.pop q p).line o t :=
  filter_pop h _ o t

theorem back_pop (h : w.chan q p = m :: rest) (t o : P) : w.back t o =
      (if t = q ∧ o = p then if m.isAnswer then [m] else [] else []) ++ (w.pop q p).back t o :=
  filter_pop h _ t o

theorem line_startSendreqs {z : Sizes} {order : List (Op P)} (h : Started z order) (o t : P) :
    (w.startSendreqs z p order).line o t =
      w.line o t ++ if o = p then (order.filter fun r => r.target = t).map z.opMsg else [] := by
  rw [World.startSendreqs_eq h]
  refine (World.line_emit _ p _ o t).trans ?_
  have hrequests : ((order.filter fun r => r.target = t).map z.opMsg).filter Msg.isRequest =
      (order.filter fun r => r.target = t).map z.opMsg := by
    refine filter_eq_self.mpr fun m hm => ?_
    obtain ⟨r, -, rfl⟩ := mem_map.mp hm
    rfl
  rw [hrequests]
  rfl

theorem back_startSendreqs {z : Sizes} {order : List (Op P)} (h : Started z order) (t o : P) :
    (w.startSendreqs z p order).back t o = w.back t o := by
  rw [World.startSendreqs_eq h]
  refine back_emit_of_nil (fun b => filter_eq_nil_iff.mpr fun m hm => ?_) t o
  obtain ⟨r, -, rfl⟩ := mem_map.mp hm
  simp

end World

section Arriving

variable {w : World P} {q p : P} {m : Msg P} {rest : List (Msg P)}

section

variable (hc : w.chan q p = m :: rest)
include hc

theorem World.back_pop_of_not (hm : m.isAnswer = false) (t o : P) :
    (w.pop q p).back t o = w.back t o := by
  simp [back_pop hc t o, hm]

theorem World.line_pop_of_not (hm : m.isRequest = false) (o t : P) :
    (w.pop q p).line o t = w.line o t := by
  simp [line_pop hc o t, hm]

theorem World.line_eq_cons (hm : m.isRequest = true) : w.line q p = m :: (w.pop q p).line q p := by
  rw [line_pop hc q p, if_pos ⟨rfl, rfl⟩, if_pos hm]
  rfl

theorem World.line_pop_of_ne {o t : P} (h : ¬(o = q ∧ t = p)) :
    (w.pop q p).line o t = w.line o t := by
  rw [line_pop hc o t, if_neg h, nil_append]

theorem World.back_eq_cons (hm : m.isAnswer = true) : w.back q p = m :: (w.pop q p).back q p := by
  rw [back_pop hc q p, if_pos ⟨rfl, rfl⟩, if_pos hm]
  rfl

theorem World.back_pop_of_ne {t o : P} (h : ¬(t = q ∧ o = p)) :
    (w.pop q p).back t o = w.back t o := by
  rw [back_pop hc t o, if_neg h, nil_append]

end

end Arriving

section Landing

variable {w : World P}

theorem World.begun_push (w : World P) (q p : P) (r : Op P) (t o : P) :
    World.begun { w with landing := upd w.landing p (w.landing p ++ [(q, r)]) } t o =
      w.begun t o ++ if o = q ∧ t = p then [r] else [] := by
  unfold begun
  simp only
  by_cases ht : t = p
  · subst ht
    rw [upd_self, filterMap_append]
    by_cases ho : q = o
    · simp [ho]
    · simp [ho, Ne.symm ho]
  · rw [upd_of_ne _ _ ht, if_neg fun h => ht h.2, append_nil]

theorem filterMap_eraseIdx {α β : Type} (f : α → Option β) {l : List α} {i : ℕ} {a : α}
    (h : l[i]? = some a) (ha : f a = none) : (l.eraseIdx i).filterMap f = l.filterMap f := by
  obtain ⟨hi, hget⟩ := List.getElem?_eq_some_iff.mp h
  have hsplit : l = l.take i ++ a :: l.drop (i + 1) := by
    rw [← hget, getElem_cons_drop, take_append_drop]
  rw [eraseIdx_eq_take_drop_succ]
  conv_rhs => rw [hsplit]
  rw [filterMap_append, filterMap_append, filterMap_cons_none ha]

/-- The target has marked the end of an operation that it has begun. -/
def World.drop (w : World P) (q p : P) (r : Op P) (i : ℕ) : World P :=
  { w with
    landing := upd w.landing p ((w.landing p).eraseIdx i)
    numPendingIn := upd w.numPendingIn p (w.numPendingIn p - 1)
    applied := upd w.applied p (upd (w.applied p) q (r :: w.applied p q)) }

theorem World.begun_drop {q p : P} {r : Op P} {i : ℕ} (hi : (w.landing p)[i]? = some (q, r)) :
    (w.begun p q).length = ((w.drop q p r i).begun p q).length + 1 := by
  obtain ⟨hlt, hget⟩ := List.getElem?_eq_some_iff.mp hi
  have herase := getElem_cons_eraseIdx_perm hlt
  rw [hget] at herase
  have hperm := (herase.filterMap fun e => if e.1 = q then some e.2 else none).length_eq
  simp only [filterMap_cons, if_true, length_cons] at hperm
  unfold begun
  rw [show (w.drop q p r i).landing p = (w.landing p).eraseIdx i from upd_self _ _ _]
  exact hperm.symm

theorem World.begun_drop_of_ne {q p : P} {r : Op P} {i : ℕ}
    (hi : (w.landing p)[i]? = some (q, r)) {t o : P} (hne : ¬(o = q ∧ t = p)) :
    (w.drop q p r i).begun t o = w.begun t o := by
  unfold begun
  change (upd w.landing p ((w.landing p).eraseIdx i) t).filterMap _ = _
  by_cases htp : t = p
  · subst htp
    rw [upd_self]
    exact filterMap_eraseIdx _ hi (if_neg fun h => hne ⟨h.symm, rfl⟩)
  · rw [upd_of_ne _ _ htp]

theorem World.inmsgMarkComplete_of_unlocked {q p : P} (r : Op P) (h : w.lockStatus p = none) :
    w.inmsgMarkComplete q p r = { w with
      numPendingIn := upd w.numPendingIn p (w.numPendingIn p - 1)
      applied := upd w.applied p (upd (w.applied p) q (r :: w.applied p q)) } := by
  unfold inmsgMarkComplete
  simp only
  rw [if_neg fun hcond => hcond.2.1 h]

end Landing

theorem filter_isAnswer_only {t : P} {m : Msg P} (hm : m.isAnswer = false) (b : P) :
    (only t m b).filter Msg.isAnswer = [] := by
  unfold only
  split_ifs
  · rw [filter_singleton, hm]
    rfl
  · rfl

theorem filter_isRequest_only {t : P} {m : Msg P} (hm : m.isRequest = true) (b : P) :
    (only t m b).filter Msg.isRequest = only t m b := by
  unfold only
  split_ifs
  · rw [filter_singleton, hm]
    rfl
  · rfl

theorem sum_map_of_dec {α : Type} [DecidableEq α] {l : List α} {f g : α → ℕ} {a : α} {k : ℕ}
    (hnodup : l.Nodup) (ha : a ∈ l) (heq : f a = g a + k) (hne : ∀ b, b ≠ a → f b = g b) :
    (l.map f).sum = (l.map g).sum + k := by
  induction l with
  | nil => cases ha
  | cons b l ih =>
    obtain ⟨hb, hnodup⟩ := nodup_cons.mp hnodup
    rw [map_cons, map_cons, sum_cons, sum_cons]
    rcases mem_cons.mp ha with rfl | ha
    · have hrest : l.map f = l.map g :=
        map_congr_left fun b' hb' => hne b' fun h => hb (h ▸ hb')
      rw [hrest, heq]
      omega
    · have hba : b ≠ a := fun h => hb (h ▸ ha)
      rw [hne b hba, ih hnodup ha]
      omega

end Ulfm.Osc
