import Ulfm.Osc.Lane

/-!
# Post, start, complete and wait

Every event keeps the lanes, as long as no post has been counted that is of another
process than those of the access epoch that is completed.
-/

namespace Ulfm.Osc

open List Function Msg Sizes Osc.World

variable {P : Type} [DecidableEq P] {z : Sizes} {w w' : World P}

section Operations

omit [DecidableEq P] in
theorem countP_isComplete_map (ops : List (Op P)) :
    (ops.map z.opMsg).countP Msg.isComplete = 0 := by
  rw [countP_eq_zero]
  intro m hm
  obtain ⟨r, -, rfl⟩ := mem_map.mp hm
  simp [opMsg, isComplete]

theorem Epochs.advance (h : Epochs z w) (same : SameEpochs w w')
    (postsOn : ∀ t o, (w'.chan t o).countP Msg.isPost = (w.chan t o).countP Msg.isPost)
    (back : ∀ t o, w'.back t o = w.back t o) {q p : P} {ops ops' : List (Op P)} {k : ℕ}
    (hq : q ∈ w.completesFrom p) (hline : w.line q p = ops.map z.opMsg)
    (line : w'.line q p = ops'.map z.opMsg)
    (way : w'.underWay q p ⊆ w.underWay q p)
    (lines : ∀ o t, ¬(o = q ∧ t = p) → w'.line o t = w.line o t)
    (begun : ∀ o t, ¬(o = q ∧ t = p) → w'.begun t o = w.begun t o)
    (hk : (w.underWay q p).length = (w'.underWay q p).length + k)
    (incoming : w'.numPendingIn = upd w.numPendingIn p (w.numPendingIn p - k)) :
    Epochs z w' := by
  have hway : ∀ o t, ¬(o = q ∧ t = p) → w'.underWay o t = w.underWay o t := by
    intro o t hne
    unfold underWay
    rw [flying_eq, flying_eq, lines o t hne, begun o t hne]
  refine ⟨fun o t => ?_, fun t => ?_, fun o => (h.accesses o).of_same same⟩
  · by_cases hot : o = q ∧ t = p
    · obtain ⟨rfl, rfl⟩ := hot
      have hlane := h.lanes o t
      constructor
      · rw [same.posts, same.completes, postsOn, same.postsFrom]
        exact hlane.posts
      · rw [same.posts, same.waits, same.exposure]
        exact hlane.exposed
      · have hcompletes := hlane.completes
        rw [hline, countP_isComplete_map] at hcompletes
        rw [same.completes, same.waits, same.completesFrom, line, countP_isComplete_map]
        exact hcompletes
      · rw [same.starts, same.completes, same.access]
        exact hlane.starts
      · refine .inl ⟨ops', line, fun _ => ?_⟩
        rw [same.completesFrom]
        exact hq
      · rw [same.completes]
        exact fun r hr => hlane.epoch r (way hr)
      · rw [back, hlane.back]
    · exact (h.lanes o t).of_same same (postsOn t o) (lines o t hot) (begun o t hot) (back t o)
  · refine (h.exposures t).of_same same ?_
    by_cases ht : t = p
    · subst ht
      have hsum := sum_map_of_dec (f := fun o => (w.underWay o t).length)
        (g := fun o => (w'.underWay o t).length) (k := k) (h.nodup_completesFrom t) hq hk
        fun o ho => by rw [hway o t fun h => ho h.1]
      rw [incoming, upd_self, (h.exposures t).incoming, hsum]
      push_cast
      omega
    · have hsame : ∀ o, w'.underWay o t = w.underWay o t := fun o => hway o t fun h => ht h.2
      simp only [hsame]
      rw [incoming, upd_of_ne _ _ ht]
      exact (h.exposures t).incoming

variable {q p : P} {rest : List (Msg P)}

theorem countP_isPost_pop {m : Msg P} (hc : w.chan q p = m :: rest) (hm : m.isPost = false)
    (t o : P) : ((w.pop q p).chan t o).countP Msg.isPost = (w.chan t o).countP Msg.isPost := by
  unfold pop
  simp only
  split_ifs with hqp
  · rw [hqp.1, hqp.2, hc, countP_cons_of_neg (by simp [hm])]
    rfl
  · rfl

theorem countP_isPost_emit (w : World P) (p : P) {out : P → List (Msg P)}
    (hout : ∀ b, (out b).countP Msg.isPost = 0) (t o : P) :
    ((w.emit p out).chan t o).countP Msg.isPost = (w.chan t o).countP Msg.isPost := by
  unfold emit
  simp only
  split_ifs
  · rw [countP_append, hout, Nat.add_zero]
  · rfl

theorem countP_isPost_startSendreqs {p : P} {order : List (Op P)} (h : Started z order) (t o : P) :
    ((w.startSendreqs z p order).chan t o).countP Msg.isPost = (w.chan t o).countP Msg.isPost := by
  rw [startSendreqs_eq h]
  refine (countP_isPost_emit _ p (fun b => ?_) t o).trans ?_
  · rw [countP_map]
    simp [comp_def, opMsg, isPost]
  · rfl

theorem Epochs.ops_of_op (h : Epochs z w) {r : Op P} {n : ℕ}
    (hc : w.chan q p = .op r n :: rest) : ∃ ops, w.line q p = (r :: ops).map z.opMsg ∧
      (w.pop q p).line q p = ops.map z.opMsg ∧ q ∈ w.completesFrom p := by
  have hhead := line_eq_cons hc rfl
  rcases (h.lanes q p).line with ⟨ops, hline, hmem⟩ | ⟨ops, hline, -⟩
  · cases ops with
    | nil =>
      rw [hline] at hhead
      cases hhead
    | cons r' ops =>
      rw [hline, map_cons, List.cons.injEq] at hhead
      obtain ⟨hop, hrest⟩ := hhead
      obtain rfl : r' = r := by
        simp only [opMsg, Msg.op.injEq] at hop
        exact hop.1
      refine ⟨ops, hline, hrest.symm, hmem ?_⟩
      unfold underWay
      rw [flying_eq, hline]
      simp [opMsg, op?]
  · rw [hline] at hhead
    cases hhead

theorem Epochs.deliver_op (h : Epochs z w) (ht : Transfer z w) {r : Op P} {n : ℕ}
    (hc : w.chan q p = .op r n :: rest) :
    Epochs z ((w.pop q p).fragment z q p (.op r n)) := by
  obtain ⟨ops, hhead, hline, hq⟩ := h.ops_of_op hc
  have hflying : w.flying q p = r :: ops := by
    rw [flying_eq, hhead, filterMap_op?_map]
  have hbacks : ∀ t o, (w.pop q p).back t o = w.back t o := back_pop_of_not hc rfl
  have hposts := countP_isPost_pop (p := p) hc rfl
  -- the operation is begun, and its origin may be sent a reply
  have hland : ∀ out : P → List (Msg P), (∀ b, (out b).filter isRequest = []) →
      (∀ b, (out b).filter isAnswer = []) → (∀ b, (out b).countP isPost = 0) →
      Epochs z ({ w.pop q p with
        landing := upd w.landing p (w.landing p ++ [(q, r)]) }.emit p out) := by
    intro out hrequest hanswer hpost
    show Epochs z (?after : World P)
    set w' : World P := ?after
    have hline' : ∀ o t, w'.line o t = (w.pop q p).line o t := line_emit_of_nil hrequest
    have hback' : ∀ t o, w'.back t o = w.back t o := fun t o =>
      (back_emit_of_nil hanswer t o).trans (hbacks t o)
    have hpost' : ∀ t o, (w'.chan t o).countP isPost = (w.chan t o).countP isPost := by
      intro t o
      rw [← hposts t o]
      exact countP_isPost_emit _ p hpost t o
    have hbegun' : ∀ t o, w'.begun t o = w.begun t o ++ if o = q ∧ t = p then [r] else [] :=
      w.begun_push q p r
    have hway : w'.underWay q p = ops ++ (w.begun p q ++ [r]) := by
      unfold underWay
      rw [flying_eq, hline', hline, filterMap_op?_map, hbegun', if_pos ⟨rfl, rfl⟩]
    have hway' : w.underWay q p = r :: ops ++ w.begun p q := by
      unfold underWay
      rw [hflying]
    refine h.advance (k := 0) (by constructor <;> rfl)
      hpost' hback' hq hhead ((hline' q p).trans hline) ?_ (fun o t hne => ?_)
      (fun o t hne => ?_) ?_ ?_
    · rw [hway, hway']
      intro x hx
      simp only [mem_append, mem_cons, not_mem_nil, or_false] at hx ⊢
      tauto
    · exact (hline' o t).trans (line_pop_of_ne hc hne)
    · rw [hbegun', if_neg hne, append_nil]
    · rw [hway, hway']
      simp only [length_append, length_cons, length_nil]
      omega
    · funext t
      by_cases htp : t = p
      · rw [htp, upd_self]
        exact (sub_zero _).symm
      · rw [upd_of_ne _ _ htp]
        rfl
  simp only [fragment]
  rcases ht.recvOp_cases hc with ⟨-, heq⟩ | ⟨-, heq⟩ | ⟨-, -, heq⟩
  · have hunlocked : (w.pop q p).lockStatus p = none := (h.exposures p).unlocked
    rw [heq, inmsgMarkComplete_of_unlocked r hunlocked]
    show Epochs z (?applied : World P)
    set w' : World P := ?applied
    have hway : w'.underWay q p = ops ++ w.begun p q := by
      unfold underWay
      rw [flying_eq, show w'.line q p = _ from hline, filterMap_op?_map]
      rfl
    have hway' : w.underWay q p = r :: ops ++ w.begun p q := by
      unfold underWay
      rw [hflying]
    refine h.advance (k := 1) (by constructor <;> rfl)
      hposts hbacks hq hhead hline ?_ (fun o t hne => line_pop_of_ne hc hne)
      (fun o t hne => rfl) ?_ rfl
    · rw [hway, hway']
      exact subset_cons_self _ _
    · rw [hway, hway']
      simp only [length_append, length_cons]
      omega
  · rw [heq]
    have hnone := hland (fun _ => []) (fun _ => rfl) (fun _ => rfl) fun _ => rfl
    have hemit : ∀ w : World P, w.emit p (fun _ => []) = w := by
      intro w
      simp [emit]
    rwa [hemit] at hnone
  · rw [heq]
    refine hland _ (fun b => ?_) (fun b => ?_) fun b => ?_
    all_goals unfold only
    all_goals split_ifs <;> rfl

theorem Epochs.landed (h : Epochs z w) (p : P) (i : ℕ) : Epochs z (w.landed p i) := by
  unfold World.landed
  split
  · exact h
  · next q r hi =>
      have hunlocked : World.lockStatus { w with
          landing := upd w.landing p ((w.landing p).eraseIdx i) } p = none :=
        (h.exposures p).unlocked
      rw [World.inmsgMarkComplete_of_unlocked r hunlocked]
      change Epochs z (w.drop q p r i)
      have hlength := World.begun_drop (r := r) hi
      have hne : w.begun p q ≠ [] := by
        intro hnil
        rw [hnil] at hlength
        cases hlength
      have hsub : (w.drop q p r i).begun p q ⊆ w.begun p q := by
        unfold World.begun
        rw [show (w.drop q p r i).landing p = (w.landing p).eraseIdx i from upd_self _ _ _]
        exact ((eraseIdx_sublist _ _).filterMap _).subset
      -- begun operations have been announced
      obtain ⟨ops, hline, hq⟩ : ∃ ops : List (Op P), w.line q p = ops.map z.opMsg ∧
          q ∈ w.completesFrom p := by
        rcases (h.lanes q p).line with ⟨ops, hline, hmem⟩ | ⟨ops, -, hnil⟩
        · refine ⟨ops, hline, hmem fun hnil => hne ?_⟩
          exact (append_eq_nil_iff.mp hnil).2
        · exact absurd hnil hne
      refine h.advance (k := 1) (by constructor <;> rfl)
        (fun _ _ => rfl) (fun _ _ => rfl) hq hline hline ?_ (fun _ _ _ => rfl)
        (fun o t hne => World.begun_drop_of_ne hi hne) ?_ rfl
      · intro x hx
        refine mem_append.mpr ((mem_append.mp hx).imp_right fun hx => hsub hx)
      · unfold World.underWay
        rw [length_append, length_append, hlength]
        exact (Nat.add_assoc _ _ _).symm

end Operations

section Messages

variable {q p : P} {rest : List (Msg P)}

section

variable (h : Epochs z w)
include h

theorem Epochs.take {m : Msg P} (hc : w.chan q p = m :: rest)
    (hpost : m.isPost = false) (hrequest : m.isRequest = false) (hanswer : m.isAnswer = false)
    (same : SameEpochs w w') (chan : w'.chan = (w.pop q p).chan) (landing : w'.landing = w.landing)
    (incoming : w'.numPendingIn = w.numPendingIn) : Epochs z w' := by
  refine h.of_same same (fun t o => ?_) (fun o t => ?_) (fun t o => ?_) (fun t o => ?_) incoming
  · rw [chan]
    exact countP_isPost_pop hc hpost t o
  · unfold line
    rw [chan]
    exact line_pop_of_not hc hrequest o t
  · unfold begun
    rw [landing]
  · unfold back
    rw [chan]
    exact back_pop_of_not hc hanswer t o

theorem Epochs.deliver_post (hc : w.chan q p = .post :: rest) :
    Epochs z ((w.pop q p).fragment z q p .post) := by
  simp only [fragment]
  show Epochs z (?after : World P)
  set w' : World P := ?after
  have hline : ∀ o t, w'.line o t = w.line o t := line_pop_of_not hc rfl
  have hback : ∀ t o, w'.back t o = w.back t o := back_pop_of_not hc rfl
  have hpost : (w.chan q p).countP isPost = (w'.chan q p).countP isPost + 1 := by
    change _ = (if q = q ∧ p = p then (w.chan q p).tail else w.chan q p).countP isPost + 1
    rw [if_pos ⟨rfl, rfl⟩, hc, countP_cons_of_pos rfl]
    rfl
  have hposts : ∀ t o, ¬(o = p ∧ t = q) →
      (w'.chan t o).countP isPost = (w.chan t o).countP isPost := by
    intro t o hne
    change (if t = q ∧ o = p then (w.chan q p).tail else w.chan t o).countP isPost = _
    rw [if_neg fun h => hne ⟨h.2, h.1⟩]
  have hway : ∀ o t, w'.underWay o t = w.underWay o t := by
    intro o t
    unfold underWay
    rw [flying_eq, flying_eq, hline]
    rfl
  refine ⟨fun o t => ?_, fun t => ?_, fun o => ?_⟩
  · have hlane := h.lanes o t
    by_cases hot : o = p ∧ t = q
    · obtain ⟨rfl, rfl⟩ := hot
      refine ⟨?_, hlane.exposed, ?_, hlane.starts, ?_, ?_, (hback t o).trans hlane.back⟩
      · have hold := hlane.posts
        change w.posts t o = w.completes o t + _ +
          (upd w.postsFrom o (t :: w.postsFrom o) o).count t
        rw [upd_self, count_cons_self]
        omega
      · rw [hline]
        exact hlane.completes
      · rw [hline, hway]
        exact hlane.line
      · rw [hway]
        exact hlane.epoch
    · refine hlane.congr rfl rfl rfl rfl (hposts t o hot) ?_ rfl rfl rfl (hline o t) rfl
        (hback t o)
      change (upd w.postsFrom p (q :: w.postsFrom p) o).count t = _
      by_cases ho : o = p
      · have ht : q ≠ t := fun ht => hot ⟨ho, ht.symm⟩
        rw [ho, upd_self, count_cons_of_ne ht]
      · rw [upd_of_ne _ _ ho]
  · have hexposure := h.exposures t
    refine ⟨?_, hexposure.completeMsgs, hexposure.nodup, hexposure.unlocked⟩
    simp only [hway]
    exact hexposure.incoming
  · have haccess := h.accesses o
    refine ⟨?_, haccess.nodup, haccess.pending, haccess.call⟩
    have hold := haccess.postMsgs
    change upd w.numPostMsgs p (w.numPostMsgs p - 1) o =
      (w.access o).length - (upd w.postsFrom p (q :: w.postsFrom p) o).length
    by_cases ho : o = p
    · rw [ho] at hold ⊢
      rw [upd_self, upd_self, length_cons, hold]
      push_cast
      omega
    · rw [upd_of_ne _ _ ho, upd_of_ne _ _ ho]
      exact hold

theorem Epochs.deliver_complete {n : ℕ} (hc : w.chan q p = .complete n :: rest) :
    Epochs z ((w.pop q p).fragment z q p (.complete n)) := by
  have hhead := line_eq_cons hc rfl
  obtain ⟨ops, rfl, hrest, hline, hbegun⟩ : ∃ ops : List (Op P), n = ops.length ∧
      (w.pop q p).line q p = ops.map z.opMsg ∧
        w.line q p = .complete ops.length :: ops.map z.opMsg ∧ w.begun p q = [] := by
    rcases (h.lanes q p).line with ⟨ops, hline, -⟩ | ⟨ops, hline, hbegun⟩
    · rw [hline] at hhead
      cases ops with
      | nil | cons r ops => cases hhead
    · have hcons := hhead
      rw [hline, List.cons.injEq, Msg.complete.injEq] at hcons
      exact ⟨ops, hcons.1.symm, hcons.2.symm, hline, hbegun⟩
  simp only [fragment]
  show Epochs z (?after : World P)
  set w' : World P := ?after
  have hfrom : w'.completesFrom p = q :: w.completesFrom p := upd_self _ _ _
  have hlines : ∀ o t, ¬(o = q ∧ t = p) → w'.line o t = w.line o t := fun o t =>
    line_pop_of_ne hc
  have hback : ∀ t o, w'.back t o = w.back t o := back_pop_of_not hc rfl
  have hpost : ∀ t o, (w'.chan t o).countP isPost = (w.chan t o).countP isPost :=
    countP_isPost_pop hc rfl
  have hnot : q ∉ w.completesFrom p := by
    obtain ⟨hcount, hone⟩ := (h.lanes q p).count_le (h.exposures p).nodup
    rw [hline, countP_cons_of_pos rfl] at hcount
    exact count_eq_zero.mp (by omega)
  have hwayq : w'.underWay q p = ops := by
    unfold underWay
    rw [flying_eq, show w'.line q p = _ from hrest, filterMap_op?_map,
      show w'.begun p q = [] from hbegun, append_nil]
  have hwayq' : w.underWay q p = ops := by
    unfold underWay
    rw [flying_eq, hline, filterMap_cons_none rfl, filterMap_op?_map, hbegun, append_nil]
  have hway : ∀ o t, w'.underWay o t = w.underWay o t := by
    intro o t
    by_cases hot : o = q ∧ t = p
    · rw [hot.1, hot.2, hwayq, hwayq']
    · unfold underWay
      rw [flying_eq, flying_eq, hlines o t hot]
      rfl
  refine ⟨fun o t => ?_, fun t => ?_, fun o => ?_⟩
  · have hlane := h.lanes o t
    by_cases hot : o = q ∧ t = p
    · obtain ⟨rfl, rfl⟩ := hot
      refine ⟨?_, hlane.exposed, ?_, hlane.starts, .inl ⟨ops, hrest, fun _ => ?_⟩, ?_,
        (hback t o).trans hlane.back⟩
      · rw [hpost]
        exact hlane.posts
      · have hold := hlane.completes
        rw [hline, countP_cons_of_pos rfl, countP_isComplete_map] at hold
        rw [show w'.line o t = _ from hrest, countP_isComplete_map, hfrom, count_cons_self]
        change w.completes o t = w.waits t o + 0 + _
        omega
      · rw [hfrom]
        exact mem_cons_self
      · rw [hway]
        exact hlane.epoch
    · refine hlane.congr rfl rfl rfl rfl (hpost t o) rfl rfl rfl ?_ (hlines o t hot) rfl
        (hback t o)
      change (upd w.completesFrom p (q :: w.completesFrom p) t).count o = _
      by_cases ht : t = p
      · have ho : q ≠ o := fun ho => hot ⟨ho.symm, ht⟩
        rw [ht, upd_self, count_cons_of_ne ho]
      · rw [upd_of_ne _ _ ht]
  · have hexposure := h.exposures t
    by_cases ht : t = p
    · subst ht
      refine ⟨?_, ?_, hexposure.nodup, hexposure.unlocked⟩
      · simp only [hway]
        rw [hfrom, map_cons, sum_cons, hwayq']
        change upd w.numPendingIn t (w.numPendingIn t + ops.length) t = _
        rw [upd_self, hexposure.incoming]
        push_cast
        omega
      · rw [hfrom, length_cons]
        change upd w.numCompleteMsgs t (w.numCompleteMsgs t - 1) t = (w.exposure t).length - _
        rw [upd_self, hexposure.completeMsgs]
        push_cast
        omega
    · have hsame : w'.completesFrom t = w.completesFrom t := upd_of_ne _ _ ht
      refine ⟨?_, ?_, hexposure.nodup, hexposure.unlocked⟩
      · simp only [hway]
        rw [hsame]
        change upd w.numPendingIn p _ t = _
        rw [upd_of_ne _ _ ht]
        exact hexposure.incoming
      · rw [hsame]
        change upd w.numCompleteMsgs p _ t = _
        rw [upd_of_ne _ _ ht]
        exact hexposure.completeMsgs
  · exact ⟨(h.accesses o).postMsgs, (h.accesses o).nodup, (h.accesses o).pending,
      (h.accesses o).call⟩

theorem Epochs.request_of_epoch {m : Msg P} (hc : w.chan q p = m :: rest)
    (hm : m.isRequest = true) : m.op? ≠ none ∨ m.isComplete = true := by
  have hhead := line_eq_cons hc hm
  rcases (h.lanes q p).line with ⟨ops, hline, -⟩ | ⟨ops, hline, -⟩
  · rw [hline] at hhead
    cases ops with
    | nil => cases hhead
    | cons r ops =>
      rw [map_cons, List.cons.injEq] at hhead
      rw [← hhead.1]
      exact .inl (by simp [opMsg, op?])
  · rw [hline, List.cons.injEq] at hhead
    rw [← hhead.1]
    exact .inr rfl

theorem Epochs.no_answer {m : Msg P} (hm : m.isAnswer = true) : w.chan q p ≠ m :: rest := by
  intro hc
  have hback := back_eq_cons hc hm
  rw [(h.lanes p q).back] at hback
  cases hback

theorem Epochs.deliver (ht : Transfer z w) (q p : P) : Epochs z (w.deliver z q p) := by
  cases hc : w.chan q p with
  | nil =>
    unfold World.deliver
    rw [hc]
    exact h
  | cons m rest =>
    rw [World.deliver_eq hc]
    cases m with
    | op r n => exact h.deliver_op ht hc
    | reply r n =>
      simp only [World.fragment, World.recvReply]
      split_ifs
      · exact h.take hc rfl rfl rfl (by constructor <;> rfl) rfl rfl rfl
      · exact h.take hc rfl rfl rfl (by constructor <;> rfl) rfl rfl rfl
    | post => exact h.deliver_post hc
    | complete n => exact h.deliver_complete hc
    | lockReq type | unlockReq n =>
      exact absurd (h.request_of_epoch hc rfl) (by simp [Msg.op?, Msg.isComplete])
    | lockAck | unlockReply => exact absurd hc (h.no_answer rfl)

end

end Messages

section Calls

section

variable (h : Epochs z w)
include h

theorem Epochs.replyLanded (p : P) (i : ℕ) : Epochs z (w.replyLanded p i) := by
  unfold World.replyLanded
  split
  · exact h
  · exact h.of_same (by constructor <;> rfl)
      (fun _ _ => rfl) (fun _ _ => rfl) (fun _ _ => rfl) (fun _ _ => rfl) rfl

theorem Epochs.sent (p : P) (i : ℕ) : Epochs z (w.sent p i) := by
  unfold World.sent
  split
  · exact h
  · split_ifs
    · exact h
    · exact h.of_same (by constructor <;> rfl)
        (fun _ _ => rfl) (fun _ _ => rfl) (fun _ _ => rfl) (fun _ _ => rfl) rfl

theorem Epochs.issue {p : P} {r : Op P} (hidle : w.call p = .idle) {g : List P}
    (hg : w.scGroup p = some g) (hr : r.target ∈ g) : Epochs z (w.issue p r) := by
  unfold World.issue
  split_ifs
  · exact h
  · refine ⟨fun o t => ?_, fun t => ?_, fun o => ?_⟩
    · have hlane := h.lanes o t
      exact ⟨hlane.posts, hlane.exposed, hlane.completes, hlane.starts, hlane.line, hlane.epoch,
        hlane.back⟩
    · have hexposure := h.exposures t
      exact ⟨hexposure.incoming, hexposure.completeMsgs, hexposure.nodup, hexposure.unlocked⟩
    · have haccess := h.accesses o
      refine ⟨haccess.postMsgs, haccess.nodup, fun r' hr' => ?_, haccess.call⟩
      by_cases ho : o = p
      · subst ho
        simp only [upd_self, mem_append, mem_singleton] at hr'
        rcases hr' with hr' | rfl
        · exact haccess.pending r' hr'
        · refine ⟨?_, rfl⟩
          change r.target ∈ w.access o
          unfold World.access
          rw [hidle, if_neg (by simp), hg]
          exact hr
      · simp only [upd_of_ne _ _ ho] at hr'
        exact haccess.pending r' hr'

theorem Epochs.completed (p : P) : Epochs z (w.completed p) := by
  unfold World.completed
  split_ifs with hcall
  · set w' : World P := { w with
      scGroup := upd w.scGroup p none
      call := upd w.call p .idle }
    have haccess : ∀ o, w'.access o = w.access o := by
      intro o
      unfold World.access
      change
        (if upd w.call p .idle o = .completing then [] else (upd w.scGroup p none o).getD []) = _
      by_cases ho : o = p
      · subst ho
        rw [upd_self, upd_self, if_neg (by simp), if_pos hcall.1]
        rfl
      · rw [upd_of_ne _ _ ho, upd_of_ne _ _ ho]
    refine ⟨fun o t => ?_, fun t => ?_, fun o => ?_⟩
    · exact (h.lanes o t).congr rfl rfl rfl rfl rfl rfl rfl (by rw [haccess]) rfl rfl rfl rfl
    · have hexposure := h.exposures t
      exact ⟨hexposure.incoming, hexposure.completeMsgs, hexposure.nodup, hexposure.unlocked⟩
    · have hold := h.accesses o
      refine ⟨?_, ?_, ?_, ?_⟩
      · rw [haccess]
        exact hold.postMsgs
      · rw [haccess]
        exact hold.nodup
      · rw [haccess]
        exact hold.pending
      · change upd w.call p .idle o = .idle ∨ upd w.call p .idle o = .completing
        by_cases ho : o = p
        · rw [ho, upd_self]
          exact .inl rfl
        · rw [upd_of_ne _ _ ho]
          exact hold.call
  · exact h

theorem Epochs.start {p : P} {g : List P} (hidle : w.call p = .idle)
    (hnone : w.scGroup p = none) (hnodup : g.Nodup) : Epochs z (w.start p g) := by
  unfold World.start
  rw [if_neg (not_not.mpr hnone)]
  show Epochs z (?after : World P)
  set w' : World P := ?after
  have hold : w.access p = [] := by
    unfold World.access
    rw [hnone]
    split_ifs <;> rfl
  have hnew : w'.access p = g := by
    unfold World.access
    change (if w.call p = .completing then [] else (upd w.scGroup p (some g) p).getD []) = g
    rw [hidle, if_neg (by simp), upd_self]
    rfl
  have haccess : ∀ o, o ≠ p → w'.access o = w.access o := by
    intro o ho
    unfold World.access
    change (if w.call o = .completing then [] else (upd w.scGroup p (some g) o).getD []) = _
    rw [upd_of_ne _ _ ho]
  refine ⟨fun o t => ?_, fun t => ?_, fun o => ?_⟩
  · have hlane := h.lanes o t
    by_cases ho : o = p
    · subst ho
      refine ⟨hlane.posts, hlane.exposed, hlane.completes, ?_, hlane.line, hlane.epoch, hlane.back⟩
      have hstarts := hlane.starts
      rw [hold, count_nil] at hstarts
      rw [hnew, hnodup.count]
      change upd w.starts o _ o t = w.completes o t + _
      rw [upd_self]
      split_ifs <;> omega
    · refine hlane.congr rfl rfl rfl ?_ rfl rfl rfl (by rw [haccess o ho]) rfl rfl rfl rfl
      exact congrFun (upd_of_ne _ _ ho) t
  · have hexposure := h.exposures t
    exact ⟨hexposure.incoming, hexposure.completeMsgs, hexposure.nodup, hexposure.unlocked⟩
  · have hacc := h.accesses o
    by_cases ho : o = p
    · subst ho
      refine ⟨?_, by rwa [hnew], fun r hr => ?_, hacc.call⟩
      · have hposts := hacc.postMsgs
        rw [hold] at hposts
        rw [hnew]
        change upd w.numPostMsgs o _ o = _ - (w.postsFrom o).length
        rw [upd_self, hposts]
        rw [length_nil]
        omega
      · have hmem := (hacc.pending r hr).1
        rw [hold] at hmem
        cases hmem
    · refine ⟨?_, ?_, ?_, hacc.call⟩
      · rw [haccess o ho]
        change upd w.numPostMsgs p _ o = _
        rw [upd_of_ne _ _ ho]
        exact hacc.postMsgs
      · rw [haccess o ho]
        exact hacc.nodup
      · rw [haccess o ho]
        change ∀ r ∈ w.pendingSendreqs o, _ ∧ r.access = upd w.starts p _ o r.target
        rw [upd_of_ne _ _ ho]
        exact hacc.pending

theorem Epochs.post {p : P} {g : List P} (hnone : w.pwGroup p = none)
    (hnodup : g.Nodup) : Epochs z (w.post p g) := by
  unfold World.post
  rw [if_neg (not_not.mpr hnone)]
  simp only
  set w' : World P := emit _ p fun b => (g.filter (· = b)).map fun _ => .post
  have hline : ∀ o t, w'.line o t = w.line o t :=
    line_emit_of_nil fun b => by simp [isRequest]
  have hback : ∀ t o, w'.back t o = w.back t o :=
    back_emit_of_nil fun b => by simp [isAnswer]
  have hpost : ∀ t o, (w'.chan t o).countP isPost =
      (w.chan t o).countP isPost + if t = p then g.count o else 0 := by
    intro t o
    change (if t = p then w.chan t o ++ (g.filter (· = o)).map fun _ => Msg.post
      else w.chan t o).countP isPost = _
    split_ifs
    · rw [countP_append, countP_map, filter_eq]
      simp [comp_def, isPost]
    · rfl
  have hold : w.exposure p = [] := by
    unfold exposure
    rw [hnone]
    rfl
  have hfrom : w.completesFrom p = [] := eq_nil_of_subset_nil (hold ▸ h.completesFrom_subset p)
  have hnew : w'.exposure p = g := by
    unfold exposure
    change (upd w.pwGroup p (some g) p).getD [] = g
    rw [upd_self]
    rfl
  have hexposure : ∀ t, t ≠ p → w'.exposure t = w.exposure t := by
    intro t ht
    unfold exposure
    change (upd w.pwGroup p (some g) t).getD [] = _
    rw [upd_of_ne _ _ ht]
  have hway : ∀ o t, w'.underWay o t = w.underWay o t := by
    intro o t
    unfold underWay
    rw [flying_eq, flying_eq, hline]
    rfl
  refine ⟨fun o t => ?_, fun t => ?_, fun o => ?_⟩
  · have hlane := h.lanes o t
    by_cases ht : t = p
    · subst ht
      have hposted : w'.posts t o = w.posts t o + g.count o := by
        change upd w.posts t _ t o = _
        rw [upd_self, hnodup.count]
        split_ifs <;> rfl
      refine ⟨?_, ?_, ?_, hlane.starts, ?_, ?_, (hback t o).trans hlane.back⟩
      · have hposts := hlane.posts
        rw [hposted, hpost, if_pos rfl]
        change _ = w.completes o t + _ + (w.postsFrom o).count t
        omega
      · have hexposed := hlane.exposed
        rw [hold, count_nil] at hexposed
        rw [hposted, hnew]
        change _ = w.waits t o + _
        omega
      · rw [hline]
        exact hlane.completes
      · rw [hline, hway]
        exact hlane.line
      · rw [hway]
        exact hlane.epoch
    · refine hlane.congr ?_ rfl rfl rfl ?_ rfl (by rw [hexposure t ht]) rfl rfl (hline o t) rfl
        (hback t o)
      · exact congrFun (upd_of_ne _ _ ht) o
      · rw [hpost, if_neg ht, Nat.add_zero]
  · have hexp := h.exposures t
    by_cases ht : t = p
    · subst ht
      refine ⟨?_, ?_, by rwa [hnew], hexp.unlocked⟩
      · simp only [hway]
        exact hexp.incoming
      · have hmsgs := hexp.completeMsgs
        rw [hold, hfrom] at hmsgs
        rw [hnew]
        change upd w.numCompleteMsgs t _ t = _ - (w.completesFrom t).length
        rw [upd_self, hmsgs, hfrom]
        rw [length_nil]
        omega
    · refine ⟨?_, ?_, ?_, hexp.unlocked⟩
      · simp only [hway]
        exact hexp.incoming
      · rw [hexposure t ht]
        change upd w.numCompleteMsgs p _ t = _
        rw [upd_of_ne _ _ ht]
        exact hexp.completeMsgs
      · rw [hexposure t ht]
        exact hexp.nodup
  · exact ⟨(h.accesses o).postMsgs, (h.accesses o).nodup, (h.accesses o).pending,
      (h.accesses o).call⟩

theorem Epochs.waited (p : P) : Epochs z (w.waited p) := by
  unfold World.waited
  split
  · exact h
  · next g hg =>
      split_ifs with hcond
      · obtain ⟨hin, hmsgs⟩ := hcond
        have hexp := h.exposures p
        have hold : w.exposure p = g := by
          unfold World.exposure
          rw [hg]
          rfl
        have hperm : (w.completesFrom p).Perm g := by
          have hlength := hexp.completeMsgs
          rw [hmsgs, hold] at hlength
          refine perm_of_subset (h.nodup_completesFrom p) ?_ (by omega)
          exact hold ▸ h.completesFrom_subset p
        have hdone : ∀ o, o ∈ w.completesFrom p → w.underWay o p = [] := by
          intro o ho
          have hincoming := hexp.incoming
          rw [hin] at hincoming
          have hsum : ((w.completesFrom p).map fun o => (w.underWay o p).length).sum = 0 := by
            exact_mod_cast hincoming.symm
          exact length_eq_zero_iff.mp
            (List.sum_eq_zero_iff_forall_eq_nat.mp hsum _ (mem_map_of_mem ho))
        show Epochs z (?after : World P)
        set w' : World P := ?after
        have hnew : w'.exposure p = [] := by
          unfold World.exposure
          change (upd w.pwGroup p none p).getD [] = []
          rw [upd_self]
          rfl
        have hexposure : ∀ t, t ≠ p → w'.exposure t = w.exposure t := by
          intro t ht
          unfold World.exposure
          change (upd w.pwGroup p none t).getD [] = _
          rw [upd_of_ne _ _ ht]
        have hfrom : w'.completesFrom p = [] := upd_self _ _ _
        refine ⟨fun o t => ?_, fun t => ?_, fun o => ?_⟩
        · have hlane := h.lanes o t
          by_cases ht : t = p
          · subst ht
            have hwaits : w'.waits t o = w.waits t o + g.count o := by
              change upd w.waits t _ t o = _
              have hnodup : g.Nodup := hold ▸ hexp.nodup
              rw [upd_self, hnodup.count]
              split_ifs <;> rfl
            refine ⟨hlane.posts, ?_, ?_, hlane.starts, ?_, hlane.epoch, hlane.back⟩
            · have hexposed := hlane.exposed
              rw [hold] at hexposed
              rw [hwaits, hnew, count_nil]
              exact hexposed
            · have hcompletes := hlane.completes
              rw [hperm.count_eq] at hcompletes
              rw [hwaits, hfrom, count_nil]
              change w.completes o t = _ + (w.line o t).countP Msg.isComplete + 0
              omega
            · refine hlane.line.imp_left ?_
              rintro ⟨ops, hops, hmem⟩
              exact ⟨ops, hops, fun hne => absurd (hdone o (hmem hne)) hne⟩
          · refine hlane.congr rfl rfl ?_ rfl rfl rfl (by rw [hexposure t ht]) rfl ?_ rfl rfl rfl
            · exact congrFun (upd_of_ne _ _ ht) o
            · exact congrArg (List.count o) (upd_of_ne _ _ ht)
        · have hexp := h.exposures t
          by_cases ht : t = p
          · subst ht
            refine ⟨?_, ?_, by simp [hnew], hexp.unlocked⟩
            · rw [hfrom]
              exact hin
            · rw [hfrom, hnew]
              exact hmsgs
          · have hsame : w'.completesFrom t = w.completesFrom t := upd_of_ne _ _ ht
            refine ⟨?_, ?_, ?_, hexp.unlocked⟩
            · rw [hsame]
              exact hexp.incoming
            · rw [hsame, hexposure t ht]
              exact hexp.completeMsgs
            · rw [hexposure t ht]
              exact hexp.nodup
        · exact ⟨(h.accesses o).postMsgs, (h.accesses o).nodup, (h.accesses o).pending,
            (h.accesses o).call⟩
      · exact h

theorem Epochs.perm_postsFrom {p : P} (hposts : w.numPostMsgs p = 0)
    (hsub : w.postsFrom p ⊆ w.access p) : (w.postsFrom p).Perm (w.access p) := by
  have hlength := (h.accesses p).postMsgs
  rw [hposts] at hlength
  exact perm_of_subset (h.nodup_postsFrom p) hsub (by omega)

theorem Epochs.line_nil {o t : P} (ht : t ∈ w.postsFrom o) :
    w.line o t = [] ∧ w.underWay o t = [] ∧ o ∉ w.completesFrom t := by
  obtain ⟨hcount, hone⟩ := (h.lanes o t).count_le (h.exposures t).nodup
  have hpos := count_pos_iff.mpr ht
  have hnot : o ∉ w.completesFrom t := count_eq_zero.mp (by omega)
  rcases (h.lanes o t).line with ⟨ops, hline, hmem⟩ | ⟨ops, hline, -⟩
  · have hway : w.underWay o t = [] := by
      by_contra hne
      exact hnot (hmem hne)
    refine ⟨?_, hway, hnot⟩
    have hflying := (append_eq_nil_iff.mp hway).1
    rw [flying_eq, hline, filterMap_op?_map] at hflying
    rw [hline, hflying]
    rfl
  · rw [hline, countP_cons_of_pos rfl] at hcount
    omega

theorem Epochs.announce {p : P} {g : List P} (order : List (Op P))
    (hg : w.access p = g) (hposts : w.numPostMsgs p = 0) (hsub : w.postsFrom p ⊆ g)
    (horder : order.Perm (w.pendingSendreqs p))
    (line : ∀ o t, w'.line o t = w.line o t ++ if o = p ∧ t ∈ g then
      .complete (order.filter fun r => r.target = t).length ::
        (order.filter fun r => r.target = t).map z.opMsg else [])
    (back : ∀ t o, w'.back t o = w.back t o) (begun : w'.landing = w.landing)
    (postsOn : ∀ t o, (w'.chan t o).countP Msg.isPost = (w.chan t o).countP Msg.isPost)
    (incoming : w'.numPendingIn = w.numPendingIn) (posts : w'.posts = w.posts)
    (waits : w'.waits = w.waits) (starts : w'.starts = w.starts)
    (completes : w'.completes = upd w.completes p fun t =>
      if t ∈ g then w.completes p t + 1 else w.completes p t)
    (postsFrom : w'.postsFrom = upd w.postsFrom p [])
    (completesFrom : w'.completesFrom = w.completesFrom) (pwGroup : w'.pwGroup = w.pwGroup)
    (scGroup : w'.scGroup = w.scGroup) (call : w'.call = upd w.call p .completing)
    (numPostMsgs : w'.numPostMsgs = w.numPostMsgs)
    (numCompleteMsgs : w'.numCompleteMsgs = w.numCompleteMsgs)
    (pending : w'.pendingSendreqs = upd w.pendingSendreqs p [])
    (status : w'.lockStatus = w.lockStatus) : Epochs z w' := by
  have hperm : (w.postsFrom p).Perm g := hg ▸ h.perm_postsFrom hposts (hg ▸ hsub)
  have hnodup : g.Nodup := hg ▸ (h.accesses p).nodup
  have hbegun : ∀ t o, w'.begun t o = w.begun t o := by
    intro t o
    simp only [World.begun, begun]
  have hexposure : ∀ t, w'.exposure t = w.exposure t := by
    intro t
    unfold exposure
    rw [pwGroup]
  have haccess : ∀ o, o ≠ p → w'.access o = w.access o := by
    intro o ho
    unfold access
    rw [call, scGroup, upd_of_ne _ _ ho]
  have hnew : w'.access p = [] := by
    unfold access
    rw [call, upd_self, if_pos rfl]
  have hlines : ∀ o t, ¬(o = p ∧ t ∈ g) → w'.line o t = w.line o t := by
    intro o t hne
    rw [line, if_neg hne, append_nil]
  have hways : ∀ o t, ¬(o = p ∧ t ∈ g) → w'.underWay o t = w.underWay o t := by
    intro o t hne
    unfold underWay
    rw [flying_eq, flying_eq, hlines o t hne, hbegun]
  refine ⟨fun o t => ?_, fun t => ?_, fun o => ?_⟩
  · have hlane := h.lanes o t
    by_cases ho : o = p
    · subst ho
      have hcompletes : w'.completes o t = w.completes o t + g.count t := by
        rw [completes, upd_self, hnodup.count]
        split_ifs <;> rfl
      have hposts' : w'.posts t o = w'.completes o t + (w'.chan t o).countP isPost +
          (w'.postsFrom o).count t := by
        have hold := hlane.posts
        rw [hperm.count_eq] at hold
        rw [posts, hcompletes, postsOn, postsFrom, upd_self, count_nil]
        omega
      have hexposed : w'.posts t o = w'.waits t o + (w'.exposure t).count o := by
        rw [posts, waits, hexposure]
        exact hlane.exposed
      have hstarts : w'.starts o t = w'.completes o t + (w'.access o).count t := by
        have hold := hlane.starts
        rw [hg] at hold
        rw [starts, hcompletes, hnew, count_nil]
        omega
      have hback : w'.back t o = [] := (back t o).trans hlane.back
      by_cases ht : t ∈ g
      · obtain ⟨hnil, hway, hnot⟩ := h.line_nil (hperm.mem_iff.mpr ht)
        have hline : w'.line o t = .complete (order.filter fun r => r.target = t).length ::
            (order.filter fun r => r.target = t).map z.opMsg := by
          rw [line, if_pos ⟨rfl, ht⟩, hnil]
          rfl
        have hnone : w'.begun t o = [] := (hbegun t o).trans (append_eq_nil_iff.mp hway).2
        refine ⟨hposts', hexposed, ?_, hstarts, .inr ⟨_, hline, hnone⟩, fun r hr => ?_, hback⟩
        · have hold := hlane.completes
          rw [hnil, countP_nil] at hold
          rw [hcompletes, waits, hline, completesFrom, countP_cons_of_pos rfl,
            countP_isComplete_map, hnodup.count, if_pos ht]
          omega
        · unfold underWay at hr
          rw [flying_eq, hline, filterMap_cons_none rfl, filterMap_op?_map, hnone,
            append_nil, mem_filter] at hr
          have htarget : r.target = t := of_decide_eq_true hr.2
          have hold := hlane.starts
          rw [hg] at hold
          rw [((h.accesses o).pending r (horder.mem_iff.mp hr.1)).2, htarget, hcompletes]
          exact hold
      · have hzero : g.count t = 0 := count_eq_zero.mpr ht
        have hout : ¬(o = o ∧ t ∈ g) := fun h => ht h.2
        rw [hzero, Nat.add_zero] at hcompletes
        refine ⟨hposts', hexposed, ?_, hstarts, ?_, ?_, hback⟩
        · rw [hcompletes, waits, hlines o t hout, completesFrom]
          exact hlane.completes
        · rw [hlines o t hout, hways o t hout, hbegun, completesFrom]
          exact hlane.line
        · rw [hways o t hout, hcompletes]
          exact hlane.epoch
    · refine hlane.congr (by rw [posts]) ?_ (by rw [waits]) (by rw [starts]) (postsOn t o) ?_
        (by rw [hexposure]) (by rw [haccess o ho]) (by rw [completesFrom])
        (hlines o t fun h => ho h.1) (hbegun t o) (back t o)
      · rw [completes, upd_of_ne _ _ ho]
      · rw [postsFrom, upd_of_ne _ _ ho]
  · have hexp := h.exposures t
    refine ⟨?_, ?_, ?_, ?_⟩
    · have hsum : (w.completesFrom t).map (fun o => (w'.underWay o t).length) =
          (w.completesFrom t).map fun o => (w.underWay o t).length := by
        refine map_congr_left fun o ho => ?_
        have hout : ¬(o = p ∧ t ∈ g) := by
          rintro ⟨rfl, ht⟩
          exact (h.line_nil (hperm.mem_iff.mpr ht)).2.2 ho
        rw [hways o t hout]
      rw [incoming, completesFrom, hsum]
      exact hexp.incoming
    · rw [numCompleteMsgs, hexposure, completesFrom]
      exact hexp.completeMsgs
    · rw [hexposure]
      exact hexp.nodup
    · rw [status]
      exact hexp.unlocked
  · have hacc := h.accesses o
    by_cases ho : o = p
    · subst ho
      refine ⟨?_, by simp [hnew], fun r hr => ?_, ?_⟩
      · rw [numPostMsgs, hnew, postsFrom, upd_self, hposts]
        rfl
      · rw [pending, upd_self] at hr
        cases hr
      · rw [call, upd_self]
        exact .inr rfl
    · refine ⟨?_, ?_, ?_, ?_⟩
      · rw [numPostMsgs, haccess o ho, postsFrom, upd_of_ne _ _ ho]
        exact hacc.postMsgs
      · rw [haccess o ho]
        exact hacc.nodup
      · rw [pending, upd_of_ne _ _ ho, haccess o ho, starts]
        exact hacc.pending
      · rw [call, upd_of_ne _ _ ho]
        exact hacc.call

theorem Epochs.complete (ht : Transfer z w) (hq : Queues w) {p : P} (order : List (Op P))
    (hearly : w.numPostMsgs p = 0 → ∀ g, w.scGroup p = some g → w.postsFrom p ⊆ g) :
    Epochs z (w.complete z p order) := by
  unfold World.complete
  split
  · exact h
  · next g hg =>
      simp only
      split
      · next hcall =>
          obtain ⟨hidle, hposts, hperm⟩ := hcall
          rw [isPerm_iff] at hperm
          have hstarted := ht.started_of_perm hperm
          rw [hq.copy_flipSendreqs hidle] at hperm
          have haccess : w.access p = g := by
            unfold access
            rw [hidle, if_neg (by simp), hg]
            rfl
          have hnodup : g.Nodup := haccess ▸ (h.accesses p).nodup
          have hcount : ∀ t, (w.flipSendreqs p).copyNumPendingSendreqs p t =
              (order.filter fun r => r.target = t).length := by
            intro t
            refine (congrFun (upd_self _ _ _) t).trans ?_
            rw [hq.counters]
            exact (hperm.filter _).length_eq.symm
          -- the requests are for members of the group
          have hmem : ∀ r ∈ order, r.target ∈ g := by
            intro r hr
            rw [← haccess]
            exact ((h.accesses p).pending r (hperm.mem_iff.mp hr)).1
          rw [if_pos hstarted]
          refine h.announce order haccess hposts (hearly hposts g hg) hperm (fun o t => ?_)
            (fun t o => ?_) ?_ (fun t o => ?_) ?_ ?_ ?_ ?_ ?_ ?_ ?_ ?_ ?_ ?_ ?_ ?_ ?_ ?_
          · rw [line_startSendreqs hstarted, line_emit]
            have hself : ((g.filter (· = t)).map fun t' => (Msg.complete
                ((w.flipSendreqs p).copyNumPendingSendreqs p t') : Msg P)).filter isRequest =
                if t ∈ g then [.complete (order.filter fun r => r.target = t).length] else [] := by
              rw [filter_eq, hnodup.count]
              split_ifs
              · rw [← hcount t]
                rfl
              · rfl
            rw [hself]
            change w.line o t ++ _ ++ _ = _
            by_cases ho : o = p
            · by_cases htg : t ∈ g
              · rw [if_pos ho, if_pos ho, if_pos htg, if_pos ⟨ho, htg⟩, append_assoc]
                rfl
              · have hnil : (order.filter fun r => r.target = t) = [] := by
                  refine filter_eq_nil_iff.mpr fun r hr => ?_
                  simp only [decide_eq_true_eq]
                  exact fun hrt => htg (hrt ▸ hmem r hr)
                rw [if_pos ho, if_pos ho, if_neg htg, if_neg fun h => htg h.2, hnil]
                simp
            · rw [if_neg ho, if_neg ho, if_neg fun h => ho h.1, append_nil]
          · rw [back_startSendreqs hstarted, back_emit]
            have hnil : ((g.filter (· = o)).map fun t' => (Msg.complete
                ((w.flipSendreqs p).copyNumPendingSendreqs p t') : Msg P)).filter isAnswer =
                [] := by
              simp [isAnswer]
            rw [hnil, ite_self, append_nil]
            rfl
          · rw [startSendreqs_eq hstarted]
            rfl
          · rw [countP_isPost_startSendreqs hstarted, countP_isPost_emit]
            · rfl
            · intro b
              rw [countP_map]
              simp [comp_def, isPost]
          all_goals rw [startSendreqs_eq hstarted]
          all_goals rfl
      · exact h

end

end Calls

end Ulfm.Osc
