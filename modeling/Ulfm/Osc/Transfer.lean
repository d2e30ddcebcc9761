import Mathlib.Data.List.TakeWhile
import Ulfm.Osc.Definitions

/-!
# No operation is lost or duplicated

An operation that has been issued is queued at its origin, on its way, begun at the
target or applied, and it is in one of these places once. A get that has been started
is held by its origin until the data of the reply are there. Both are kept by every
event, whatever the processes synchronise with, as long as the requests can be sent.
-/

namespace Ulfm.Osc

open List Function Msg Sizes Osc.World Option

section Messages

variable {P : Type}

def Msg.op? : Msg P → Option (Op P)
  | .op r _ => some r
  | _ => none

def Msg.reply? : Msg P → Option (Op P)
  | .reply r _ => some r
  | _ => none

def Msg.isData : Msg P → Bool
  | .op _ _ => true
  | .reply _ _ => true
  | _ => false

@[simp]
theorem Sizes.op?_opMsg (z : Sizes) (r : Op P) : (z.opMsg r).op? = some r := rfl

@[simp]
theorem Sizes.isData_opMsg (z : Sizes) (r : Op P) : (z.opMsg r).isData = true := rfl

@[simp]
theorem Sizes.isData_replyMsg (z : Sizes) (r : Op P) : (z.replyMsg r).isData = true := rfl

end Messages

variable {P : Type} [DecidableEq P]

/-- A request that `ompi_osc_pt2pt_sendreq_send` can start and the target can apply. -/
def Sizes.Sendable (z : Sizes) (r : Op P) : Prop :=
  z.Fits r ∧ (r.kind = .acc →
      (r.originBytes = 0 ∨ z.eager < z.sendHeader + r.ddtLen + r.originBytes) →
        r.primitive ≠ none ∧ r.primitive ≠ some 0)

instance (z : Sizes) (r : Op P) : Decidable (z.Sendable r) := inferInstanceAs (Decidable (_ ∧ _))

namespace World

variable (w : World P)

/-- The operations and replies on the way from one process to another. -/
def data (a b : P) : List (Msg P) := (w.chan a b).filter Msg.isData

/-- The requests that an origin has queued. -/
def queued (o : P) : List (Op P) := w.pendingSendreqs o ++ w.copyPendingSendreqs o

/-- The operations on the way to a target. -/
def flying (o t : P) : List (Op P) := (w.data o t).filterMap Msg.op?

def replies (t o : P) : List (Op P) := (w.data t o).filterMap Msg.reply?

/-- The operations of an origin that a target has begun. -/
def begun (t o : P) : List (Op P) :=
  (w.landing t).filterMap fun e => if e.1 = o then some e.2 else none

end World

/-- The places of the operations and of the gets. -/
structure Transfer (z : Sizes) (w : World P) : Prop where
  sendable : ∀ o, ∀ r ∈ w.queued o, z.Sendable r
  line : ∀ o t r n, Msg.op r n ∈ w.data o t → Msg.op r n = z.opMsg r ∧ z.Sendable r ∧ r.target = t
  answers : ∀ t o r n, Msg.reply r n ∈ w.data t o → r.kind = .get ∧ r.target = t
  landings : ∀ o, ∀ r ∈ w.replyLanding o, r.kind = .get
  places : ∀ o x, (w.issued o).count x =
    (w.queued o).count x + (w.flying o x.target).count x + (w.begun x.target o).count x +
      (w.applied x.target o).count x
  gets : ∀ o x, x.kind = .get → (w.sending o).count x =
    (w.flying o x.target).count x + (w.replies x.target o).count x + (w.replyLanding o).count x
  received : ∀ o x, x.kind = .get → (w.issued o).count x =
    (w.queued o).count x + (w.sending o).count x + (w.got o).count x

/-- The counters of the two queues, and when the second is empty. -/
structure Queues (w : World P) : Prop where
  counters : ∀ o t, w.numPendingSendreqs o t =
    ((w.pendingSendreqs o).filter fun r => r.target = t).length
  started : ∀ o, (∀ n, w.call o ≠ .reducing n) → w.copyPendingSendreqs o = []
  reducing : ∀ o n, w.call o = .reducing n → n = (w.copyPendingSendreqs o).length ∧
    ∀ t, w.copyNumPendingSendreqs o t =
      ((w.copyPendingSendreqs o).filter fun r => r.target = t).length

theorem Transfer.init (z : Sizes) : Transfer z (init : World P) := by
  constructor <;> intros <;> simp_all [Osc.init, data, queued, flying, begun, replies]

theorem Queues.init : Queues (init : World P) := by
  constructor <;> intros <;> simp_all [Osc.init]

/-- The places are the same in both states, up to the order of the queues. -/
structure SameData (w w' : World P) : Prop where
  queued : ∀ o, (w'.queued o).Perm (w.queued o)
  data : ∀ a b, w'.data a b = w.data a b
  landing : w'.landing = w.landing
  sending : w'.sending = w.sending
  replyLanding : w'.replyLanding = w.replyLanding
  issued : w'.issued = w.issued
  applied : w'.applied = w.applied
  got : w'.got = w.got

theorem Transfer.congr {z : Sizes} {w w' : World P} (h : Transfer z w) (s : SameData w w') :
    Transfer z w' := by
  have hflying : ∀ o t, w'.flying o t = w.flying o t := by
    intro o t
    simp only [flying, s.data]
  have hreplies : ∀ t o, w'.replies t o = w.replies t o := by
    intro t o
    simp only [replies, s.data]
  have hbegun : ∀ t o, w'.begun t o = w.begun t o := by
    intro t o
    simp only [begun, s.landing]
  constructor
  · intro o r hr
    exact h.sendable o r ((s.queued o).mem_iff.mp hr)
  · intro o t
    rw [s.data]
    exact h.line o t
  · intro t o
    rw [s.data]
    exact h.answers t o
  · rw [s.replyLanding]
    exact h.landings
  · intro o x
    rw [s.issued, s.applied, (s.queued o).count_eq, hflying, hbegun]
    exact h.places o x
  · intro o x
    rw [s.sending, s.replyLanding, hflying, hreplies]
    exact h.gets o x
  · intro o x
    rw [s.issued, s.sending, s.got, (s.queued o).count_eq]
    exact h.received o x

theorem World.data_emit (w : World P) (p : P) (out : P → List (Msg P)) (a b : P) :
    (w.emit p out).data a b =
      if a = p then w.data a b ++ (out b).filter Msg.isData else w.data a b := by
  unfold data emit
  simp only
  split_ifs <;> simp

theorem World.data_emit_control (w : World P) (p : P) {out : P → List (Msg P)}
    (h : ∀ b, ∀ m ∈ out b, m.isData = false) (a b : P) :
    (w.emit p out).data a b = w.data a b := by
  rw [data_emit]
  have hnil : (out b).filter isData = [] := by
    rw [filter_eq_nil_iff]
    intro m hm
    simp [h b m hm]
  split_ifs
  · rw [hnil, append_nil]
  · rfl

theorem only_control {q : P} {m : Msg P} (h : m.isData = false) :
    ∀ b, ∀ m' ∈ only q m b, m'.isData = false := by
  intro b m' hm'
  unfold only at hm'
  split_ifs at hm'
  · rw [mem_singleton] at hm'
    rwa [hm']
  · cases hm'

theorem map_control {l : List P} {f : P → Msg P} (h : ∀ t, (f t).isData = false) :
    ∀ b, ∀ m ∈ (l.filter (· = b)).map f, m.isData = false := by
  intro b m hm
  obtain ⟨t, -, rfl⟩ := mem_map.mp hm
  exact h t

section Control

omit [DecidableEq P] in
theorem SameData.refl (w : World P) : SameData w w := by
  constructor <;> intros <;> rfl

omit [DecidableEq P] in
theorem SameData.trans {w w' w'' : World P} (h : SameData w w') (h' : SameData w' w'') :
    SameData w w'' where
  queued := fun o => (h'.queued o).trans (h.queued o)
  data := fun a b => (h'.data a b).trans (h.data a b)
  landing := h'.landing.trans h.landing
  sending := h'.sending.trans h.sending
  replyLanding := h'.replyLanding.trans h.replyLanding
  issued := h'.issued.trans h.issued
  applied := h'.applied.trans h.applied
  got := h'.got.trans h.got

section

variable (w : World P)
include w

theorem SameData.emit (p : P) {out : P → List (Msg P)}
    (h : ∀ b, ∀ m ∈ out b, m.isData = false) : SameData w (w.emit p out) := by
  constructor
  case data => exact w.data_emit_control p h
  all_goals intros; rfl

theorem SameData.passiveUnlockComplete (p : P) : SameData w (w.passiveUnlockComplete p) := by
  unfold World.passiveUnlockComplete
  by_cases h : w.numPendingIn p ≠ 0
  · rw [if_pos h]
    exact SameData.refl w
  · rw [if_neg h]
    refine SameData.trans ?_ (SameData.emit _ p (map_control fun _ => rfl))
    constructor <;> intros <;> rfl

theorem SameData.grant (p : P) : SameData w (w.grant p) := by
  unfold World.grant
  simp only
  split_ifs
  · exact SameData.refl w
  · constructor <;> intros <;> rfl
  · split
    · constructor <;> intros <;> rfl
    · refine SameData.trans ?_ (SameData.emit _ p (only_control rfl))
      constructor <;> intros <;> rfl

theorem SameData.passiveLock (q p : P) (type : LockType) : SameData w (w.passiveLock q p type) := by
  unfold World.passiveLock
  cases type with
  | exclusive | shared =>
    simp only
    split_ifs
    · refine SameData.trans ?_ (SameData.emit _ p (only_control rfl))
      constructor <;> intros <;> rfl
    · constructor <;> intros <;> rfl

theorem SameData.passiveUnlock (q p : P) (count : ℕ) : SameData w (w.passiveUnlock q p count) := by
  refine SameData.trans ?_ (SameData.passiveUnlockComplete _ p)
  constructor <;> intros <;> rfl

theorem SameData.start (p : P) (group : List P) : SameData w (w.start p group) := by
  unfold World.start
  split_ifs <;> constructor <;> intros <;> rfl

theorem SameData.completed (p : P) : SameData w (w.completed p) := by
  unfold World.completed
  split_ifs <;> constructor <;> intros <;> rfl

theorem SameData.post (p : P) (group : List P) : SameData w (w.post p group) := by
  unfold World.post
  split_ifs
  · exact SameData.refl w
  · refine SameData.trans ?_ (SameData.emit _ p (map_control fun _ => rfl))
    constructor <;> intros <;> rfl

theorem SameData.waited (p : P) : SameData w (w.waited p) := by
  unfold World.waited
  split
  · exact SameData.refl w
  · split_ifs <;> constructor <;> intros <;> rfl

theorem SameData.lock (p target : P) (type : LockType) : SameData w (w.lock p target type) := by
  refine SameData.trans ?_ (SameData.emit _ p (only_control rfl))
  constructor <;> intros <;> rfl

theorem SameData.unlocked (p : P) : SameData w (w.unlocked p) := by
  unfold World.unlocked
  split_ifs <;> constructor <;> intros <;> rfl

theorem SameData.counted (p : P) : SameData w (w.counted p) := by
  unfold World.counted
  split <;> constructor <;> intros <;> rfl

theorem SameData.fenced (p : P) : SameData w (w.fenced p) := by
  unfold World.fenced
  split_ifs <;> constructor <;> intros <;> rfl

theorem SameData.inmsgMarkComplete (q p : P) (r : Op P) : SameData { w with
      applied := upd w.applied p (upd (w.applied p) q (r :: w.applied p q)) }
      (w.inmsgMarkComplete q p r) := by
  unfold World.inmsgMarkComplete
  simp only
  split_ifs
  · refine SameData.trans ?_ (SameData.passiveUnlockComplete _ p)
    constructor <;> intros <;> rfl
  · constructor <;> intros <;> rfl

end

end Control

section Counting

omit [DecidableEq P] in
theorem count_eraseIdx {α : Type} [DecidableEq α] {l : List α} {i : ℕ} {a : α}
    (h : l[i]? = some a) (x : α) : l.count x = (l.eraseIdx i).count x + [a].count x := by
  obtain ⟨hi, rfl⟩ := List.getElem?_eq_some_iff.mp h
  have hperm := getElem_cons_eraseIdx_perm hi
  rw [← hperm.count_eq x, count_cons, count_singleton]

omit [DecidableEq P] in
theorem count_filterMap_eraseIdx {α β : Type} [DecidableEq β] (f : α → Option β) {l : List α}
    {i : ℕ} {a : α} (h : l[i]? = some a) (x : β) :
    (l.filterMap f).count x = ((l.eraseIdx i).filterMap f).count x + (f a).toList.count x := by
  obtain ⟨hi, rfl⟩ := List.getElem?_eq_some_iff.mp h
  have hperm := (getElem_cons_eraseIdx_perm hi).filterMap f
  rw [← hperm.count_eq x]
  cases hf : f l[i] with
  | none => simp [hf]
  | some b => simp [hf, count_cons]

end Counting

section Deliver

variable {z : Sizes} {w : World P}

/-- The channel from `q` to `p` without its first message. -/
def World.pop (w : World P) (q p : P) : World P :=
  { w with chan := fun a b => if a = q ∧ b = p then (w.chan q p).tail else w.chan a b }

section

variable {q p : P} {m : Msg P} {rest : List (Msg P)} (h : w.chan q p = m :: rest)
include h

theorem World.deliver_eq : w.deliver z q p = (w.pop q p).fragment z q p m := by
  unfold deliver pop
  rw [h]
  rfl

theorem World.filter_pop (f : Msg P → Bool) (a b : P) :
    (w.chan a b).filter f = (if a = q ∧ b = p then if f m then [m] else [] else []) ++
      ((w.pop q p).chan a b).filter f := by
  unfold pop
  by_cases hab : a = q ∧ b = p
  · obtain ⟨rfl, rfl⟩ := hab
    simp only [and_self, if_true]
    rw [h, filter_cons]
    split_ifs <;> rfl
  · simp only [if_neg hab, nil_append]

theorem World.data_pop (a b : P) :
    w.data a b = (if a = q ∧ b = p then if m.isData then [m] else [] else []) ++
      (w.pop q p).data a b :=
  filter_pop h _ a b

theorem SameData.pop (hm : m.isData = false) : SameData w (w.pop q p) := by
  constructor
  case data =>
    intro a b
    rw [data_pop h a b, hm]
    simp
  all_goals intros; rfl

theorem World.flying_pop (a b : P) : w.flying a b =
      (if a = q ∧ b = p then m.op?.toList else []) ++ (w.pop q p).flying a b := by
  unfold flying
  rw [data_pop h a b, filterMap_append]
  congr 1
  by_cases hab : a = q ∧ b = p
  · rw [if_pos hab, if_pos hab]
    cases m <;> rfl
  · rw [if_neg hab, if_neg hab]
    rfl

theorem World.replies_pop (a b : P) : w.replies a b =
      (if a = q ∧ b = p then m.reply?.toList else []) ++ (w.pop q p).replies a b := by
  unfold replies
  rw [data_pop h a b, filterMap_append]
  congr 1
  by_cases hab : a = q ∧ b = p
  · rw [if_pos hab, if_pos hab]
    cases m <;> rfl
  · rw [if_neg hab, if_neg hab]
    rfl

end

theorem World.mem_data_of_pop {q p : P} {m m' : Msg P} {rest : List (Msg P)}
    (h : w.chan q p = m :: rest) {a b : P} (hm : m' ∈ (w.pop q p).data a b) : m' ∈ w.data a b := by
  rw [data_pop h a b]
  exact mem_append_right _ hm

section

variable (h : Transfer z w) {q p : P} {m : Msg P} {rest : List (Msg P)}
  (hc : w.chan q p = m :: rest) (o : P) (x : Op P)
include h hc o x

theorem Transfer.places_pop : (w.issued o).count x =
      (w.queued o).count x + ((w.pop q p).flying o x.target).count x +
        (w.begun x.target o).count x + (w.applied x.target o).count x +
          (if o = q ∧ x.target = p then m.op?.toList else []).count x := by
  have hplaces := h.places o x
  rw [flying_pop hc, count_append] at hplaces
  omega

theorem Transfer.gets_pop (hx : x.kind = .get) :
    (w.sending o).count x = ((w.pop q p).flying o x.target).count x +
      ((w.pop q p).replies x.target o).count x + (w.replyLanding o).count x +
        (if o = q ∧ x.target = p then m.op?.toList else []).count x +
          (if x.target = q ∧ o = p then m.reply?.toList else []).count x := by
  have hgets := h.gets o x hx
  rw [flying_pop hc, replies_pop hc, count_append, count_append] at hgets
  omega

end

section

variable (h : Transfer z w) {q p : P} {r : Op P} {n : ℕ} {rest : List (Msg P)}
  (hc : w.chan q p = .op r n :: rest) (hkind : r.kind ≠ .get)
include h hc hkind

theorem Transfer.gets_pop_op (o : P) (x : Op P) (hx : x.kind = .get) : (w.sending o).count x =
      ((w.pop q p).flying o x.target).count x + ((w.pop q p).replies x.target o).count x +
        (w.replyLanding o).count x := by
  have hgets := h.gets_pop hc o x hx
  have hzero : (if o = q ∧ x.target = p then (Msg.op r n).op?.toList else []).count x = 0 := by
    split_ifs
    · have hne : r ≠ x := fun h => hkind (h ▸ hx)
      simp [op?, hne]
    · rfl
  have hzero' :
      (if x.target = q ∧ o = p then (Msg.op r n).reply?.toList else []).count x = 0 := by
    split_ifs <;> rfl
  omega

theorem Transfer.arrive_applied : Transfer z { w.pop q p with
      applied := upd w.applied p (upd (w.applied p) q (r :: w.applied p q)) } := by
  constructor
  · exact h.sendable
  · intro o t x n hx
    exact h.line o t x n (mem_data_of_pop hc hx)
  · intro t o x n hx
    exact h.answers t o x n (mem_data_of_pop hc hx)
  · exact h.landings
  · intro o x
    have hplaces := h.places_pop hc o x
    have hcount : (upd w.applied p (upd (w.applied p) q (r :: w.applied p q)) x.target o).count x =
        (w.applied x.target o).count x +
          (if o = q ∧ x.target = p then (Msg.op r n).op?.toList else []).count x := by
      by_cases hp : x.target = p
      · by_cases hq : o = q
        · subst hp hq
          simp [op?, count_cons]
        · rw [hp, upd_self, upd_of_ne _ _ hq, if_neg fun h => hq h.1]
          rfl
      · rw [upd_of_ne _ _ hp, if_neg fun h => hp h.2]
        rfl
    change (w.issued o).count x = (w.queued o).count x + ((w.pop q p).flying o x.target).count x +
      (w.begun x.target o).count x +
        (upd w.applied p (upd (w.applied p) q (r :: w.applied p q)) x.target o).count x
    omega
  · exact h.gets_pop_op hc hkind
  · exact h.received

end

theorem World.count_begun_push (w : World P) (q p : P) (r : Op P) (o : P) (x : Op P) :
    (World.begun { w with landing := upd w.landing p (w.landing p ++ [(q, r)]) }
        x.target o).count x =
      (w.begun x.target o).count x + (if o = q ∧ x.target = p then [r] else []).count x := by
  unfold begun
  simp only
  by_cases hp : x.target = p
  · rw [hp, upd_self, filterMap_append, count_append]
    by_cases hq : q = o
    · simp [hq]
    · simp [hq, Ne.symm hq]
  · rw [upd_of_ne _ _ hp, if_neg fun h => hp h.2]
    rfl

theorem Transfer.arrive_begun (h : Transfer z w) {q p : P} {r : Op P} {n : ℕ}
    {rest : List (Msg P)} (hc : w.chan q p = .op r n :: rest) (hkind : r.kind ≠ .get) :
    Transfer z { w.pop q p with landing := upd w.landing p (w.landing p ++ [(q, r)]) } := by
  constructor
  · exact h.sendable
  · intro o t x n hx
    exact h.line o t x n (mem_data_of_pop hc hx)
  · intro t o x n hx
    exact h.answers t o x n (mem_data_of_pop hc hx)
  · exact h.landings
  · intro o x
    have hplaces := h.places_pop hc o x
    have hbegun := w.count_begun_push q p r o x
    change (w.issued o).count x = (w.queued o).count x + ((w.pop q p).flying o x.target).count x +
      (begun { w with landing := upd w.landing p (w.landing p ++ [(q, r)]) }
        x.target o).count x + (w.applied x.target o).count x
    simp only [op?, toList] at hplaces
    omega
  · exact h.gets_pop_op hc hkind
  · exact h.received

theorem World.data_emit_reply (w : World P) (q p : P) (r : Op P) (a b : P) :
    (w.emit p (only q (z.replyMsg r))).data a b =
      w.data a b ++ if b = q ∧ a = p then [z.replyMsg r] else [] := by
  rw [data_emit]
  by_cases ha : a = p
  · by_cases hb : b = q
    · simp [ha, hb, only]
    · simp [ha, hb, only]
  · simp [ha]

theorem World.flying_emit_reply (w : World P) (q p : P) (r : Op P) (a b : P) :
    (w.emit p (only q (z.replyMsg r))).flying a b = w.flying a b := by
  unfold flying
  rw [data_emit_reply, filterMap_append]
  split_ifs <;> simp [replyMsg, op?]

theorem World.replies_emit_reply (w : World P) (q p : P) (r : Op P) (a b : P) :
    (w.emit p (only q (z.replyMsg r))).replies a b =
      w.replies a b ++ if b = q ∧ a = p then [r] else [] := by
  unfold replies
  rw [data_emit_reply, filterMap_append]
  split_ifs <;> simp [replyMsg, reply?]

theorem Transfer.arrive_get (h : Transfer z w) {q p : P} {r : Op P} {n : ℕ}
    {rest : List (Msg P)} (hc : w.chan q p = .op r n :: rest) (hkind : r.kind = .get)
    (htarget : r.target = p) :
    Transfer z ({ w.pop q p with
      landing := upd w.landing p (w.landing p ++ [(q, r)]) }.emit p (only q (z.replyMsg r))) := by
  constructor
  · exact h.sendable
  · intro o t x n hx
    rw [data_emit_reply, mem_append] at hx
    rcases hx with hx | hx
    · exact h.line o t x n (mem_data_of_pop hc hx)
    · split_ifs at hx
      · cases mem_singleton.mp hx
      · cases hx
  · intro t o x n hx
    rw [data_emit_reply, mem_append] at hx
    rcases hx with hx | hx
    · exact h.answers t o x n (mem_data_of_pop hc hx)
    · split_ifs at hx with hto
      · cases mem_singleton.mp hx
        exact ⟨hkind, htarget.trans hto.2.symm⟩
      · cases hx
  · exact h.landings
  · intro o x
    have hplaces := h.places_pop hc o x
    have hbegun := w.count_begun_push q p r o x
    rw [flying_emit_reply]
    change (w.issued o).count x = (w.queued o).count x + ((w.pop q p).flying o x.target).count x +
      (begun { w with landing := upd w.landing p (w.landing p ++ [(q, r)]) }
        x.target o).count x + (w.applied x.target o).count x
    simp only [op?, toList] at hplaces
    omega
  · intro o x hx
    have hgets := h.gets_pop hc o x hx
    rw [flying_emit_reply, replies_emit_reply, count_append]
    change (w.sending o).count x = ((w.pop q p).flying o x.target).count x +
      (((w.pop q p).replies x.target o).count x + _) + (w.replyLanding o).count x
    simp only [op?, reply?, toList, ite_self, count_nil] at hgets
    omega
  · exact h.received

theorem count_erase_of_mem {l : List (Op P)} {r : Op P} (h : 0 < l.count r) (x : Op P) :
    (l.erase r).count x + [r].count x = l.count x := by
  rw [count_erase, count_singleton]
  by_cases hx : r = x
  · subst hx
    simp only [beq_self_eq_true, if_true]
    omega
  · simp [hx]

theorem Transfer.receive {w : World P} {p : P} {r : Op P} (hkind : r.kind = .get)
    (sendable : ∀ o, ∀ r ∈ w.queued o, z.Sendable r)
    (line : ∀ o t r n, Msg.op r n ∈ w.data o t →
      Msg.op r n = z.opMsg r ∧ z.Sendable r ∧ r.target = t)
    (answers : ∀ t o r n, Msg.reply r n ∈ w.data t o → r.kind = .get ∧ r.target = t)
    (landings : ∀ o, ∀ r ∈ w.replyLanding o, r.kind = .get)
    (places : ∀ o x, (w.issued o).count x =
      (w.queued o).count x + (w.flying o x.target).count x + (w.begun x.target o).count x +
        (w.applied x.target o).count x)
    (gets : ∀ o x, x.kind = .get → (w.sending o).count x =
      (w.flying o x.target).count x + (w.replies x.target o).count x +
        (w.replyLanding o).count x + (if o = p then [r] else []).count x)
    (received : ∀ o x, x.kind = .get → (w.issued o).count x =
      (w.queued o).count x + (w.sending o).count x + (w.got o).count x) :
    Transfer z { w with
      numPendingOut := upd w.numPendingOut p (w.numPendingOut p - 1)
      sending := upd w.sending p ((w.sending p).erase r)
      got := upd w.got p (r :: w.got p) } := by
  have hmem : 0 < (w.sending p).count r := by
    have := gets p r hkind
    simp only [if_true, count_singleton_self] at this
    omega
  refine ⟨sendable, line, answers, landings, places, fun o x hx => ?_, fun o x hx => ?_⟩
  · have hgets := gets o x hx
    by_cases ho : o = p
    · subst ho
      have hcount := count_erase_of_mem hmem x
      simp only [if_true] at hgets
      simp only [upd_self]
      change ((w.sending o).erase r).count x = (w.flying o x.target).count x +
        (w.replies x.target o).count x + (w.replyLanding o).count x
      omega
    · rw [if_neg ho, count_nil] at hgets
      simp only [upd_of_ne _ _ ho]
      exact hgets
  · have hreceived := received o x hx
    by_cases ho : o = p
    · subst ho
      have hcount := count_erase_of_mem hmem x
      simp only [upd_self]
      rw [show r :: w.got o = [r] ++ w.got o from rfl, count_append]
      change (w.issued o).count x = (w.queued o).count x + _ + _
      omega
    · simp only [upd_of_ne _ _ ho]
      exact hreceived

section

variable (h : Transfer z w) {q p : P} {r : Op P} {n : ℕ} {rest : List (Msg P)}
  (hc : w.chan q p = .reply r n :: rest)
include h hc

theorem Transfer.reply_spec : r.kind = .get ∧ r.target = q :=
  h.answers q p r n (by simp [data, hc, isData])

theorem Transfer.mem_sending_of_reply : r ∈ w.sending p := by
  obtain ⟨hkind, htarget⟩ := h.reply_spec hc
  have hgets := h.gets p r hkind
  have hmem : r ∈ w.replies r.target p := by
    rw [replies_pop hc, htarget, if_pos ⟨rfl, rfl⟩]
    exact mem_append_left _ mem_cons_self
  have hpos := count_pos_iff.mpr hmem
  exact count_pos_iff.mp (by omega)

end

theorem Transfer.mem_sending_of_landing (h : Transfer z w) {p : P} {r : Op P} {i : ℕ}
    (hi : (w.replyLanding p)[i]? = some r) : r ∈ w.sending p := by
  have hmem := mem_of_getElem? hi
  have hgets := h.gets p r (h.landings p r hmem)
  have hpos := count_pos_iff.mpr hmem
  exact count_pos_iff.mp (by omega)

section

variable (h : Transfer z w) {q p : P} {r : Op P} {n : ℕ} {rest : List (Msg P)}
  (hc : w.chan q p = .reply r n :: rest)
include h hc

theorem Transfer.places_pop_reply (o : P) (x : Op P) : (w.issued o).count x =
      (w.queued o).count x + ((w.pop q p).flying o x.target).count x +
        (w.begun x.target o).count x + (w.applied x.target o).count x := by
  have hplaces := h.places_pop hc o x
  simp only [op?, toList, ite_self, count_nil, Nat.add_zero] at hplaces
  exact hplaces

theorem Transfer.gets_pop_reply (o : P) (x : Op P) (hx : x.kind = .get) : (w.sending o).count x =
      ((w.pop q p).flying o x.target).count x + ((w.pop q p).replies x.target o).count x +
        (w.replyLanding o).count x + (if o = p then [r] else []).count x := by
  have hgets := h.gets_pop hc o x hx
  have htarget := (h.reply_spec hc).2
  simp only [op?, reply?, toList, ite_self, count_nil, Nat.add_zero] at hgets
  rw [hgets]
  congr 1
  by_cases ho : o = p
  · by_cases hx' : r = x
    · subst hx'
      rw [if_pos ⟨htarget, ho⟩, if_pos ho]
    · split_ifs <;> simp [hx']
  · rw [if_neg fun h => ho h.2, if_neg ho]

theorem Transfer.arrive_reply : Transfer z { w.pop q p with
      numPendingOut := upd w.numPendingOut p (w.numPendingOut p - 1)
      sending := upd w.sending p ((w.sending p).erase r)
      got := upd w.got p (r :: w.got p) } :=
  Transfer.receive (h.reply_spec hc).1 h.sendable
    (fun o t x n hx => h.line o t x n (mem_data_of_pop hc hx))
    (fun t o x n hx => h.answers t o x n (mem_data_of_pop hc hx)) h.landings
    (h.places_pop_reply hc) (h.gets_pop_reply hc) h.received

theorem Transfer.arrive_long_reply : Transfer z { w.pop q p with
      replyLanding := upd w.replyLanding p (w.replyLanding p ++ [r]) } := by
  refine ⟨h.sendable, fun o t x n hx => h.line o t x n (mem_data_of_pop hc hx),
    fun t o x n hx => h.answers t o x n (mem_data_of_pop hc hx), fun o x hx => ?_,
    h.places_pop_reply hc, fun o x hx => ?_, h.received⟩
  · by_cases ho : o = p
    · simp only [ho, upd_self, mem_append, mem_singleton] at hx
      rcases hx with hx | rfl
      · exact h.landings p x hx
      · exact (h.reply_spec hc).1
    · simp only [upd_of_ne _ _ ho] at hx
      exact h.landings o x hx
  · have hgets := h.gets_pop_reply hc o x hx
    change (w.sending o).count x = ((w.pop q p).flying o x.target).count x +
      ((w.pop q p).replies x.target o).count x +
        (upd w.replyLanding p (w.replyLanding p ++ [r]) o).count x
    by_cases ho : o = p
    · subst ho
      rw [upd_self, count_append]
      rw [if_pos rfl] at hgets
      omega
    · rw [upd_of_ne _ _ ho]
      rw [if_neg ho, count_nil] at hgets
      omega

end

theorem Transfer.recvOp_cases (h : Transfer z w) {q p : P} {r : Op P} {n : ℕ}
    {rest : List (Msg P)} (hc : w.chan q p = .op r n :: rest) :
    (r.kind ≠ .get ∧ (w.pop q p).recvOp z q p r n = (w.pop q p).inmsgMarkComplete q p r) ∨
    (r.kind ≠ .get ∧ (w.pop q p).recvOp z q p r n =
      { w.pop q p with landing := upd w.landing p (w.landing p ++ [(q, r)]) }) ∨
    (r.kind = .get ∧ r.target = p ∧ (w.pop q p).recvOp z q p r n = { w.pop q p with
        landing := upd w.landing p (w.landing p ++ [(q, r)]) }.emit p (only q (z.replyMsg r))) := by
  obtain ⟨hmsg, hsend, htarget⟩ := h.line q p r n (by simp [data, hc, isData])
  unfold recvOp
  cases hkind : r.kind with
  | put =>
    simp only
    split_ifs
    · exact .inl ⟨by simp, rfl⟩
    · exact .inr (.inl ⟨by simp, rfl⟩)
  | acc =>
    simp only
    split_ifs with hn hprim
    · exact .inl ⟨by simp, rfl⟩
    · -- a request that can be sent has a primitive type
      refine absurd hprim ?_
      have hlen : r.originBytes = 0 ∨ z.eager < z.sendHeader + r.ddtLen + r.originBytes := by
        have hne : r.kind ≠ .get := by simp [hkind]
        simp only [opMsg, if_neg hne, Msg.op.injEq, true_and] at hmsg
        split_ifs at hmsg <;> omega
      obtain ⟨h1, h2⟩ := hsend.2 hkind hlen
      rintro (h' | h')
      · exact h1 h'
      · exact h2 h'
    · exact .inr (.inl ⟨by simp, rfl⟩)
  | get => exact .inr (.inr ⟨rfl, htarget, rfl⟩)

theorem Transfer.deliver (h : Transfer z w) (q p : P) : Transfer z (w.deliver z q p) := by
  cases hc : w.chan q p with
  | nil =>
    unfold World.deliver
    rw [hc]
    exact h
  | cons m rest =>
    rw [World.deliver_eq hc]
    cases m with
    | op r n =>
      simp only [World.fragment]
      rcases h.recvOp_cases hc with ⟨hkind, heq⟩ | ⟨hkind, heq⟩ | ⟨hkind, htarget, heq⟩
      · rw [heq]
        exact (h.arrive_applied hc hkind).congr (SameData.inmsgMarkComplete _ q p r)
      · rw [heq]
        exact h.arrive_begun hc hkind
      · rw [heq]
        exact h.arrive_get hc hkind htarget
    | reply r n =>
      simp only [World.fragment, World.recvReply]
      split_ifs
      · exact h.arrive_reply hc
      · exact h.arrive_long_reply hc
    | post | lockAck | unlockReply =>
      exact h.congr ((SameData.pop hc rfl).trans (by constructor <;> intros <;> rfl))
    | complete n =>
      exact h.congr ((SameData.pop hc rfl).trans (by constructor <;> intros <;> rfl))
    | lockReq type => exact h.congr ((SameData.pop hc rfl).trans (SameData.passiveLock _ q p type))
    | unlockReq n => exact h.congr ((SameData.pop hc rfl).trans (SameData.passiveUnlock _ q p n))

end Deliver

section Calls

variable {z : Sizes} {w : World P}

theorem Transfer.issue (h : Transfer z w) (p : P) {r : Op P} (hr : z.Sendable r) :
    Transfer z (w.issue p r) := by
  unfold World.issue
  split_ifs
  · exact h
  · set r' : Op P := { r with access := w.starts p r.target, fence := w.fences p }
    have hqueued : ∀ o, (upd w.pendingSendreqs p (w.pendingSendreqs p ++ [r']) o ++
        w.copyPendingSendreqs o).Perm ((if o = p then [r'] else []) ++ w.queued o) := by
      intro o
      by_cases ho : o = p
      · subst ho
        rw [upd_self, if_pos rfl, List.append_assoc]
        exact perm_middle
      · rw [upd_of_ne _ _ ho, if_neg ho]
        rfl
    have hissued : ∀ o, upd w.issued p (r' :: w.issued p) o =
        (if o = p then [r'] else []) ++ w.issued o := by
      intro o
      by_cases ho : o = p
      · subst ho
        rw [upd_self, if_pos rfl]
        rfl
      · rw [upd_of_ne _ _ ho, if_neg ho]
        rfl
    refine ⟨fun o x hx => ?_, h.line, h.answers, h.landings, fun o x => ?_, h.gets,
      fun o x hx => ?_⟩
    · rcases mem_append.mp ((hqueued o).mem_iff.mp hx) with hx | hx
      · split_ifs at hx
        · rw [mem_singleton.mp hx]
          exact hr
        · cases hx
      · exact h.sendable o x hx
    · have hplaces := h.places o x
      simp only [World.queued]
      rw [hissued, (hqueued o).count_eq, count_append, count_append]
      change _ + (w.issued o).count x = _ + _ + (w.flying o x.target).count x +
        (w.begun x.target o).count x + (w.applied x.target o).count x
      omega
    · have hreceived := h.received o x hx
      simp only [World.queued]
      rw [hissued, (hqueued o).count_eq, count_append, count_append]
      omega

theorem Transfer.landed (h : Transfer z w) (p : P) (i : ℕ) : Transfer z (w.landed p i) := by
  unfold World.landed
  split
  · exact h
  · next q r hi =>
      refine Transfer.congr ?_ (SameData.inmsgMarkComplete _ q p r)
      refine ⟨h.sendable, h.line, h.answers, h.landings, fun o x => ?_, h.gets, h.received⟩
      have hplaces := h.places o x
      have hcount : (w.begun x.target o).count x + (w.applied x.target o).count x =
          (World.begun { w with landing := upd w.landing p ((w.landing p).eraseIdx i) }
            x.target o).count x +
          (upd w.applied p (upd (w.applied p) q (r :: w.applied p q)) x.target o).count x := by
        unfold World.begun
        simp only
        by_cases hp : x.target = p
        · rw [hp, upd_self, upd_self, count_filterMap_eraseIdx _ hi]
          by_cases hq : q = o
          · subst hq
            simp only [if_true, upd_self, Option.toList, count_cons, count_nil]
            omega
          · rw [upd_of_ne _ _ (Ne.symm hq)]
            simp only [if_neg hq, Option.toList, count_nil]
            omega
        · rw [upd_of_ne _ _ hp, upd_of_ne _ _ hp]
      change (w.issued o).count x = (w.queued o).count x + (w.flying o x.target).count x +
        (World.begun { w with landing := upd w.landing p ((w.landing p).eraseIdx i) }
          x.target o).count x +
        (upd w.applied p (upd (w.applied p) q (r :: w.applied p q)) x.target o).count x
      omega

theorem Transfer.replyLanded (h : Transfer z w) (p : P) (i : ℕ) :
    Transfer z (w.replyLanded p i) := by
  unfold World.replyLanded
  split
  · exact h
  · next r hi =>
      have hkind : r.kind = .get := h.landings p r (mem_of_getElem? hi)
      have hreceive := Transfer.receive
        (w := { w with
          replyLanding := upd w.replyLanding p ((w.replyLanding p).eraseIdx i) }) (p := p) hkind
        h.sendable h.line h.answers ?_ h.places ?_ h.received
      · exact hreceive
      · intro o x hx
        by_cases ho : o = p
        · subst ho
          simp only [upd_self] at hx
          exact h.landings o x ((eraseIdx_sublist _ _).subset hx)
        · simp only [upd_of_ne _ _ ho] at hx
          exact h.landings o x hx
      · intro o x hx
        have hgets := h.gets o x hx
        by_cases ho : o = p
        · subst ho
          rw [count_eraseIdx hi] at hgets
          simp only [upd_self, if_true]
          change (w.sending o).count x = (w.flying o x.target).count x +
            (w.replies x.target o).count x + _ + _
          omega
        · simp only [upd_of_ne _ _ ho, if_neg ho, count_nil, Nat.add_zero]
          exact hgets

theorem Transfer.sent (h : Transfer z w) (p : P) (i : ℕ) : Transfer z (w.sent p i) := by
  unfold World.sent
  split
  · exact h
  · next r hi =>
      split_ifs with hkind
      · exact h
      · have hcount : ∀ o x, x.kind = .get →
            (upd w.sending p ((w.sending p).eraseIdx i) o).count x = (w.sending o).count x := by
          intro o x hx
          by_cases ho : o = p
          · subst ho
            have hne : r ≠ x := fun h => hkind (h ▸ hx)
            rw [upd_self, count_eraseIdx hi, count_singleton]
            simp [hne]
          · rw [upd_of_ne _ _ ho]
        refine ⟨h.sendable, h.line, h.answers, h.landings, h.places, fun o x hx => ?_,
          fun o x hx => ?_⟩
        · exact (hcount o x hx).trans (h.gets o x hx)
        · have hreceived := h.received o x hx
          rw [← hcount o x hx] at hreceived
          exact hreceived

theorem SameData.flipSendreqs (w : World P) (p : P) : SameData w (w.flipSendreqs p) := by
  constructor
  case queued =>
    intro o
    unfold World.queued World.flipSendreqs
    by_cases ho : o = p
    · subst ho
      simp only [upd_self, nil_append]
      exact perm_append_comm
    · simp only [upd_of_ne _ _ ho]
      rfl
  all_goals intros; rfl

theorem World.startSendreqs_eq {p : P} {order : List (Op P)} (h : Started z order) :
    w.startSendreqs z p order = { w with
        copyPendingSendreqs := upd w.copyPendingSendreqs p []
        lost := upd w.lost p (w.lost p)
        sending := upd w.sending p (w.sending p ++ order) }.emit p
        fun b => (order.filter fun r : Op P => r.target = b).map z.opMsg := by
  have htake : (order.takeWhile fun r => decide (z.Fits r)) = order := by
    rw [takeWhile_eq_self_iff]
    intro r hr
    exact decide_eq_true (h r hr)
  have hdrop : (order.dropWhile fun r => decide (z.Fits r)) = [] := by
    rw [dropWhile_eq_nil_iff]
    intro r hr
    exact decide_eq_true (h r hr)
  simp only [startSendreqs, htake, hdrop]
  rfl

omit [DecidableEq P] in
theorem filter_isData_map_opMsg (l : List (Op P)) :
    (l.map z.opMsg).filter Msg.isData = l.map z.opMsg := by
  rw [filter_eq_self]
  intro m hm
  obtain ⟨r, -, rfl⟩ := mem_map.mp hm
  rfl

section

variable {p : P} {order : List (Op P)} (h : Started z order)
include h

theorem World.data_startSendreqs (a b : P) : (w.startSendreqs z p order).data a b = w.data a b ++
      if a = p then (order.filter fun r => r.target = b).map z.opMsg else [] := by
  rw [startSendreqs_eq h, data_emit, filter_isData_map_opMsg]
  change (if a = p then w.data a b ++ _ else w.data a b) = _
  split_ifs
  · rfl
  · rw [append_nil]

theorem World.flying_startSendreqs (a b : P) :
    (w.startSendreqs z p order).flying a b = w.flying a b ++
      if a = p then order.filter fun r => r.target = b else [] := by
  unfold flying
  rw [data_startSendreqs h, filterMap_append]
  congr 1
  split_ifs
  · rw [filterMap_map]
    exact filterMap_some
  · rfl

theorem World.replies_startSendreqs (a b : P) :
    (w.startSendreqs z p order).replies a b = w.replies a b := by
  unfold replies
  rw [data_startSendreqs h, filterMap_append]
  split_ifs
  · rw [filterMap_map]
    simp [comp_def, opMsg, reply?]
  · simp

theorem World.queued_startSendreqs (o : P) : (w.startSendreqs z p order).queued o =
      w.pendingSendreqs o ++ if o = p then [] else w.copyPendingSendreqs o := by
  rw [startSendreqs_eq h]
  rfl

theorem World.count_queued_startSendreqs
    (horder : order.Perm (w.copyPendingSendreqs p)) (o : P) (x : Op P) :
    (w.queued o).count x = ((w.startSendreqs z p order).queued o).count x +
      (if o = p then order.filter fun r => r.target = x.target else []).count x := by
  rw [queued_startSendreqs h, queued, count_append, count_append]
  by_cases ho : o = p
  · rw [if_pos ho, if_pos ho, count_filter (by simp), ho, horder.count_eq]
    simp
  · rw [if_neg ho, if_neg ho]
    simp

end

theorem Transfer.startSendreqs (h : Transfer z w) {p : P} {order : List (Op P)}
    (horder : order.Perm (w.copyPendingSendreqs p)) :
    Transfer z (w.startSendreqs z p order) := by
  have hsend : ∀ r ∈ order, z.Sendable r := by
    intro r hr
    exact h.sendable p r (mem_append_right _ (horder.mem_iff.mp hr))
  have hfits : Started z order := fun r hr => (hsend r hr).1
  have hsending : ∀ o, (w.startSendreqs z p order).sending o =
      w.sending o ++ if o = p then order else [] := by
    intro o
    rw [startSendreqs_eq hfits]
    change upd w.sending p (w.sending p ++ order) o = _
    by_cases ho : o = p
    · rw [ho, upd_self, if_pos rfl]
    · rw [upd_of_ne _ _ ho, if_neg ho, append_nil]
  refine ⟨fun o r hr => ?_, fun o t r n hr => ?_, fun t o r n hr => ?_, h.landings,
    fun o x => ?_, fun o x hx => ?_, fun o x hx => ?_⟩
  · rw [queued_startSendreqs hfits, mem_append] at hr
    refine h.sendable o r (mem_append.mpr (hr.imp_right fun hr => ?_))
    split_ifs at hr
    · cases hr
    · exact hr
  · rw [data_startSendreqs hfits, mem_append] at hr
    rcases hr with hr | hr
    · exact h.line o t r n hr
    · split_ifs at hr
      · obtain ⟨r', hr', heq⟩ := mem_map.mp hr
        obtain ⟨hmem, htarget⟩ := mem_filter.mp hr'
        obtain rfl : r' = r := by
          simp only [opMsg, Msg.op.injEq] at heq
          exact heq.1
        exact ⟨heq.symm, hsend r' hmem, of_decide_eq_true htarget⟩
      · cases hr
  · rw [data_startSendreqs hfits, mem_append] at hr
    rcases hr with hr | hr
    · exact h.answers t o r n hr
    · split_ifs at hr
      · obtain ⟨r', -, heq⟩ := mem_map.mp hr
        cases heq
      · cases hr
  · have hplaces := h.places o x
    rw [count_queued_startSendreqs hfits horder] at hplaces
    rw [flying_startSendreqs hfits, count_append]
    change (w.issued o).count x = _ + _ + (w.begun x.target o).count x +
      (w.applied x.target o).count x
    omega
  · have hgets := h.gets o x hx
    rw [flying_startSendreqs hfits, replies_startSendreqs hfits, hsending,
      count_append, count_append]
    change _ = _ + (w.replies x.target o).count x + (w.replyLanding o).count x
    split_ifs
    · rw [count_filter (by simp)]
      omega
    · simp only [count_nil]
      omega
  · have hreceived := h.received o x hx
    rw [count_queued_startSendreqs hfits horder] at hreceived
    rw [hsending, count_append]
    change (w.issued o).count x = _ + _ + (w.got o).count x
    split_ifs at hreceived ⊢
    · rw [count_filter (by simp)] at hreceived
      omega
    · simp only [count_nil] at hreceived ⊢
      omega

theorem Transfer.complete (h : Transfer z w) (p : P) (order : List (Op P)) :
    Transfer z (w.complete z p order) := by
  unfold World.complete
  split
  · exact h
  · simp only
    split
    · next hcall =>
        refine Transfer.startSendreqs (h.congr ?_) (isPerm_iff.mp hcall.2.2)
        refine (SameData.flipSendreqs w p).trans (SameData.trans ?_
          (SameData.emit _ p (map_control fun _ => rfl)))
        constructor <;> intros <;> rfl
    · exact h

theorem Transfer.unlock (h : Transfer z w) (p target : P) (order : List (Op P)) :
    Transfer z (w.unlock z p target order) := by
  unfold World.unlock
  simp only
  split
  · next hcall =>
      refine Transfer.startSendreqs (h.congr ?_) (isPerm_iff.mp hcall.2.2)
      refine (SameData.flipSendreqs w p).trans (SameData.trans ?_
        (SameData.emit _ p (only_control rfl)))
      constructor <;> intros <;> rfl
  · exact h

theorem Transfer.fence (h : Transfer z w) (p : P) : Transfer z (w.fence p) := by
  unfold World.fence
  split_ifs
  · exact h
  · refine h.congr ((SameData.flipSendreqs w p).trans ?_)
    constructor <;> intros <;> rfl

theorem SameData.fenceFailed (w : World P) (p : P) : SameData w (w.fenceFailed p) := by
  unfold World.fenceFailed
  split
  · constructor
    case queued =>
      intro o
      unfold World.queued
      by_cases ho : o = p
      · subst ho
        simp only [upd_self, List.append_nil]
        rfl
      · simp only [upd_of_ne _ _ ho]
        rfl
    all_goals intros; rfl
  · exact SameData.refl w

theorem Transfer.reduced [Fintype P] (h : Transfer z w) (p : P) (order : List (Op P)) :
    Transfer z (w.reduced z p order) := by
  unfold World.reduced
  split
  · split
    · next hcall =>
        refine Transfer.startSendreqs (h.congr ?_) (isPerm_iff.mp hcall.2)
        constructor <;> intros <;> rfl
    · exact h
  · exact h

/-- The operations that an event issues can be sent. -/
def Event.Sendable (z : Sizes) : Event P → Prop
  | .issue _ r => z.Sendable r
  | _ => True

instance (e : Event P) : Decidable (e.Sendable z) :=
  match e with
  | .issue _ r => inferInstanceAs (Decidable (z.Sendable r))
  | .deliver _ _ | .landed _ _ | .replyLanded _ _ | .sent _ _ | .grant _ | .start _ _
  | .complete _ _ | .completed _ | .post _ _ | .waited _ | .lock _ _ _ | .unlock _ _ _
  | .unlocked _ | .fence _ | .fenceFailed _ | .reduced _ _ | .counted _ | .fenced _ =>
    isTrue trivial

theorem Transfer.step [Fintype P] (h : Transfer z w) {e : Event P} (he : e.Sendable z) :
    Transfer z (step z w e) := by
  cases e with
  | issue p r => exact h.issue p he
  | deliver q p => exact h.deliver q p
  | landed p i => exact h.landed p i
  | replyLanded p i => exact h.replyLanded p i
  | sent p i => exact h.sent p i
  | grant p => exact h.congr (SameData.grant w p)
  | start p group => exact h.congr (SameData.start w p group)
  | complete p order => exact h.complete p order
  | completed p => exact h.congr (SameData.completed w p)
  | post p group => exact h.congr (SameData.post w p group)
  | waited p => exact h.congr (SameData.waited w p)
  | lock p target type => exact h.congr (SameData.lock w p target type)
  | unlock p target order => exact h.unlock p target order
  | unlocked p => exact h.congr (SameData.unlocked w p)
  | fence p => exact h.fence p
  | fenceFailed p => exact h.congr (SameData.fenceFailed w p)
  | reduced p order => exact h.reduced p order
  | counted p => exact h.congr (SameData.counted w p)
  | fenced p => exact h.congr (SameData.fenced w p)

end Calls

section Applied

variable {z : Sizes} {w : World P}

end Applied

section Queues

/-- The queues are the same in both states, and the same processes are in a reduction. -/
structure SameQueues (w w' : World P) : Prop where
  pending : w'.pendingSendreqs = w.pendingSendreqs
  copy : w'.copyPendingSendreqs = w.copyPendingSendreqs
  num : w'.numPendingSendreqs = w.numPendingSendreqs
  copyNum : w'.copyNumPendingSendreqs = w.copyNumPendingSendreqs
  call : ∀ o n, w'.call o = .reducing n ↔ w.call o = .reducing n

theorem Queues.congr {w w' : World P} (h : Queues w) (s : SameQueues w w') : Queues w' := by
  constructor
  · rw [s.num, s.pending]
    exact h.counters
  · intro o hcall
    rw [s.copy]
    exact h.started o fun n hn => hcall n ((s.call o n).mpr hn)
  · intro o n hn
    rw [s.copy, s.copyNum]
    exact h.reducing o n ((s.call o n).mp hn)

omit [DecidableEq P] in
theorem SameQueues.refl (w : World P) : SameQueues w w := ⟨rfl, rfl, rfl, rfl, fun _ _ => Iff.rfl⟩

omit [DecidableEq P] in
theorem SameQueues.trans {w w' w'' : World P} (h : SameQueues w w') (h' : SameQueues w' w'') :
    SameQueues w w'' where
  pending := h'.pending.trans h.pending
  copy := h'.copy.trans h.copy
  num := h'.num.trans h.num
  copyNum := h'.copyNum.trans h.copyNum
  call := fun o n => (h'.call o n).trans (h.call o n)

theorem SameQueues.passiveUnlockComplete (w : World P) (p : P) :
    SameQueues w (w.passiveUnlockComplete p) := by
  unfold World.passiveUnlockComplete
  split_ifs <;> exact ⟨rfl, rfl, rfl, rfl, fun _ _ => Iff.rfl⟩

theorem SameQueues.inmsgMarkComplete (w : World P) (q p : P) (r : Op P) :
    SameQueues w (w.inmsgMarkComplete q p r) := by
  unfold World.inmsgMarkComplete
  simp only
  split_ifs
  · refine SameQueues.trans ?_ (SameQueues.passiveUnlockComplete _ p)
    exact ⟨rfl, rfl, rfl, rfl, fun _ _ => Iff.rfl⟩
  · exact ⟨rfl, rfl, rfl, rfl, fun _ _ => Iff.rfl⟩

theorem SameQueues.fragment (z : Sizes) (w : World P) (q p : P) (m : Msg P) :
    SameQueues w (w.fragment z q p m) := by
  cases m with
  | op r n =>
    simp only [World.fragment, World.recvOp]
    cases r.kind with
    | put =>
      simp only
      split_ifs
      · exact SameQueues.inmsgMarkComplete w q p r
      · exact ⟨rfl, rfl, rfl, rfl, fun _ _ => Iff.rfl⟩
    | acc =>
      simp only
      split_ifs
      · exact SameQueues.inmsgMarkComplete w q p r
      · exact ⟨rfl, rfl, rfl, rfl, fun _ _ => Iff.rfl⟩
      · exact ⟨rfl, rfl, rfl, rfl, fun _ _ => Iff.rfl⟩
    | get => exact ⟨rfl, rfl, rfl, rfl, fun _ _ => Iff.rfl⟩
  | reply r n =>
    simp only [World.fragment, World.recvReply]
    split_ifs <;> exact ⟨rfl, rfl, rfl, rfl, fun _ _ => Iff.rfl⟩
  | lockReq type =>
    simp only [World.fragment, World.passiveLock]
    cases type <;> simp only <;> split_ifs <;> exact ⟨rfl, rfl, rfl, rfl, fun _ _ => Iff.rfl⟩
  | unlockReq n =>
    refine SameQueues.trans ?_ (SameQueues.passiveUnlockComplete _ p)
    exact ⟨rfl, rfl, rfl, rfl, fun _ _ => Iff.rfl⟩
  | post | complete n | lockAck | unlockReply => exact ⟨rfl, rfl, rfl, rfl, fun _ _ => Iff.rfl⟩

theorem SameQueues.deliver (z : Sizes) (w : World P) (q p : P) :
    SameQueues w (w.deliver z q p) := by
  cases hc : w.chan q p with
  | nil =>
    unfold World.deliver
    rw [hc]
    exact SameQueues.refl w
  | cons m rest =>
    rw [World.deliver_eq hc]
    refine SameQueues.trans ?_ (SameQueues.fragment z (w.pop q p) q p m)
    exact ⟨rfl, rfl, rfl, rfl, fun _ _ => Iff.rfl⟩

variable {z : Sizes} {w : World P}

theorem Queues.issue (h : Queues w) (p : P) (r : Op P) : Queues (w.issue p r) := by
  unfold World.issue
  split_ifs
  · exact h
  · refine ⟨fun o t => ?_, h.started, h.reducing⟩
    simp only
    by_cases ho : o = p
    · subst ho
      have hcounters := h.counters o t
      rw [upd_self, upd_self, filter_append, length_append, ← hcounters]
      by_cases ht : t = r.target
      · subst ht
        simp
      · rw [upd_of_ne _ _ ht]
        simp [Ne.symm ht]
    · rw [upd_of_ne _ _ ho, upd_of_ne _ _ ho]
      exact h.counters o t

theorem Queues.copy_flipSendreqs (h : Queues w) {p : P} (hcall : w.call p = .idle) :
    (w.flipSendreqs p).copyPendingSendreqs p = w.pendingSendreqs p := by
  have hnil : w.copyPendingSendreqs p = [] := h.started p (by simp [hcall])
  unfold flipSendreqs
  simp only [upd_self, hnil, nil_append]

theorem Queues.start (h : Queues w) {p : P} {w' : World P} {c : Call} (hc : ∀ n, c ≠ .reducing n)
    (pending : w'.pendingSendreqs = upd w.pendingSendreqs p [])
    (copy : w'.copyPendingSendreqs = upd w.copyPendingSendreqs p [])
    (num : w'.numPendingSendreqs = upd w.numPendingSendreqs p fun _ => 0)
    (copyNum : ∀ o, o ≠ p → w'.copyNumPendingSendreqs o = w.copyNumPendingSendreqs o)
    (call : w'.call = upd w.call p c) : Queues w' := by
  constructor
  · intro o t
    rw [num, pending]
    by_cases ho : o = p
    · rw [ho, upd_self, upd_self]
      rfl
    · rw [upd_of_ne _ _ ho, upd_of_ne _ _ ho]
      exact h.counters o t
  · intro o hcall
    rw [copy]
    by_cases ho : o = p
    · rw [ho, upd_self]
    · rw [call, upd_of_ne _ _ ho] at hcall
      rw [upd_of_ne _ _ ho]
      exact h.started o hcall
  · intro o n hn
    rw [call] at hn
    by_cases ho : o = p
    · rw [ho, upd_self] at hn
      exact absurd hn (hc n)
    · rw [upd_of_ne _ _ ho] at hn
      rw [copy, copyNum o ho, upd_of_ne _ _ ho]
      exact h.reducing o n hn

theorem upd_upd {α : Type} (f : P → α) (p : P) (u v : α) : upd (upd f p u) p v = upd f p v := by
  funext q
  unfold upd
  split_ifs <;> rfl

theorem Transfer.started_of_perm (h : Transfer z w) {p : P} {order : List (Op P)}
    (horder : order.Perm ((w.flipSendreqs p).copyPendingSendreqs p)) : Started z order := by
  intro r hr
  have hflip := h.congr (SameData.flipSendreqs w p)
  exact (hflip.sendable p r (mem_append_right _ (horder.mem_iff.mp hr))).1

theorem Queues.complete (h : Queues w) (ht : Transfer z w) (p : P) (order : List (Op P)) :
    Queues (w.complete z p order) := by
  unfold World.complete
  split
  · exact h
  · simp only
    split
    · next hcall =>
        have hperm := isPerm_iff.mp hcall.2.2
        have hstarted := ht.started_of_perm hperm
        rw [startSendreqs_eq hstarted, if_pos hstarted]
        refine h.start (c := .completing) (p := p) (by simp) rfl ?_ rfl ?_ rfl
        · exact upd_upd _ _ _ _
        · intro o ho
          exact upd_of_ne _ _ ho
    · exact h

theorem Queues.unlock (h : Queues w) (ht : Transfer z w) (p target : P) (order : List (Op P)) :
    Queues (w.unlock z p target order) := by
  unfold World.unlock
  simp only
  split
  · next hcall =>
      have hperm := isPerm_iff.mp hcall.2.2
      have hstarted := ht.started_of_perm hperm
      rw [World.startSendreqs_eq hstarted, if_pos hstarted]
      refine h.start (c := .unlocking) (p := p) (by simp) rfl ?_ rfl ?_ rfl
      · exact upd_upd _ _ _ _
      · intro o ho
        exact upd_of_ne _ _ ho
  · exact h

theorem Queues.reduced [Fintype P] (h : Queues w) (ht : Transfer z w) (p : P)
    (order : List (Op P)) : Queues (w.reduced z p order) := by
  unfold World.reduced
  split
  · split
    · next outgoing _ hcall =>
        have hperm := isPerm_iff.mp hcall.2
        have hstarted : Started z order := fun r hr =>
          (ht.sendable p r (mem_append_right _ (hperm.mem_iff.mp hr))).1
        rw [World.startSendreqs_eq hstarted, if_pos hstarted]
        set c : Call := .counting (∑ q, w.contribution (w.fences p) q p) outgoing
        constructor
        · exact h.counters
        · intro o ho
          change upd w.copyPendingSendreqs p [] o = []
          by_cases hp : o = p
          · rw [hp, upd_self]
          · rw [upd_of_ne _ _ hp]
            refine h.started o fun n hn => ho n ?_
            change upd w.call p c o = _
            rw [upd_of_ne _ _ hp, hn]
        · intro o n hn
          change upd w.call p c o = _ at hn
          by_cases hp : o = p
          · rw [hp, upd_self] at hn
            exact Call.noConfusion hn
          · rw [upd_of_ne _ _ hp] at hn
            change n = (upd w.copyPendingSendreqs p [] o).length ∧
              ∀ t, w.copyNumPendingSendreqs o t =
                ((upd w.copyPendingSendreqs p [] o).filter fun r => r.target = t).length
            rw [upd_of_ne _ _ hp]
            exact h.reducing o n hn
    · exact h
  · exact h

theorem Queues.fence (h : Queues w) (p : P) : Queues (w.fence p) := by
  unfold World.fence
  split_ifs with hcall
  · exact h
  · have hnil : w.copyPendingSendreqs p = [] := h.started p (by simp [not_not.mp hcall])
    constructor
    · intro o t
      change upd w.numPendingSendreqs p (fun _ => 0) o t =
        ((upd w.pendingSendreqs p [] o).filter fun r => r.target = t).length
      by_cases ho : o = p
      · rw [ho, upd_self, upd_self]
        rfl
      · rw [upd_of_ne _ _ ho, upd_of_ne _ _ ho]
        exact h.counters o t
    · intro o ho
      by_cases hp : o = p
      · subst hp
        exact absurd (upd_self _ _ _) (ho _)
      · change upd w.copyPendingSendreqs p (w.copyPendingSendreqs p ++ w.pendingSendreqs p) o = []
        rw [upd_of_ne _ _ hp]
        refine h.started o fun n hn => ho n ?_
        exact (upd_of_ne _ _ hp).trans hn
    · intro o n hn
      by_cases hp : o = p
      · subst hp
        simp only [World.flipSendreqs, upd_self, Call.reducing.injEq, hnil, nil_append] at hn ⊢
        exact ⟨hn.symm, h.counters o⟩
      · simp only [World.flipSendreqs, upd_of_ne _ _ hp] at hn ⊢
        exact h.reducing o n hn

theorem Queues.fenceFailed (h : Queues w) (p : P) : Queues (w.fenceFailed p) := by
  unfold World.fenceFailed
  split
  · next n hcall =>
      obtain ⟨-, hcopy⟩ := h.reducing p n hcall
      constructor
      · intro o t
        simp only
        by_cases ho : o = p
        · subst ho
          rw [upd_self, upd_self, filter_append, length_append, hcopy, h.counters]
        · rw [upd_of_ne _ _ ho, upd_of_ne _ _ ho]
          exact h.counters o t
      · intro o ho
        simp only at ho ⊢
        by_cases hp : o = p
        · rw [hp, upd_self]
        · rw [upd_of_ne _ _ hp]
          simp only [upd_of_ne _ _ hp] at ho
          exact h.started o ho
      · intro o n hn
        simp only at hn ⊢
        by_cases hp : o = p
        · rw [hp, upd_self] at hn
          cases hn
        · rw [upd_of_ne _ _ hp] at hn ⊢
          exact h.reducing o n hn
  · exact h

theorem SameQueues.endCall {w' : World P} {p : P} {c : Call} (hold : ∀ n, w.call p ≠ .reducing n)
    (hc : ∀ n, c ≠ .reducing n) (pending : w'.pendingSendreqs = w.pendingSendreqs)
    (copy : w'.copyPendingSendreqs = w.copyPendingSendreqs)
    (num : w'.numPendingSendreqs = w.numPendingSendreqs)
    (copyNum : w'.copyNumPendingSendreqs = w.copyNumPendingSendreqs)
    (call : w'.call = upd w.call p c) : SameQueues w w' := by
  refine ⟨pending, copy, num, copyNum, fun o n => ?_⟩
  rw [call]
  by_cases ho : o = p
  · subst ho
    rw [upd_self]
    exact iff_of_false (hc n) (hold n)
  · rw [upd_of_ne _ _ ho]

theorem Queues.step [Fintype P] (h : Queues w) (ht : Transfer z w) (e : Event P) :
    Queues (step z w e) := by
  cases e with
  | issue p r => exact h.issue p r
  | deliver q p => exact h.congr (SameQueues.deliver z w q p)
  | landed p i =>
    refine h.congr ?_
    simp only [Osc.step, World.landed]
    split
    · exact SameQueues.refl w
    · refine SameQueues.trans ?_ (SameQueues.inmsgMarkComplete _ _ p _)
      exact ⟨rfl, rfl, rfl, rfl, fun _ _ => Iff.rfl⟩
  | replyLanded p i =>
    refine h.congr ?_
    simp only [Osc.step, World.replyLanded]
    split <;> exact ⟨rfl, rfl, rfl, rfl, fun _ _ => Iff.rfl⟩
  | sent p i =>
    refine h.congr ?_
    simp only [Osc.step, World.sent]
    split
    · exact SameQueues.refl w
    · split_ifs <;> exact ⟨rfl, rfl, rfl, rfl, fun _ _ => Iff.rfl⟩
  | grant p =>
    refine h.congr ?_
    simp only [Osc.step, World.grant]
    split_ifs
    · exact SameQueues.refl w
    · exact ⟨rfl, rfl, rfl, rfl, fun _ _ => Iff.rfl⟩
    · split <;> exact ⟨rfl, rfl, rfl, rfl, fun _ _ => Iff.rfl⟩
  | start p group =>
    refine h.congr ?_
    simp only [Osc.step, World.start]
    split_ifs <;> exact ⟨rfl, rfl, rfl, rfl, fun _ _ => Iff.rfl⟩
  | complete p order => exact h.complete ht p order
  | completed p =>
    refine h.congr ?_
    simp only [Osc.step, World.completed]
    split_ifs with hcall
    · exact SameQueues.endCall (by simp [hcall.1]) (c := .idle) (by simp) rfl rfl rfl rfl rfl
    · exact SameQueues.refl w
  | post p group =>
    refine h.congr ?_
    simp only [Osc.step, World.post]
    split_ifs <;> exact ⟨rfl, rfl, rfl, rfl, fun _ _ => Iff.rfl⟩
  | waited p =>
    refine h.congr ?_
    simp only [Osc.step, World.waited]
    split
    · exact SameQueues.refl w
    · split_ifs <;> exact ⟨rfl, rfl, rfl, rfl, fun _ _ => Iff.rfl⟩
  | lock p target type => exact h.congr ⟨rfl, rfl, rfl, rfl, fun _ _ => Iff.rfl⟩
  | unlock p target order => exact h.unlock ht p target order
  | unlocked p =>
    refine h.congr ?_
    simp only [Osc.step, World.unlocked]
    split_ifs with hcall
    · exact SameQueues.endCall (by simp [hcall.1]) (c := .idle) (by simp) rfl rfl rfl rfl rfl
    · exact SameQueues.refl w
  | fence p => exact h.fence p
  | fenceFailed p => exact h.fenceFailed p
  | reduced p order => exact h.reduced ht p order
  | counted p =>
    refine h.congr ?_
    simp only [Osc.step, World.counted]
    split
    · next hcall =>
        exact SameQueues.endCall (by simp [hcall]) (c := .fencing) (by simp) rfl rfl rfl rfl rfl
    · exact SameQueues.refl w
  | fenced p =>
    refine h.congr ?_
    simp only [Osc.step, World.fenced]
    split_ifs with hcall
    · exact SameQueues.endCall (by simp [hcall.1]) (c := .idle) (by simp) rfl rfl rfl rfl rfl
    · exact SameQueues.refl w

end Queues

end Ulfm.Osc
