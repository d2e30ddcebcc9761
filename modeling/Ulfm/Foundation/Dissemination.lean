import Mathlib.Data.Nat.Count
import Mathlib.Order.Interval.Set.Nat

/-!
# Phases that are separated by empty messages

Processes go through a sequence of phases. In a phase a process sends and receives empty
messages, and it can enter the next phase after it has returned from the current one. The
messages of all the phases look the same, so only their number is known.

When the messages of the phases are sent and received in rounds (`Plays`), and the rounds of each
phase inform every process about every other one (`Informs`), no process returns from a phase that
another one has not entered (`Rounds.synchronised`).
-/

namespace Ulfm

open List Function Option Nat

inductive TokenAct where
  | send (dst : ℕ)
  | recv (src : ℕ)
  /-- A receive that takes a message of any process. -/
  | recvAny
  /-- Waits until the messages to `dst` have been received. -/
  | sync (dst : ℕ)
deriving DecidableEq

/-- Processes with the numbers of messages under way between them. -/
structure TokenNet where
  entered : ℕ → ℕ
  returned : ℕ → ℕ
  todo : ℕ → List TokenAct
  chan : ℕ → ℕ → ℕ

namespace TokenNet

/-- What can happen: a process enters its next phase, goes on with its current one or returns from
it. A receive from any process names the one whose message it takes. -/
inductive Label where
  | enter (p : ℕ)
  | act (p src : ℕ)
  | leave (p : ℕ)
deriving DecidableEq

def init : TokenNet where
  entered _ := 0
  returned _ := 0
  todo _ := []
  chan _ _ := 0

/-- The process `p` goes on with `l`. -/
def setTodo (c : TokenNet) (p : ℕ) (l : List TokenAct) : TokenNet :=
  { c with todo := update c.todo p l }

/-- The number of messages from `p` to `q`. -/
def setChan (c : TokenNet) (p q m : ℕ) : TokenNet :=
  { c with chan := update c.chan p (update (c.chan p) q m) }

/-- A message from `src` is received by `p`. -/
def take (c : TokenNet) (src p : ℕ) (rest : List TokenAct) : Option TokenNet :=
  if 0 < c.chan src p then some ((c.setTodo p rest).setChan src p (c.chan src p - 1)) else none

/-- A step of one of the `n` processes, whose actions in the phases are given. -/
def exec (n : ℕ) (acts : ℕ → ℕ → List TokenAct) (c : TokenNet) : Label → Option TokenNet
  | .enter p =>
    if p < n ∧ c.entered p = c.returned p then
      some { c with
        entered := update c.entered p (c.entered p + 1)
        todo := update c.todo p (acts (c.entered p) p) }
    else none
  | .act p src =>
    if p < n then
      match c.todo p with
      | [] => none
      | .send dst :: rest => some ((c.setTodo p rest).setChan p dst (c.chan p dst + 1))
      | .recv src' :: rest => c.take src' p rest
      | .recvAny :: rest => if src < n then c.take src p rest else none
      | .sync dst :: rest => if c.chan p dst = 0 then some (c.setTodo p rest) else none
    else none
  | .leave p =>
    if p < n ∧ c.returned p < c.entered p ∧ c.todo p = [] then
      some { c with returned := update c.returned p (c.returned p + 1) }
    else none

inductive Reachable (n : ℕ) (acts : ℕ → ℕ → List TokenAct) : TokenNet → Prop where
  | init : Reachable n acts init
  | step {c c' : TokenNet} {l : Label} : Reachable n acts c → exec n acts c l = some c' →
      Reachable n acts c'

def run (n : ℕ) (acts : ℕ → ℕ → List TokenAct) (labels : List Label) : Option TokenNet :=
  labels.foldlM (exec n acts) init

section

variable {n : ℕ} {acts : ℕ → ℕ → List TokenAct} {labels : List Label}

theorem reachable_foldlM
    {c c' : TokenNet} (hc : Reachable n acts c) (h : labels.foldlM (exec n acts) c = some c') :
    Reachable n acts c' := by
  induction labels generalizing c with
  | nil =>
    obtain rfl := Option.some.inj h
    exact hc
  | cons l labels ih =>
    rw [foldlM_cons] at h
    obtain ⟨c₁, hstep, hrest⟩ := bind_eq_some_iff.1 h
    exact ih (hc.step hstep) hrest

theorem reachable_of_run {c : TokenNet} (h : run n acts labels = some c) : Reachable n acts c :=
  reachable_foldlM .init h

end

/-- No process has returned from a phase that another one has not entered. -/
def Synchronised (n : ℕ) (c : TokenNet) : Prop := ∀ p < n, ∀ q < n, c.returned p ≤ c.entered q

end TokenNet

open TokenNet

/-- Rounds in which a process sends at most one message and then receives at most one. -/
structure Rounds (n : ℕ) where
  snd : ℕ → ℕ → Option ℕ
  rcv : ℕ → ℕ → Option ℕ
  matched : ∀ p < n, ∀ q < n, ∀ t, snd p t = some q ↔ rcv q t = some p
  rcv_lt : ∀ p < n, ∀ t q, rcv p t = some q → q < n

namespace Rounds

variable {n : ℕ} (R : Rounds n)

/-- The half rounds `2 * t` and `2 * t + 1` are the send and the receive of the round `t`. A process
that does the actions of a list goes from the half round `x` to `y`. -/
inductive Plays (p : ℕ) : ℕ → ℕ → List TokenAct → Prop where
  | nil (x : ℕ) : Plays p x x []
  | skipSend {t y : ℕ} {l : List TokenAct} (h : R.snd p t = none) :
      Plays p (2 * t + 1) y l → Plays p (2 * t) y l
  | skipRecv {t y : ℕ} {l : List TokenAct} (h : R.rcv p t = none) :
      Plays p (2 * (t + 1)) y l → Plays p (2 * t + 1) y l
  | send {t y q : ℕ} {l : List TokenAct} (h : R.snd p t = some q) :
      Plays p (2 * t + 1) y l → Plays p (2 * t) y (.send q :: l)
  | recv {t y q : ℕ} {l : List TokenAct} (h : R.rcv p t = some q) :
      Plays p (2 * (t + 1)) y l → Plays p (2 * t + 1) y (.recv q :: l)
  | recvAny {t y q : ℕ} {l : List TokenAct} (h : R.rcv p t = some q)
      (honly : ∀ t', t ≤ t' → ∀ src < n, R.snd src t' = some p → src = q) :
      Plays p (2 * (t + 1)) y l → Plays p (2 * t + 1) y (.recvAny :: l)
  | sync {x y q : ℕ} {l : List TokenAct} : Plays p x y l → Plays p x y (.sync q :: l)

/-- The rounds from `s` on inform `p` about `q` before the round `t`. -/
inductive Informs (s q : ℕ) : ℕ → ℕ → Prop where
  | refl : Informs s q q s
  | stay {p t : ℕ} : Informs s q p t → Informs s q p (t + 1)
  | message {p p' t : ℕ} : Informs s q p t → R.snd p t = some p' → p < n → Informs s q p' (t + 1)

variable {R} {p q x y z s t t' : ℕ} {l l' : List TokenAct}

theorem Plays.append (h : R.Plays p x y l) (h' : R.Plays p y z l') : R.Plays p x z (l ++ l') := by
  induction h with
  | nil => exact h'
  | skipSend hnone _ ih => exact .skipSend hnone (ih h')
  | skipRecv hnone _ ih => exact .skipRecv hnone (ih h')
  | send hsome _ ih => exact .send hsome (ih h')
  | recv hsome _ ih => exact .recv hsome (ih h')
  | recvAny hsome honly _ ih => exact .recvAny hsome honly (ih h')
  | sync _ ih => exact .sync (ih h')

def tokenRound (snd rcv : Option ℕ) : List TokenAct :=
  (snd.map .send).toList ++ (rcv.map .recv).toList

theorem plays_round (R : Rounds n) (p t : ℕ) :
    R.Plays p (2 * t) (2 * (t + 1)) (tokenRound (R.snd p t) (R.rcv p t)) := by
  have hrecv : R.Plays p (2 * t + 1) (2 * (t + 1)) ((R.rcv p t).map .recv).toList := by
    cases h : R.rcv p t with
    | none => exact .skipRecv h (.nil _)
    | some q => exact .recv h (.nil _)
  rw [tokenRound]
  cases h : R.snd p t with
  | none => exact .skipSend h hrecv
  | some q => exact .send h hrecv

theorem plays_rounds (R : Rounds n) (p t m : ℕ) : R.Plays p (2 * t) (2 * (t + m))
      ((range' t m).flatMap fun i => tokenRound (R.snd p i) (R.rcv p i)) := by
  induction m generalizing t with
  | zero => exact .nil _
  | succ m ih =>
    have hrest := ih (t + 1)
    rw [Nat.add_right_comm, Nat.add_assoc] at hrest
    rw [range'_succ, flatMap_cons]
    exact (plays_round R p t).append hrest

theorem plays_skip {m : ℕ} (h : ∀ i, t ≤ i → i < t + m → R.snd p i = none ∧ R.rcv p i = none) :
    R.Plays p (2 * t) (2 * (t + m)) [] := by
  have hplays := plays_rounds R p t m
  have hnil : (List.range' t m).flatMap (fun i => tokenRound (R.snd p i) (R.rcv p i)) = [] := by
    rw [flatMap_eq_nil_iff]
    intro i hi
    rw [mem_range'_1] at hi
    rw [(h i hi.1 hi.2).1, (h i hi.1 hi.2).2]
    rfl
  rwa [hnil] at hplays

theorem Plays.insert_sync (h : R.Plays p x y l) (q : ℕ) (l₁ l₂ : List TokenAct)
    (hl : l = l₁ ++ l₂) : R.Plays p x y (l₁ ++ .sync q :: l₂) := by
  induction h generalizing l₁ with
  | nil x =>
    obtain ⟨rfl, rfl⟩ := append_eq_nil_iff.1 hl.symm
    exact .sync (.nil x)
  | skipSend hnone _ ih => exact .skipSend hnone (ih _ hl)
  | skipRecv hnone _ ih => exact .skipRecv hnone (ih _ hl)
  | send hsome hrest ih =>
    rcases cons_eq_append_iff.1 hl with ⟨rfl, rfl⟩ | ⟨l, rfl, rfl⟩
    · exact .sync (.send hsome hrest)
    · exact .send hsome (ih _ rfl)
  | recv hsome hrest ih =>
    rcases cons_eq_append_iff.1 hl with ⟨rfl, rfl⟩ | ⟨l, rfl, rfl⟩
    · exact .sync (.recv hsome hrest)
    · exact .recv hsome (ih _ rfl)
  | recvAny hsome honly hrest ih =>
    rcases cons_eq_append_iff.1 hl with ⟨rfl, rfl⟩ | ⟨l, rfl, rfl⟩
    · exact .sync (.recvAny hsome honly hrest)
    · exact .recvAny hsome honly (ih _ rfl)
  | sync hrest ih =>
    rcases cons_eq_append_iff.1 hl with ⟨rfl, rfl⟩ | ⟨l, rfl, rfl⟩
    · exact .sync (.sync hrest)
    · exact .sync (ih _ rfl)

theorem Plays.any_of_only (h : R.Plays p x y l) (l₁ l₂ : List TokenAct)
    (hl : l = l₁ ++ .recv q :: l₂)
    (honly : ∀ t', x ≤ 2 * t' + 1 → ∀ src < n, R.snd src t' = some p → src = q) :
    R.Plays p x y (l₁ ++ .recvAny :: l₂) := by
  induction h generalizing l₁ with
  | nil => exact absurd hl.symm (by simp)
  | skipSend hnone _ ih => exact .skipSend hnone (ih _ hl fun t' ht' => honly t' (by omega))
  | skipRecv hnone _ ih => exact .skipRecv hnone (ih _ hl fun t' ht' => honly t' (by omega))
  | send hsome hrest ih =>
    rcases cons_eq_append_iff.1 hl with ⟨rfl, hcons⟩ | ⟨l, rfl, rfl⟩
    · cases hcons
    · exact .send hsome (ih _ rfl fun t' ht' => honly t' (by omega))
  | recv hsome hrest ih =>
    rcases cons_eq_append_iff.1 hl with ⟨rfl, hcons⟩ | ⟨l, rfl, rfl⟩
    · cases hcons
      exact .recvAny hsome (fun t' ht' => honly t' (by omega)) hrest
    · exact .recv hsome (ih _ rfl fun t' ht' => honly t' (by omega))
  | recvAny hsome honly' hrest ih =>
    rcases cons_eq_append_iff.1 hl with ⟨rfl, hcons⟩ | ⟨l, rfl, rfl⟩
    · cases hcons
    · exact .recvAny hsome honly' (ih _ rfl fun t' ht' => honly t' (by omega))
  | sync hrest ih =>
    rcases cons_eq_append_iff.1 hl with ⟨rfl, hcons⟩ | ⟨l, rfl, rfl⟩
    · cases hcons
    · exact .sync (ih _ rfl honly)

theorem Plays.le (h : R.Plays p x y l) : x ≤ y := by
  induction h with
  | nil => exact le_refl _
  | sync _ ih => exact ih
  | skipSend _ _ ih | skipRecv _ _ ih | send _ _ ih | recv _ _ ih | recvAny _ _ _ ih => omega

theorem Informs.le (h : R.Informs s q p t) : s ≤ t := by
  induction h with
  | refl => exact le_refl _
  | stay _ ih | message _ _ _ ih => omega

theorem Informs.mono (h : R.Informs s q p t) (htt : t ≤ t') : R.Informs s q p t' := by
  induction t', htt using le_induction with
  | base => exact h
  | succ t' _ ih => exact .stay ih

/-- Where the processes are: the messages under way from `p` to `q` are those of the rounds whose
send is done and whose receive is not. -/
def Positions (R : Rounds n) (x : ℕ → ℕ) (chan : ℕ → ℕ → ℕ) : Prop :=
  ∀ p < n, ∀ q < n, chan p q + Nat.count (fun t => R.snd p t = some q) (x q / 2) =
    Nat.count (fun t => R.snd p t = some q) ((x p + 1) / 2)

variable {pos : ℕ → ℕ} {chan : ℕ → ℕ → ℕ}

theorem Positions.sent (h : R.Positions pos chan) (hp : p < n) (hq : q < n)
    (hsnd : R.snd p t = some q) (hrecv : 2 * (t + 1) ≤ pos q) : 2 * t < pos p := by
  by_contra hlt
  have hcount := h p hp q hq
  have hbefore : Nat.count (fun t => R.snd p t = some q) ((pos p + 1) / 2) ≤
      Nat.count (fun t => R.snd p t = some q) t := count_monotone _ (by omega)
  have hbehind : Nat.count (fun t => R.snd p t = some q) (t + 1) ≤
      Nat.count (fun t => R.snd p t = some q) (pos q / 2) := count_monotone _ (by omega)
  rw [count_succ, if_pos hsnd] at hbehind
  omega

theorem Positions.exists_round (h : R.Positions pos chan) (hp : p < n) (hq : q < n)
    (hchan : 0 < chan p q) : ∃ t, pos q / 2 ≤ t ∧ R.snd p t = some q := by
  by_contra hcon
  push Not at hcon
  have hcount := h p hp q hq
  have hlater : ∀ m, pos q / 2 ≤ m → Nat.count (fun t => R.snd p t = some q) m =
      Nat.count (fun t => R.snd p t = some q) (pos q / 2) := by
    intro m hm
    induction m, hm using le_induction with
    | base => rfl
    | succ m hm ih => rw [count_succ, if_neg (hcon m hm), ih, Nat.add_zero]
  rcases Nat.lt_or_ge ((pos p + 1) / 2) (pos q / 2) with hlt | hge
  · have hle : Nat.count (fun t => R.snd p t = some q) ((pos p + 1) / 2) ≤
        Nat.count (fun t => R.snd p t = some q) (pos q / 2) := count_monotone _ hlt.le
    omega
  · rw [hlater _ hge] at hcount
    omega

variable {chan' : ℕ → ℕ → ℕ}

section

variable (h : R.Positions pos chan)
include h

theorem Positions.sendMove (hpos : pos p = 2 * t)
    (hsend : ∀ b, chan' p b = chan p b + if R.snd p t = some b then 1 else 0)
    (hother : ∀ a ≠ p, chan' a = chan a) :
    R.Positions (Function.update pos p (2 * t + 1)) chan' := by
  intro a ha b hb
  have hcount := h a ha b hb
  have hrecv : update pos p (2 * t + 1) b / 2 = pos b / 2 := by
    by_cases hbp : b = p
    · subst hbp
      rw [update_self]
      omega
    · rw [update_of_ne hbp]
  rw [hrecv]
  by_cases hap : a = p
  · subst hap
    rw [hpos, show (2 * t + 1) / 2 = t by omega] at hcount
    rw [update_self, show (2 * t + 1 + 1) / 2 = t + 1 by omega, count_succ, hsend b]
    omega
  · rw [update_of_ne hap, hother a hap]
    exact hcount

theorem Positions.recvMove (hp : p < n) (hpos : pos p = 2 * t + 1)
    (hrecv : ∀ a < n, chan a p = chan' a p + if R.snd a t = some p then 1 else 0)
    (hother : ∀ a, ∀ b ≠ p, chan' a b = chan a b) :
    R.Positions (Function.update pos p (2 * (t + 1))) chan' := by
  intro a ha b hb
  have hcount := h a ha b hb
  have hsend : (update pos p (2 * (t + 1)) a + 1) / 2 = (pos a + 1) / 2 := by
    by_cases hap : a = p
    · subst hap
      rw [update_self]
      omega
    · rw [update_of_ne hap]
  rw [hsend]
  by_cases hbp : b = p
  · subst hbp
    rw [hpos, show (2 * t + 1) / 2 = t by omega, hrecv a ha] at hcount
    rw [update_self, show 2 * (t + 1) / 2 = t + 1 by omega, count_succ]
    omega
  · rw [update_of_ne hbp, hother a b hbp]
    exact hcount

theorem Positions.skipSend (hpos : pos p = 2 * t)
    (hnone : R.snd p t = none) : R.Positions (update pos p (2 * t + 1)) chan := by
  refine h.sendMove hpos (fun b => ?_) fun _ _ => rfl
  rw [hnone, if_neg (by simp), Nat.add_zero]

theorem Positions.skipRecv (hp : p < n) (hpos : pos p = 2 * t + 1)
    (hnone : R.rcv p t = none) : R.Positions (update pos p (2 * (t + 1))) chan := by
  refine h.recvMove hp hpos (fun a ha => ?_) fun _ _ _ => rfl
  rw [if_neg, Nat.add_zero]
  rw [R.matched a ha p hp t, hnone]
  simp

end

theorem Plays.exists_position (h : R.Plays p x y l) (hp : p < n) (hpos : R.Positions pos chan)
    (hx : pos p = x) :
    ∃ x', x ≤ x' ∧ R.Positions (Function.update pos p x') chan ∧ R.Plays p x' y l ∧
      ((l = [] ∧ x' = y) ∨ (∃ q l', l = .sync q :: l' ∧ R.Plays p x' y l') ∨
        (∃ t q l', x' = 2 * t ∧ R.snd p t = some q ∧ l = .send q :: l' ∧
          R.Plays p (2 * t + 1) y l') ∨
        ∃ t q l' a, x' = 2 * t + 1 ∧ R.rcv p t = some q ∧ l = a :: l' ∧
          R.Plays p (2 * (t + 1)) y l' ∧ (a = .recv q ∨ a = .recvAny ∧
            ∀ t', t ≤ t' → ∀ src < n, R.snd src t' = some p → src = q)) := by
  have hself : ∀ {pos : ℕ → ℕ}, R.Positions pos chan → ∀ {x : ℕ}, pos p = x →
      R.Positions (update pos p x) chan := by
    rintro pos hpos x rfl
    rwa [update_eq_self]
  induction h generalizing pos with
  | nil x => exact ⟨x, le_refl x, hself hpos hx, .nil x, .inl ⟨rfl, rfl⟩⟩
  | skipSend hnone _ ih =>
    obtain ⟨x', hle, hpos', hplays, hcases⟩ := ih (hpos.skipSend hx hnone) (update_self _ _ _)
    rw [update_idem] at hpos'
    exact ⟨x', by omega, hpos', hplays, hcases⟩
  | skipRecv hnone _ ih =>
    obtain ⟨x', hle, hpos', hplays, hcases⟩ := ih (hpos.skipRecv hp hx hnone) (update_self _ _ _)
    rw [update_idem] at hpos'
    exact ⟨x', by omega, hpos', hplays, hcases⟩
  | @send t y q l hsome hrest _ =>
    exact ⟨2 * t, le_refl _, hself hpos hx, .send hsome hrest,
      .inr (.inr (.inl ⟨t, q, l, rfl, hsome, rfl, hrest⟩))⟩
  | @recv t y q l hsome hrest _ =>
    exact ⟨2 * t + 1, le_refl _, hself hpos hx, .recv hsome hrest,
      .inr (.inr (.inr ⟨t, q, l, _, rfl, hsome, rfl, hrest, .inl rfl⟩))⟩
  | @recvAny t y q l hsome honly hrest _ =>
    exact ⟨2 * t + 1, le_refl _, hself hpos hx, .recvAny hsome honly hrest,
      .inr (.inr (.inr ⟨t, q, l, _, rfl, hsome, rfl, hrest, .inr ⟨rfl, honly⟩⟩))⟩
  | @sync x y q l hrest _ =>
    exact ⟨x, le_refl x, hself hpos hx, .sync hrest, .inr (.inl ⟨q, l, rfl, hrest⟩)⟩

/-- The actions of the phases are those of `T` rounds each. -/
structure Schedules (R : Rounds n) (acts : ℕ → ℕ → List TokenAct) (T : ℕ) : Prop where
  plays : ∀ k, ∀ p < n, R.Plays p (2 * (k * T)) (2 * ((k + 1) * T)) (acts k p)
  informs : ∀ k, ∀ p < n, ∀ q < n, R.Informs (k * T) q p ((k + 1) * T)

structure Place (R : Rounds n) (T : ℕ) (c : TokenNet) (p x : ℕ) : Prop where
  le_entered : c.returned p ≤ c.entered p
  entered_le : c.entered p ≤ c.returned p + 1
  le_pos : 2 * (c.returned p * T) ≤ x
  plays : R.Plays p x (2 * (c.entered p * T)) (c.todo p)
  outside : c.entered p = c.returned p → x = 2 * (c.entered p * T) ∧ c.todo p = []

def Placed (R : Rounds n) (T : ℕ) (c : TokenNet) : Prop :=
  ∃ pos, R.Positions pos c.chan ∧ ∀ p < n, R.Place T c p (pos p)

variable {acts : ℕ → ℕ → List TokenAct} {T k : ℕ} {c c' : TokenNet}

theorem placed_init : R.Placed T TokenNet.init := by
  refine ⟨fun _ => 0, fun p _ q _ => ?_, fun p _ => ?_⟩
  · simp [init]
  · have hzero : 2 * (0 * T) = 0 := by rw [Nat.zero_mul, Nat.mul_zero]
    refine ⟨le_refl _, Nat.zero_le _, hzero.le, ?_, fun _ => ⟨hzero.symm, rfl⟩⟩
    change R.Plays p 0 (2 * (0 * T)) []
    rw [hzero]
    exact .nil 0

theorem Place.congr (h : R.Place T c p x) (hentered : c'.entered p = c.entered p)
    (hreturned : c'.returned p = c.returned p) (htodo : c'.todo p = c.todo p) :
    R.Place T c' p x where
  le_entered := by rw [hentered, hreturned]; exact h.le_entered
  entered_le := by rw [hentered, hreturned]; exact h.entered_le
  le_pos := by rw [hreturned]; exact h.le_pos
  plays := by rw [hentered, htodo]; exact h.plays
  outside := by rw [hentered, hreturned, htodo]; exact h.outside

theorem Placed.move (p x : ℕ) {pos : ℕ → ℕ} (hplace : ∀ a < n, R.Place T c a (pos a))
    (hpos : R.Positions (update pos p x) c'.chan) (hp : R.Place T c' p x)
    (hother : ∀ a ≠ p, c'.entered a = c.entered a ∧ c'.returned a = c.returned a ∧
      c'.todo a = c.todo a) : R.Placed T c' := by
  refine ⟨_, hpos, fun a ha => ?_⟩
  by_cases hap : a = p
  · subst hap
    rw [update_self]
    exact hp
  · obtain ⟨hentered, hreturned, htodo⟩ := hother a hap
    rw [update_of_ne hap]
    exact (hplace a ha).congr hentered hreturned htodo

theorem Placed.enter (h : R.Placed T c) (hS : R.Schedules acts T)
    (hstep : c.exec n acts (.enter p) = some c') : R.Placed T c' := by
  rw [exec] at hstep
  split_ifs at hstep with hif
  obtain ⟨hp, heq⟩ := hif
  obtain rfl := Option.some.inj hstep
  obtain ⟨pos, hpos, hplace⟩ := h
  have hx := ((hplace p hp).outside heq).1
  refine Placed.move p (pos p) hplace ?_ ?_ fun a ha => ?_
  · rw [update_eq_self]
    exact hpos
  · refine ⟨?_, ?_, ?_, ?_, fun hfalse => ?_⟩
    all_goals simp only [update_self] at *
    · omega
    · omega
    · exact (hplace p hp).le_pos
    · rw [hx]
      exact hS.plays _ p hp
    · omega
  · simp only [update_of_ne ha, and_self]

theorem Placed.leave (h : R.Placed T c) (hstep : c.exec n acts (.leave p) = some c') :
    R.Placed T c' := by
  rw [exec] at hstep
  split_ifs at hstep with hif
  obtain ⟨hp, hlt, htodo⟩ := hif
  obtain rfl := Option.some.inj hstep
  obtain ⟨pos, hpos, hplace⟩ := h
  have hle := (hplace p hp).entered_le
  have heq : c.returned p + 1 = c.entered p := by omega
  obtain ⟨x', -, hpos', hplays, hcases⟩ := (hplace p hp).plays.exists_position hp hpos rfl
  have hx' : x' = 2 * (c.entered p * T) := by
    rcases hcases with ⟨-, hend⟩ | ⟨q, l', hl, -⟩ | ⟨t, q, l', -, -, hl, -⟩ |
      ⟨t, q, l', a, -, -, hl, -⟩
    · exact hend
    all_goals
      rw [htodo] at hl
      exact absurd hl (cons_ne_nil _ _).symm
  refine Placed.move p x' hplace hpos' ?_ fun a ha => ?_
  · refine ⟨?_, ?_, ?_, hplays, fun _ => ⟨hx', htodo⟩⟩
    all_goals simp only [update_self]
    · omega
    · omega
    · rw [hx', heq]
  · simp only [update_of_ne ha, and_self]

theorem Placed.take {pos : ℕ → ℕ} {src : ℕ} {rest : List TokenAct}
    (hplace : ∀ a < n, R.Place T c a (pos a)) (hp : p < n)
    (hpos : R.Positions (update pos p (2 * t + 1)) c.chan) (hx : pos p ≤ 2 * t + 1)
    (hrcv : R.rcv p t = some src)
    (hrest : R.Plays p (2 * (t + 1)) (2 * (c.entered p * T)) rest)
    (hout : c.entered p ≠ c.returned p) (hstep : c.take src p rest = some c') : R.Placed T c' := by
  rw [TokenNet.take] at hstep
  split_ifs at hstep with hchan
  obtain rfl := Option.some.inj hstep
  have hsrc : src < n := R.rcv_lt p hp t src hrcv
  have hplace' := hplace p hp
  refine Placed.move p (2 * (t + 1)) hplace ?_ ?_ fun a ha => ?_
  · rw [← update_idem (v := 2 * t + 1)]
    refine hpos.recvMove hp (update_self _ _ _) (fun a ha => ?_) fun a b hb => ?_
    · have hiff := R.matched a ha p hp t
      by_cases hsa : a = src
      · subst hsa
        rw [if_pos (hiff.2 hrcv)]
        simp only [setChan, update_self]
        exact (Nat.sub_add_cancel hchan).symm
      · have hne : R.snd a t ≠ some p := fun hs => hsa (by
          have := hiff.1 hs
          rw [hrcv] at this
          exact (Option.some.inj this).symm)
        rw [if_neg hne]
        simp only [setChan, setTodo, update_of_ne hsa, Nat.add_zero]
    · by_cases has : a = src
      · subst has
        simp only [setChan, setTodo, update_self, update_of_ne hb]
      · simp only [setChan, setTodo, update_of_ne has]
  · refine ⟨hplace'.le_entered, hplace'.entered_le, ?_, ?_, fun heq => absurd heq hout⟩
    · have hle := hplace'.le_pos
      change 2 * (c.returned p * T) ≤ 2 * (t + 1)
      omega
    · simp only [setChan, setTodo, update_self]
      exact hrest
  · simp only [setChan, setTodo, update_of_ne ha, and_self]

theorem Placed.act {src : ℕ} (h : R.Placed T c)
    (hstep : c.exec n acts (.act p src) = some c') : R.Placed T c' := by
  rw [exec] at hstep
  by_cases hp : p < n
  swap
  · rw [if_neg hp] at hstep
    cases hstep
  rw [if_pos hp] at hstep
  obtain ⟨pos, hpos, hplace⟩ := h
  have hplace' := hplace p hp
  obtain ⟨x', hle, hpos', hplays, hcases⟩ := hplace'.plays.exists_position hp hpos rfl
  -- a process with something to do is inside of a phase
  have hinside : c.todo p ≠ [] → c.entered p ≠ c.returned p := fun hne heq =>
    hne (hplace'.outside heq).2
  rcases hcases with ⟨hl, -⟩ | ⟨q, l', hl, hrest⟩ | ⟨t, q, l', rfl, hsnd, hl, hrest⟩ |
    ⟨t, q, l', a, rfl, hrcv, hl, hrest, ha⟩
  · rw [hl] at hstep
    cases hstep
  · have hout := hinside (by rw [hl]; exact cons_ne_nil _ _)
    rw [hl] at hstep
    simp only at hstep
    split_ifs at hstep
    obtain rfl := Option.some.inj hstep
    refine Placed.move p x' hplace hpos' ?_ fun a ha => ?_
    · refine ⟨hplace'.le_entered, hplace'.entered_le, hplace'.le_pos.trans hle, ?_,
        fun heq => absurd heq hout⟩
      simp only [setTodo, update_self]
      exact hrest
    · simp only [setTodo, update_of_ne ha, and_self]
  · have hout := hinside (by rw [hl]; exact cons_ne_nil _ _)
    rw [hl] at hstep
    obtain rfl := Option.some.inj hstep
    refine Placed.move p (2 * t + 1) hplace ?_ ?_ fun a ha => ?_
    · rw [← update_idem (v := 2 * t)]
      refine hpos'.sendMove (update_self _ _ _) (fun b => ?_) fun a ha => ?_
      · rw [hsnd]
        by_cases hb : b = q
        · subst hb
          simp only [setChan, update_self, if_true]
        · simp only [setChan, setTodo, update_self,
            update_of_ne hb, Option.some.injEq, Ne.symm hb, if_false, Nat.add_zero]
      · simp only [setChan, setTodo, update_of_ne ha]
    · refine ⟨hplace'.le_entered, hplace'.entered_le, ?_, ?_, fun heq => absurd heq hout⟩
      · have hle' := hplace'.le_pos
        change 2 * (c.returned p * T) ≤ 2 * t + 1
        omega
      · simp only [setChan, setTodo, update_self]
        exact hrest
    · simp only [setChan, setTodo, update_of_ne ha, and_self]
  · have hout := hinside (by rw [hl]; exact cons_ne_nil _ _)
    rw [hl] at hstep
    rcases ha with rfl | ⟨rfl, honly⟩
    · exact Placed.take hplace hp hpos' hle hrcv hrest hout hstep
    · simp only at hstep
      split_ifs at hstep with hsrc
      have hchan : 0 < c.chan src p := by
        by_contra hzero
        rw [TokenNet.take, if_neg hzero] at hstep
        cases hstep
      -- nobody else has sent something that is not yet received
      obtain ⟨t', ht', hsnd⟩ := hpos'.exists_round hsrc hp hchan
      rw [update_self] at ht'
      obtain rfl : src = q := honly t' (by omega) src hsrc hsnd
      exact Placed.take hplace hp hpos' hle hrcv hrest hout hstep

theorem Placed.exec {l : TokenNet.Label} (h : R.Placed T c) (hS : R.Schedules acts T)
    (hstep : c.exec n acts l = some c') : R.Placed T c' := by
  cases l with
  | enter p => exact h.enter hS hstep
  | act p src => exact h.act hstep
  | leave p => exact h.leave hstep

theorem placed_of_reachable (hS : R.Schedules acts T) (h : TokenNet.Reachable n acts c) :
    R.Placed T c := by
  induction h with
  | init => exact placed_init
  | step _ hstep ih => exact ih.exec hS hstep

theorem Informs.lt_entered {pos : ℕ → ℕ} (h : R.Informs (k * T) q p t)
    (hpos : R.Positions pos c.chan) (hplace : ∀ a < n, R.Place T c a (pos a)) (hp : p < n)
    (ht : 2 * t ≤ pos p) (hk : k < c.entered p) : k < c.entered q := by
  induction h with
  | refl => exact hk
  | stay _ ih => exact ih hp (by omega) hk
  | @message p p' t hinf hsnd hlt ih =>
    have hsent : 2 * t < pos p := hpos.sent hlt hp hsnd (by omega)
    have hkt := hinf.le
    have hle := (hplace p hlt).plays.le
    refine ih hlt (by omega) ?_
    by_contra hge
    have hmul : c.entered p * T ≤ k * T := Nat.mul_le_mul_right T (not_lt.1 hge)
    omega

theorem synchronised (hS : R.Schedules acts T) (h : TokenNet.Reachable n acts c) :
    c.Synchronised n := by
  intro p hp q hq
  obtain ⟨pos, hpos, hplace⟩ := placed_of_reachable hS h
  obtain ⟨k, hk⟩ | hzero : (∃ k, c.returned p = k + 1) ∨ c.returned p = 0 := by
    rcases Nat.eq_zero_or_pos (c.returned p) with hzero | hpos
    · exact .inr hzero
    · exact .inl ⟨c.returned p - 1, by omega⟩
  · have hle := (hplace p hp).le_pos
    have hentered := (hplace p hp).le_entered
    rw [hk] at hle ⊢
    exact (hS.informs k p hp q hq).lt_entered hpos hplace hp hle (by omega)
  · rw [hzero]
    exact Nat.zero_le _

end Rounds

end Ulfm
