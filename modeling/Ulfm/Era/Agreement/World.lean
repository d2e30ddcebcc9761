import Ulfm.Era.Agreement.Definitions

/-!
# One agreement among all processes

The processes of a communicator and the messages of one agreement in flight. A
step is the delivery of a message, the post of an agreement by a process, a
crash, the notification of a failure, or the completion of the collective; what
other agreements of the same communicator do to the shared tree and to the table
of passed agreements are steps too. Messages may be delivered in any order, also
after their sender has crashed.

`sent`, `decisions` and `calls` record the history for the specification.
-/

namespace Ulfm

open Function

/-- The fixed data of an agreement: what every participant contributes, and what
all participants start with. -/
structure EraConfig where
  size : ℕ
  agreedFailedRanks : List ℕ
  tree : EraTree
  reduce : ℤ → ℤ → List UInt8 → List UInt8 → List UInt8
  operand : ℤ
  dtCount : ℕ
  datatype : ℤ
  contrib : ℕ → List UInt8
  acked : ℕ → List ℕ
  gcRange : ℕ → ℕ × ℕ
  contrib_nil : dtCount = 0 → ∀ p, contrib p = []

/-- The value that `p` contributes. -/
def EraConfig.contribution (cfg : EraConfig) (p : ℕ) : EraValue where
  ret := mpiSuccess
  minAid := (cfg.gcRange p).1
  maxAid := (cfg.gcRange p).2
  operand := cfg.operand
  dtCount := cfg.dtCount
  datatype := cfg.datatype
  bytes := cfg.contrib p
  newDeadArray := []

/-- A process. `decided` is the value of its decision at the time of the
decision, `returned` the value handed to the caller, and `collected` says whether
the record of the decision has been removed. -/
structure Proc where
  posted : Bool
  slot : Slot
  tree : EraTree
  failed : List ℕ
  failedElsewhere : ℕ
  decided : Option EraValue
  returned : Option EraValue
  collected : Bool

/-- A decision: who took it, the value, the processes that had crashed then, and
whether it was taken as a root. -/
structure Decision where
  rank : ℕ
  value : EraValue
  crashed : List ℕ
  root : Bool
deriving DecidableEq

structure World where
  proc : ℕ → Proc
  crashed : List ℕ
  net : List EraMsg
  sent : List EraMsg
  decisions : List Decision
  calls : List (ℕ × EraCall)

/-- The steps of a run. The last three stand for other agreements of the
communicator: they look for the parent or for the children in the same tree, and
they collect old records; `failElsewhere` is a failure outside the communicator. -/
inductive Action
  | post (p : ℕ) (afrDirty : Bool)
  | deliver (i : ℕ)
  | crash (p : ℕ)
  | notify (p q : ℕ)
  | complete (p : ℕ)
  | failElsewhere (p : ℕ)
  | parentElsewhere (p : ℕ)
  | childrenElsewhere (p : ℕ) (gathered : List ℕ)
  | collect (p : ℕ)
deriving DecidableEq

namespace World

variable (cfg : EraConfig)

/-- Before the agreement: the agreed failed ranks have crashed, and everybody
knows. -/
def init : World where
  proc _ :=
    { posted := false
      slot := { ci := none, passed := none }
      tree := cfg.tree
      failed := cfg.agreedFailedRanks
      failedElsewhere := 0
      decided := none
      returned := none
      collected := false }
  crashed := cfg.agreedFailedRanks
  net := []
  sent := []
  decisions := []
  calls := []

variable (w : World)

def setProc (p : ℕ) (x : Proc) : World := { w with proc := update w.proc p x }

def alive (p : ℕ) : Bool := decide (p < cfg.size) && decide (p ∉ w.crashed)

/-- The environment of the handlers of `p`. -/
def env (p : ℕ) : EraEnv where
  me := p
  size := cfg.size
  failed := (w.proc p).failed
  failedElsewhere := (w.proc p).failedElsewhere
  reduce := cfg.reduce

/-- Store what a handler of `p` has left behind. -/
def store (p : ℕ) (h : Handled) : World :=
  { w with
    proc := update w.proc p
      { w.proc p with
        slot := h.slot
        tree := h.tree
        decided := h.decided.orElse fun _ => (w.proc p).decided }
    net := w.net ++ h.sent
    sent := w.sent ++ h.sent
    decisions := w.decisions ++ h.decided.toList.map fun value =>
      { rank := p, value, crashed := w.crashed, root := decide (h.slot.passed = some .current) }
    calls := w.calls ++ h.calls.map fun c => (p, c) }

/-- The ranks that `era_update_new_dead_list` adds when the flag `AGS_AFR_DIRTY` is
set: failed, and not yet agreed to have failed. -/
def newDead (p : ℕ) (afrDirty : Bool) : List ℕ :=
  if afrDirty then
    (List.range cfg.size).filter fun q =>
      decide (q ∈ (w.proc p).failed) && decide (q ∉ cfg.agreedFailedRanks)
  else []

/-- One step; `none` when the action is not possible. -/
def step (a : Action) : Option (Except EraAssert World) :=
  match a with
  | .post p afrDirty =>
    if w.alive cfg p ∧ ¬ (w.proc p).posted then
      let w := w.setProc p { w.proc p with posted := true }
      some do
        let h ← prepareAgreement (w.env cfg p) (w.proc p).slot (w.proc p).tree
          (cfg.acked p) (w.newDead cfg p afrDirty) (cfg.contribution p)
        return w.store p h
    else none
  | .deliver i =>
    match w.net[i]? with
    | none => none
    | some msg =>
      if w.alive cfg msg.dst then
        let w := { w with net := w.net.eraseIdx i }
        some do
          let h ← handleMsg (w.env cfg msg.dst) (w.proc msg.dst).slot (w.proc msg.dst).tree msg
          return w.store msg.dst h
      else none
  | .crash p =>
    if w.alive cfg p then some (.ok { w with crashed := w.crashed ++ [p] }) else none
  | .notify p q =>
    if w.alive cfg p ∧ q ∈ w.crashed ∧ q ∉ (w.proc p).failed then
      let w := w.setProc p { w.proc p with failed := (w.proc p).failed ++ [q] }
      match (w.proc p).slot.ci with
      | none => some (.ok w)
      | some ci =>
        some do
          let j ← eraMarkProcessFailed (w.env cfg p) q
            (Job.start ci (w.proc p).slot.passed (w.proc p).tree)
          return w.store p j.finish
    else none
  | .complete p =>
    if w.alive cfg p ∧ (w.proc p).slot.ci.any (·.hasStatus .completed) then
      some do
        let (value, slot) ← completeAgreement (w.proc p).slot
        return w.setProc p { w.proc p with slot, returned := some value }
    else none
  | .failElsewhere p =>
    if w.alive cfg p then
      some (.ok (w.setProc p
        { w.proc p with failedElsewhere := (w.proc p).failedElsewhere + 1 }))
    else none
  | .parentElsewhere p =>
    if w.alive cfg p then
      match eraParent (w.proc p).failed p (w.proc p).tree with
      | none => none
      | some (_, tree) => some (.ok (w.setProc p { w.proc p with tree }))
    else none
  | .childrenElsewhere p gathered =>
    if w.alive cfg p then
      match eraChildrenWhile (w.proc p).failed p (fun r => decide (r ∈ gathered))
          ((w.proc p).tree.treeSize + 1) none (w.proc p).tree with
      | none => none
      | some (_, _, tree) => some (.ok (w.setProc p { w.proc p with tree }))
    else none
  | .collect p =>
    if w.alive cfg p ∧ (w.proc p).slot.ci = none then
      some (.ok (w.setProc p
        { w.proc p with
          slot := { (w.proc p).slot with passed := none }
          collected := (w.proc p).collected || (w.proc p).slot.passed.isSome }))
    else none

section Simp

variable {w} {p q : ℕ} {x : Proc} {h : Handled}

@[simp] theorem setProc_proc_self : (w.setProc p x).proc p = x := update_self ..

theorem setProc_proc_of_ne (hq : q ≠ p) : (w.setProc p x).proc q = w.proc q := update_of_ne hq _ _

theorem forall_setProc {P : ℕ → Proc → Prop} (hx : P p x) (hw : ∀ q, P q (w.proc q)) (q : ℕ) :
    P q ((w.setProc p x).proc q) := by
  by_cases hq : q = p
  · subst hq
    rwa [setProc_proc_self]
  · rw [setProc_proc_of_ne hq]
    exact hw q

@[simp] theorem store_proc_self : (w.store p h).proc p = { w.proc p with
        slot := h.slot
        tree := h.tree
        decided := h.decided.orElse fun _ => (w.proc p).decided } :=
  update_self ..

theorem store_proc_of_ne (hq : q ≠ p) : (w.store p h).proc q = w.proc q := update_of_ne hq _ _

end Simp

/-- A run: the worlds that a list of actions leads to, each action in turn being
possible, allowed by `ok` and free of failed assertions. Without assertions a
second decision that does not match changes nothing, as if its message were never
delivered, and a missing communicator is a crash. -/
inductive Run (ok : World → Action → Prop) : World → List Action → World → Prop
  | refl (w : World) : Run ok w [] w
  | step {w w' w'' : World} {a : Action} {as : List Action} (hok : ok w a)
      (h : w.step cfg a = some (.ok w')) (hr : Run ok w' as w'') : Run ok w (a :: as) w''

def exec (ok : World → Action → Prop) [∀ w a, Decidable (ok w a)] :
    World → List Action → Option World
  | w, [] => some w
  | w, a :: as =>
    if ok w a then
      match w.step cfg a with
      | some (.ok w') => exec ok w' as
      | _ => none
    else none

section Exec

variable {cfg} {ok : World → Action → Prop} [∀ w a, Decidable (ok w a)] {w w' : World}
  {as : List Action}

theorem exec_run (h : exec cfg ok w as = some w') : Run cfg ok w as w' := by
  induction as generalizing w with
  | nil =>
    obtain rfl := Option.some.inj h
    exact .refl w
  | cons a as ih =>
    rw [exec] at h
    split at h
    · next hok =>
        split at h
        · next w₁ hstep => exact .step hok hstep (ih h)
        · simp at h
    · simp at h

end Exec

theorem exists_run (ok : World → Action → Prop) [∀ w a, Decidable (ok w a)] (w : World)
    (as : List Action) (P : World → Bool) (h : (exec cfg ok w as).any P = true) :
    ∃ w', Run cfg ok w as w' ∧ P w' = true := by
  cases he : exec cfg ok w as with
  | none => simp [he] at h
  | some w' => exact ⟨w', exec_run he, by simpa [he] using h⟩

theorem exists_run_run (ok : World → Action → Prop) [∀ w a, Decidable (ok w a)] (w : World)
    (as bs : List Action) (P : World → World → Bool)
    (h : (exec cfg ok w as).any (fun w' => (exec cfg ok w' bs).any (P w')) = true) :
    ∃ w' w'', Run cfg ok w as w' ∧ Run cfg ok w' bs w'' ∧ P w' w'' = true := by
  obtain ⟨w', hr, hw'⟩ := exists_run cfg ok w as _ h
  obtain ⟨w'', hr', hP⟩ := exists_run cfg ok w' bs _ hw'
  exact ⟨w', w'', hr, hr', hP⟩

end World

end Ulfm
