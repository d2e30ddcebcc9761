import Ulfm.Request.Calls

/-!
# The lock and the counter of the wait functions

Every exit of the wait functions gives up `ompi_request_lock` and takes its count out of
`ompi_request_waiting`, but for one: `ompi_request_default_wait_any` returns from within
its loop when it finds a receive from any source that may not wait any longer.
-/

namespace Ulfm

open List Option Guard ArrayCall

namespace WaitState

section Loop

variable {Exit : Type} {pass : WaitState → WaitState × Option Exit} {env : List (List WaitEvent)}
  {w w₀ w' : WaitState} {exit : Exit}

/-- The states at the beginning of the passes of a loop. -/
def passes (pass : WaitState → WaitState × Option Exit) :
    List (List WaitEvent) → WaitState → List WaitState
  | [], w => [w]
  | batch :: env, w =>
    w :: if (pass w).2.isSome then [] else passes pass env ((pass w).1.applyAll batch)

theorem sleepLoop_of_some (hpass : pass w = (w', some exit)) :
    sleepLoop pass env w = some (w', exit) := by
  cases env with
  | nil | cons batch env => rw [sleepLoop, hpass]

theorem exists_pass (h : sleepLoop pass env w = some (w', exit)) :
    ∃ w₀ ∈ passes pass env w, pass w₀ = (w', some exit) := by
  induction env generalizing w with
  | nil =>
    rw [sleepLoop] at h
    rcases hpass : pass w with ⟨w₁, _ | e⟩
    · rw [hpass] at h
      cases h
    · rw [hpass] at h
      cases h
      exact ⟨w, mem_singleton_self w, hpass⟩
  | cons batch env ih =>
    rw [sleepLoop] at h
    rcases hpass : pass w with ⟨w₁, _ | e⟩
    · rw [hpass] at h
      obtain ⟨w₀, hw₀, heq⟩ := ih h
      refine ⟨w₀, ?_, heq⟩
      rw [passes, hpass]
      exact mem_cons_of_mem _ hw₀
    · rw [hpass] at h
      cases h
      refine ⟨w, ?_, hpass⟩
      rw [passes]
      exact mem_cons_self

theorem sleepLoop_of_mem (hmem : w₀ ∈ passes pass env w) (hpass : pass w₀ = (w', some exit)) :
    sleepLoop pass env w = some (w', exit) := by
  induction env generalizing w with
  | nil =>
    rw [passes, mem_singleton] at hmem
    rw [← hmem]
    exact sleepLoop_of_some hpass
  | cons batch env ih =>
    rw [passes, mem_cons] at hmem
    rcases hmem with rfl | hmem
    · exact sleepLoop_of_some hpass
    · rcases hfirst : pass w with ⟨w₁, _ | e⟩
      · rw [hfirst] at hmem
        rw [sleepLoop, hfirst]
        exact ih hmem
      · rw [hfirst] at hmem
        cases hmem

end Loop

section Guards

variable {g : Guard} {w : WaitState}

theorem innerBodyGuarded_eq (g : Guard) (w : WaitState) (start pending startFailed failed : Nat) :
    (innerBodyGuarded g w start pending startFailed failed).1 =
      innerBody w start pending startFailed failed ∧
    (innerBodyGuarded g w start pending startFailed failed).2 =
      match innerBody w start pending startFailed failed with
      | .finished .. => g.leave
      | .sleeping .. => g := by
  rw [innerBodyGuarded, innerBody]
  split_ifs
  · exact ⟨rfl, rfl⟩
  · simp only
    split_ifs
    · exact ⟨rfl, rfl⟩
    · exact ⟨rfl, rfl⟩

theorem outerLoopGuarded_eq (g : Guard) (w : WaitState) (completed failed : Nat) :
    (outerLoopGuarded g w completed failed).1 = outerLoop w completed failed ∧
    (outerLoopGuarded g w completed failed).2 =
      match outerLoop w completed failed with
      | .finished .. => g.leave
      | .sleeping .. => g := by
  rw [outerLoopGuarded, outerLoop]
  split_ifs
  · exact ⟨rfl, rfl⟩
  · apply innerBodyGuarded_eq

theorem settleGuarded_eq (g : Guard) (w : WaitState) (start pending startFailed : Nat) :
    (settleGuarded g w start pending startFailed).1 = settle w start pending startFailed ∧
    (settleGuarded g w start pending startFailed).2 =
      match settle w start pending startFailed with
      | .finished .. => g.leave
      | .sleeping .. => g := by
  rw [settleGuarded, settle]
  split_ifs
  · apply innerBodyGuarded_eq
  · apply outerLoopGuarded_eq

theorem waitLoopGuarded_eq (g : Guard) (env : List (List WaitEvent)) {s : Settled × Guard}
    (hs : s.2 = match s.1 with
      | .finished .. => g.leave
      | .sleeping .. => g) :
    waitLoopGuarded s env = (waitLoop s.1 env).map fun exit => (exit, g.leave) := by
  induction env generalizing s with
  | nil =>
    obtain ⟨_ | _, g'⟩ := s
    · obtain rfl : g' = g.leave := hs
      rfl
    · rfl
  | cons batch env ih =>
    obtain ⟨_ | ⟨w, start, pending, startFailed⟩, g'⟩ := s
    · obtain rfl : g' = g.leave := hs
      rfl
    · obtain rfl : g' = g := hs
      obtain ⟨hsettled, hguard⟩ := settleGuarded_eq g' (w.applyAll batch) start pending startFailed
      rw [waitLoopGuarded, waitLoop, ← hsettled]
      apply ih
      rw [hsettled]
      exact hguard

/-- `wait_all` without the lock and the counter is `requestDefaultWaitAll`, and it returns
either before it takes the lock or after it gave it up. -/
theorem waitCompletionGuarded_eq (g : Guard) (w : WaitState) (first : List WaitEvent)
    (env : List (List WaitEvent)) :
    ∃ g', (g' = g ∨ g' = g.enter.leave) ∧ waitCompletionGuarded g w first env =
        (w.waitCompletion first env).map fun exit => (exit, g') := by
  rw [waitCompletionGuarded, waitCompletion]
  split_ifs
  · exact ⟨g, .inl rfl, rfl⟩
  · exact ⟨g, .inl rfl, rfl⟩
  · simp only
    split_ifs
    · exact ⟨g.enter.leave, .inr rfl, rfl⟩
    · refine ⟨g.enter.leave, .inr rfl, ?_⟩
      obtain ⟨hsettled, hguard⟩ :=
        outerLoopGuarded_eq g.enter (w.applyAll first) (w.applyAll first).numCompleted 0
      rw [← hsettled]
      apply waitLoopGuarded_eq
      rw [hsettled]
      exact hguard

end Guards

section Any

variable {w : WaitState}

/-- The loop of `wait_any` comes to a receive from any source that may not wait any longer,
past requests that are inactive or may still wait. -/
def FindsPending (w : WaitState) (requests : List Request) : Prop :=
  ∃ l₁ r l₂, requests = l₁ ++ r :: l₂ ∧
    (∀ s ∈ l₁, s.state = .inactive ∨ s.complete = false ∧ (w.check s).2 = true) ∧
    r.state ≠ .inactive ∧ r.complete = false ∧ reportsPending (w.check r) = true

theorem findsPending_cons_of_passed {s : Request} {rest : List Request}
    (hs : s.state = .inactive ∨ s.complete = false ∧ (w.check s).2 = true) :
    w.FindsPending (s :: rest) ↔ w.FindsPending rest := by
  constructor
  · rintro ⟨l₁, r, l₂, hsplit, hpassed, hstate, hcomplete, hpending⟩
    cases l₁ with
    | nil =>
      obtain ⟨rfl, rfl⟩ := List.cons.inj hsplit
      rcases hs with hinactive | ⟨-, hok⟩
      · exact absurd hinactive hstate
      · rw [reportsPending, hok] at hpending
        cases hpending
    | cons a l₁ =>
      obtain ⟨rfl, rfl⟩ := List.cons.inj hsplit
      exact ⟨l₁, r, l₂, rfl, fun b hb => hpassed b (mem_cons_of_mem _ hb), hstate,
        hcomplete, hpending⟩
  · rintro ⟨l₁, r, l₂, rfl, hpassed, hrest⟩
    exact ⟨s :: l₁, r, l₂, rfl, forall_mem_cons.mpr ⟨hs, hpassed⟩, hrest⟩

theorem findsPending_cons_of_stopped {s : Request} {rest : List Request}
    (hstate : s.state ≠ .inactive) (hs : s.complete = true ∨ (w.check s).2 = false) :
    w.FindsPending (s :: rest) ↔ s.complete = false ∧ reportsPending (w.check s) = true := by
  constructor
  · rintro ⟨l₁, r, l₂, hsplit, hpassed, -, hcomplete, hpending⟩
    cases l₁ with
    | nil =>
      obtain ⟨rfl, rfl⟩ := List.cons.inj hsplit
      exact ⟨hcomplete, hpending⟩
    | cons a l₁ =>
      obtain ⟨rfl, rfl⟩ := List.cons.inj hsplit
      rcases hpassed s mem_cons_self with hinactive | ⟨hincomplete, hok⟩
      · exact absurd hinactive hstate
      · rw [hincomplete, hok] at hs
        simp at hs
  · rintro ⟨hcomplete, hpending⟩
    exact ⟨[], s, rest, rfl, by simp, hstate, hcomplete, hpending⟩

theorem waitAnyScan_pending_iff (w : WaitState) (i : Nat) (requests : List Request) :
    (∃ j, (w.waitAnyScan i requests).2 = some (.pending j)) ↔ w.FindsPending requests := by
  induction requests generalizing i with
  | nil =>
    constructor
    · rintro ⟨j, hj⟩
      cases hj
    · rintro ⟨l₁, r, l₂, hsplit, -⟩
      cases l₁ with
      | nil | cons a l₁ => cases hsplit
  | cons r rest ih =>
    rw [waitAnyScan]
    by_cases hinactive : r.state = .inactive
    · rw [if_pos hinactive, findsPending_cons_of_passed (.inl hinactive)]
      exact ih (i + 1)
    rw [if_neg hinactive]
    by_cases hcomplete : r.complete = true
    · rw [if_pos hcomplete, findsPending_cons_of_stopped hinactive (.inl hcomplete)]
      simp [hcomplete]
    rw [if_neg hcomplete]
    have hcomplete' : r.complete = false := eq_false_of_ne_true hcomplete
    simp only
    by_cases hok : (w.check r).2 = true
    · rw [if_pos hok, findsPending_cons_of_passed (.inr ⟨hcomplete', hok⟩)]
      exact ih (i + 1)
    have hok' : (w.check r).2 = false := eq_false_of_ne_true hok
    rw [if_neg hok, findsPending_cons_of_stopped hinactive (.inr hok'), reportsPending, hok']
    by_cases hpending : (w.check r).1.anySourcePending = true
    · simp [hpending, hcomplete']
    · simp [hpending]

theorem waitAnyPass_pending_iff (w : WaitState) :
    (∃ j, w.waitAnyPass.2 = some (.pending j)) ↔ w.FindsPending w.requests := by
  rw [← waitAnyScan_pending_iff w 0, waitAnyPass]
  simp only
  split_ifs with hall
  · constructor
    · rintro ⟨j, hj⟩
      cases hj
    · rintro ⟨j, hj⟩
      rw [hj] at hall
      cases hall.1
  · exact Iff.rfl

end Any

end WaitState

open WaitState

theorem Guard.enter_leave {g : Guard} (hg : g.locked = false) : g.enter.leave = g := by
  cases g
  simp_all [enter, leave]

/-- On return the lock is free and `ompi_request_waiting` is as it was, exactly unless
`wait_any` comes, in one of its passes, to a receive from any source that may not wait any
longer before it comes to a complete request. -/
theorem waiting_balanced_iff {c : ArrayCall} {w : WaitState} {g g' : Guard} {result : CallResult}
    (hg : g.locked = false) (h : c.run w g = some (result, g')) :
    (g'.locked = false ∧ g'.waiting = g.waiting) ↔
      ∀ env, c = .waitAny env → ∀ w' ∈ passes waitAnyPass env w, ¬ w'.FindsPending w'.requests := by
  have hbalanced : g' = g → ((g'.locked = false ∧ g'.waiting = g.waiting) ↔ True) := by
    rintro rfl
    exact iff_true_intro ⟨hg, rfl⟩
  cases c with
  | waitAny env =>
    rw [run, requestDefaultWaitAny, map_eq_some_iff] at h
    obtain ⟨⟨w', exit⟩, hloop, heq⟩ := h
    have hlast := exists_pass hloop
    have hfinds : (∃ i, exit = .pending i) ↔
        ∃ w₀ ∈ passes waitAnyPass env w, w₀.FindsPending w₀.requests := by
      constructor
      · rintro ⟨i, rfl⟩
        obtain ⟨w₀, hmem, hpass⟩ := hlast
        refine ⟨w₀, hmem, (waitAnyPass_pending_iff w₀).mp ⟨i, ?_⟩⟩
        rw [hpass]
      · rintro ⟨w₀, hmem, hpending⟩
        obtain ⟨i, hi⟩ := (waitAnyPass_pending_iff w₀).mpr hpending
        have hloop' := sleepLoop_of_mem hmem (show w₀.waitAnyPass = (_, some _) from
          Prod.ext rfl hi)
        rw [hloop'] at hloop
        exact ⟨i, (Prod.mk.inj (Option.some.inj hloop)).2.symm⟩
    have hgoal : (∀ env', ArrayCall.waitAny env = .waitAny env' →
        ∀ w' ∈ passes waitAnyPass env' w, ¬ w'.FindsPending w'.requests) ↔
          ¬ ∃ i, exit = .pending i := by
      rw [hfinds, not_exists]
      constructor
      · exact fun hall w₀ hw₀ => hall env rfl w₀ hw₀.1 hw₀.2
      · intro hnone env' henv w₀ hmem hpending
        cases henv
        exact hnone w₀ ⟨hmem, hpending⟩
    rw [hgoal]
    cases exit with
    | pending i =>
      obtain ⟨-, rfl⟩ := Prod.mk.inj heq
      refine iff_of_false (fun hlocked => ?_) fun hnone => hnone ⟨i, rfl⟩
      cases hlocked.1
    | inactive | found i r =>
      obtain ⟨-, rfl⟩ := Prod.mk.inj heq
      rw [hbalanced (enter_leave hg), true_iff]
      rintro ⟨i, hi⟩
      cases hi
  | wait env =>
    rw [run, requestDefaultWait] at h
    have hg' : g' = g := by
      split_ifs at h
      · exact (Prod.mk.inj (Option.some.inj h)).2.symm
      · rw [map_eq_some_iff] at h
        obtain ⟨exit, -, heq⟩ := h
        rw [← (Prod.mk.inj heq).2, enter_leave hg]
    simp [hbalanced hg']
  | waitAll statuses first env =>
    rw [run, requestDefaultWaitAllGuarded, map_eq_some_iff] at h
    obtain ⟨exit, hexit, heq⟩ := h
    have hg' : g' = g := by
      obtain ⟨g₁, hg₁, hcompletion⟩ := waitCompletionGuarded_eq g w first env
      rw [hcompletion, map_eq_some_iff] at hexit
      obtain ⟨exit₁, -, rfl⟩ := hexit
      rw [← (Prod.mk.inj heq).2]
      rcases hg₁ with hg₁ | hg₁
      · exact hg₁
      · exact hg₁.trans (enter_leave hg)
    simp [hbalanced hg']
  | waitSome statuses env =>
    rw [run, requestDefaultWaitSome, map_eq_some_iff] at h
    obtain ⟨exit, -, heq⟩ := h
    have hg' : g' = g := by rw [← (Prod.mk.inj heq).2, enter_leave hg]
    simp [hbalanced hg']
  | test progress | testAny | testAll | testSome statuses =>
    have hg' : g' = g := (Prod.mk.inj (Option.some.inj h)).2.symm
    simp [hbalanced hg']

/-- A receive from any source on a communicator on which a process has failed. -/
def brokenReceive : WaitState where
  requests := [⟨false, mpiSuccess, .active, false, none, false, .anySource, 5, false, some 0,
    false⟩]
  comms := fun _ => ⟨false, true, false, true, 0, fun r => r ≠ 1⟩
  ftEnabled := true
  completed := 0
  failed := 0

/-- The same receive, completed. -/
def completedReceive : WaitState :=
  { brokenReceive with requests := brokenReceive.requests.map fun r => { r with complete := true } }

theorem waiting_balanced_iff_any : ∃ result g',
    (ArrayCall.waitAny []).run completedReceive ⟨false, 3⟩ = some (result, g') ∧
      g'.locked = false ∧ g'.waiting = 3 := by
  have hrun : (ArrayCall.waitAny []).run completedReceive ⟨false, 3⟩ = some (_, ⟨false, 3⟩) := rfl
  refine ⟨_, _, hrun, (waiting_balanced_iff rfl hrun).2 ?_⟩
  rintro env henv w hw ⟨l₁, r, l₂, hsplit, -, -, hcomplete, -⟩
  cases henv
  have hr : r ∈ completedReceive.requests := by
    rw [← mem_singleton.mp hw, hsplit]
    simp
  rw [mem_singleton.mp hr] at hcomplete
  cases hcomplete

/-- On such a receive `wait_any` returns with the lock held. -/
theorem wait_any_keeps_lock : ¬ ∀ (c : ArrayCall) (w : WaitState) (g g' : Guard)
    (result : CallResult), g.locked = false → c.run w g = some (result, g') →
      g'.locked = false ∧ g'.waiting = g.waiting := by
  intro h
  have hlocked := (h (.waitAny []) brokenReceive ⟨false, 0⟩ ⟨true, 1⟩
    (.nothing mpiErrProcFailedPending [0] (brokenReceive.waitAnyPass.1).requests) rfl rfl).1
  cases hlocked

end Ulfm
