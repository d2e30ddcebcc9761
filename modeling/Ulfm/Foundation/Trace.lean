import Mathlib.Data.List.Basic
import Mathlib.Data.List.Induction

/-!
# Runs of a machine and their logs

A machine is a function `step`; a run is a list of events. `Along step P s events`
says that every event of the run from `s` is taken in a state that allows it.
A machine may keep a log of what it has done, the newest entry first, and
`Logged P log` says that `P` holds of each entry and of the log at its time.
-/

namespace Ulfm

open List

section Runs

variable {σ ε : Type} {step : σ → ε → σ}

/-- Every event of the run meets `P` in the state before it. -/
def Along (step : σ → ε → σ) (P : σ → ε → Prop) : σ → List ε → Prop
  | _, [] => True
  | s, e :: events => P s e ∧ Along step P (step s e) events

instance Along.decidable {P : σ → ε → Prop} [∀ s e, Decidable (P s e)] :
    ∀ (s : σ) (events : List ε), Decidable (Along step P s events)
  | _, [] => isTrue trivial
  | s, e :: events => have := Along.decidable (P := P) (step s e) events
    inferInstanceAs (Decidable (P s e ∧ Along step P (step s e) events))

theorem Along.of_forall {P : σ → ε → Prop} (h : ∀ s e, P s e) (s : σ) (events : List ε) :
    Along step P s events := by
  induction events generalizing s with
  | nil => exact trivial
  | cons e events ih => exact ⟨h s e, ih (step s e)⟩

theorem Along.and {P Q : σ → ε → Prop} {s : σ} {events : List ε} (h : Along step P s events)
    (h' : Along step Q s events) : Along step (fun s e => P s e ∧ Q s e) s events := by
  induction events generalizing s with
  | nil => exact trivial
  | cons e events ih => exact ⟨⟨h.1, h'.1⟩, ih h.2 h'.2⟩

theorem Along.invariant {P : σ → ε → Prop} {I : σ → Prop}
    (hstep : ∀ s e, I s → P s e → I (step s e)) {s : σ} {events : List ε} (h : I s)
    (hrun : Along step P s events) : I (events.foldl step s) := by
  induction events generalizing s with
  | nil => exact h
  | cons e events ih => exact ih (hstep s e h hrun.1) hrun.2

theorem Along.of_invariant {P Q : σ → ε → Prop} {I : σ → Prop}
    (hstep : ∀ s e, I s → P s e → I (step s e)) (hQ : ∀ s e, I s → P s e → Q s e) {s : σ}
    {events : List ε} (h : I s) (hrun : Along step P s events) : Along step Q s events := by
  induction events generalizing s with
  | nil => exact trivial
  | cons e events ih => exact ⟨hQ s e h hrun.1, ih (hstep s e h hrun.1) hrun.2⟩

/-- Where two conditions agree on every allowed step in a state of the invariant, which the
steps that meet them preserve, they agree on the run. -/
theorem Along.iff_of_invariant {P Q R : σ → ε → Prop} {I : σ → Prop}
    (hstep : ∀ s e, I s → P s e → R s e → I (step s e))
    (hiff : ∀ s e, I s → P s e → (Q s e ↔ R s e)) {s : σ} {events : List ε} (h : I s)
    (hrun : Along step P s events) : Along step Q s events ↔ Along step R s events := by
  induction events generalizing s with
  | nil => exact Iff.rfl
  | cons e events ih =>
    constructor
    · intro ⟨hq, hrest⟩
      have hr := (hiff s e h hrun.1).1 hq
      exact ⟨hr, (ih (hstep s e h hrun.1 hr) hrun.2).1 hrest⟩
    · intro ⟨hr, hrest⟩
      exact ⟨(hiff s e h hrun.1).2 hr, (ih (hstep s e h hrun.1 hr) hrun.2).2 hrest⟩

/-- Where a condition on the next event decides whether a property of the events so far
goes on, the property holds of every beginning of a run when every event meets it. -/
theorem forall_prefix_iff {P : List ε → Prop} {Q : List ε → ε → Prop} (hnil : P [])
    (hstep : ∀ earlier e, P earlier → (P (earlier ++ [e]) ↔ Q earlier e)) (events : List ε) :
    (∀ earlier, earlier <+: events → P earlier) ↔
      ∀ earlier e, earlier ++ [e] <+: events → Q earlier e := by
  constructor
  · intro hall earlier e hprefix
    have hearlier := hall earlier ((prefix_append earlier [e]).trans hprefix)
    exact (hstep earlier e hearlier).1 (hall _ hprefix)
  · intro hall earlier
    induction earlier using reverseRecOn with
    | nil => exact fun _ => hnil
    | append_singleton earlier e ih =>
      intro hprefix
      have hearlier := ih ((prefix_append earlier [e]).trans hprefix)
      exact (hstep earlier e hearlier).2 (hall earlier e hprefix)

end Runs

section Logs

variable {α : Type} {P : α → List α → Prop}

/-- `P` holds of each entry of a log and of the log before it. -/
def Logged (P : α → List α → Prop) : List α → Prop
  | [] => True
  | a :: earlier => P a earlier ∧ Logged P earlier

theorem Logged.append_of {log earlier : List α} (h : Logged P earlier)
    (hlog : ∀ a ∈ log, ∀ l, P a l) : Logged P (log ++ earlier) := by
  induction log with
  | nil => exact h
  | cons a log ih =>
    refine ⟨hlog a mem_cons_self _, ih fun b hb => hlog b (mem_cons_of_mem a hb)⟩

end Logs

end Ulfm
