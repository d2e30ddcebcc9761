import Mathlib.Order.Interval.Finset.Nat

/-!
# Rounds of messages that stop early

Processes exchange messages in rounds, and a process that fails is missed by the
others from some round on. A piece of information goes from process to process, one
hop a round. In each of the rounds in which it reaches a new process, somebody fails
to receive it, so that a process which has missed few messages has not missed the
information either. A process that knows this says so in its messages, and may stop.
-/

namespace Ulfm

open Finset Nat

variable {ι : Type*}

/-- What a run leaves behind. The process `i` has taken the messages of the rounds
`1` to `taken i j` from `j`, and `knows i s` says that the message of `i` in the round
`s` tells that `i` knows. -/
structure Exchange (ι : Type*) where
  taken : ι → ι → ℕ
  knows : ι → ℕ → Prop

namespace Exchange

/-- Who holds a piece of information at the beginning of the round `s`. The process `i`
finds it by itself in the round `s` when `origin i s`. -/
def Holds (E : Exchange ι) (origin : ι → ℕ → Prop) : ℕ → ι → Prop
  | 0, _ => False
  | s + 1, i => E.Holds origin s i ∨ origin i s ∨ ∃ j, s ≤ E.taken i j ∧ E.Holds origin s j

/-- The first round at whose beginning a process holds the information. -/
def First (E : Exchange ι) (origin : ι → ℕ → Prop) (i : ι) (k : ℕ) : Prop :=
  E.Holds origin k i ∧ ∀ m < k, ¬E.Holds origin m i

variable {E : Exchange ι} {origin : ι → ℕ → Prop} {i j y : ι} {b k m r s : ℕ}

theorem Holds.mono (h : E.Holds origin s i) (hsr : s ≤ r) : E.Holds origin r i := by
  induction r, hsr using le_induction with
  | base => exact h
  | succ r _ ih => exact .inl ih

theorem Holds.forward (h : E.Holds origin s j) (htaken : s ≤ E.taken i j) :
    E.Holds origin (s + 1) i :=
  .inr (.inr ⟨j, htaken, h⟩)

theorem holds_of_origin (h : origin i s) : E.Holds origin (s + 1) i := .inr (.inl h)

theorem Holds.exists_origin (h : E.Holds origin s i) : ∃ j t, origin j t := by
  induction s generalizing i with
  | zero => exact h.elim
  | succ s ih =>
    rcases h with h | h | ⟨j, -, h⟩
    · exact ih h
    · exact ⟨i, s, h⟩
    · exact ih h

theorem Holds.exists_first (h : E.Holds origin s i) : ∃ k ≤ s, E.First origin i k := by
  classical
  have hex : ∃ k, E.Holds origin k i := ⟨s, h⟩
  exact ⟨Nat.find hex, find_le h, Nat.find_spec hex, fun m => Nat.find_min hex⟩

theorem First.unique (h : E.First origin i k) (h' : E.First origin i m) : k = m := by
  rcases lt_trichotomy k m with hlt | heq | hgt
  · exact absurd h.1 (h'.2 k hlt)
  · exact heq
  · exact absurd h'.1 (h.2 m hgt)

theorem holds_of_taken_eq {E' : Exchange ι} (h : E'.taken = E.taken) :
    E'.Holds origin s i ↔ E.Holds origin s i := by
  induction s generalizing i with
  | zero => exact Iff.rfl
  | succ s ih => simp only [Holds, h, ih]

theorem holds_succ_iff (htaken : ∀ j, E.taken i j < s) (horigin : ¬origin i s) :
    E.Holds origin (s + 1) i ↔ E.Holds origin s i := by
  refine ⟨fun h => ?_, .inl⟩
  rcases h with h | h | ⟨j, hj, -⟩
  · exact h
  · exact absurd h horigin
  · exact absurd (htaken j) (Nat.not_lt.2 hj)

section Chain

variable (hb : ∀ i s, origin i s → s < b)
include hb

theorem First.exists_pred (h : E.First origin i (k + 1)) (hk : b ≤ k) :
    ∃ j, E.First origin j k := by
  rcases h.1 with hholds | horigin | ⟨j, htaken, hj⟩
  · exact absurd hholds (h.2 k k.lt_succ_self)
  · exact absurd (hb i k horigin) (Nat.not_lt.2 hk)
  · refine ⟨j, hj, fun m hm hjm => h.2 (m + 1) (succ_lt_succ hm) ?_⟩
    exact hjm.forward ((Nat.le_of_lt hm).trans htaken)

theorem First.exists_at (h : E.First origin i k) (hbm : b ≤ m) (hmk : m ≤ k) :
    ∃ j, E.First origin j m := by
  induction k, hmk using le_induction generalizing i with
  | base => exact ⟨i, h⟩
  | succ k hmk ih =>
    obtain ⟨j, hj⟩ := h.exists_pred hb (hbm.trans hmk)
    exact ih hj

theorem First.exists_chain (h : E.First origin i k) (hmk : m ≤ k) :
    ∃ C : Finset ι, C.card = m + 1 - b ∧ ∀ j ∈ C, ∃ t, b ≤ t ∧ t ≤ m ∧ E.First origin j t := by
  classical
  have hex : ∀ t, ∃ j, b ≤ t → t ≤ m → E.First origin j t := by
    intro t
    by_cases ht : b ≤ t ∧ t ≤ m
    · obtain ⟨j, hj⟩ := h.exists_at hb ht.1 (ht.2.trans hmk)
      exact ⟨j, fun _ _ => hj⟩
    · exact ⟨i, fun h1 h2 => absurd ⟨h1, h2⟩ ht⟩
  choose f hf using hex
  have hfirst : ∀ t ∈ Finset.Icc b m, E.First origin (f t) t := by
    intro t ht
    rw [mem_Icc] at ht
    exact hf t ht.1 ht.2
  refine ⟨(Finset.Icc b m).image f, ?_, fun j hj => ?_⟩
  · rw [Finset.card_image_of_injOn, card_Icc]
    intro t ht t' ht' heq
    have h1 := hfirst t ht
    rw [heq] at h1
    exact h1.unique (hfirst t' ht')
  · obtain ⟨t, ht, rfl⟩ := mem_image.1 hj
    exact ⟨t, (mem_Icc.1 ht).1, (mem_Icc.1 ht).2, hfirst t ht⟩

end Chain

/-- A change at `i` in the round `r` and later is not seen by the others, as long as
nobody has taken a later message of `i`. -/
theorem holds_congr {E' : Exchange ι} {origin' : ι → ℕ → Prop}
    (hother : ∀ j, j ≠ i → E'.taken j = E.taken j ∧ origin' j = origin j)
    (htaken : ∀ s < r, ∀ j, s ≤ E'.taken i j ↔ s ≤ E.taken i j)
    (horigin : ∀ s < r, origin' i s ↔ origin i s) (hlast : ∀ j, j ≠ i → E.taken j i ≤ r)
    (hs : j ≠ i ∨ s ≤ r) : E'.Holds origin' s j ↔ E.Holds origin s j := by
  induction s generalizing j with
  | zero => exact Iff.rfl
  | succ s ih =>
    have hj : E'.Holds origin' s j ↔ E.Holds origin s j := ih (hs.imp_right le_of_succ_le)
    rcases eq_or_ne j i with rfl | hne
    · have hsr : s < r := hs.resolve_left fun h => h rfl
      simp only [Holds, hj, horigin s hsr, htaken s hsr, fun l => ih (j := l) (.inr hsr.le)]
    · have hsource : ∀ l, s ≤ E.taken j l → (E'.Holds origin' s l ↔ E.Holds origin s l) := by
        intro l hl
        rcases eq_or_ne l i with rfl | hli
        · exact ih (.inr (hl.trans (hlast j hne)))
        · exact ih (.inl hli)
      simp only [Holds, hj, (hother j hne).1, (hother j hne).2]
      refine or_congr_right (or_congr_right (exists_congr fun l => ?_))
      exact and_congr_right (hsource l)

variable [Fintype ι]

theorem First.le_card (hstart : ∀ i s, origin i s → s < 1) (h : E.First origin i k) :
    k ≤ Fintype.card ι := by
  obtain ⟨C, hcard, -⟩ := h.exists_chain hstart (le_refl k)
  have hle := C.card_le_univ
  omega

variable [DecidableEq ι]

/-- The processes whose message of the round `r` the process `i` has not taken. -/
def missing (E : Exchange ι) (i : ι) (r : ℕ) : Finset ι :=
  Finset.univ.filter fun j => j ≠ i ∧ E.taken i j < r

/-- A process knows when it is told so, or when it misses few messages. -/
structure Sound (E : Exchange ι) : Prop where
  two_le : ∀ i s, E.knows i s → 2 ≤ s
  rule : ∀ i r, E.knows i (r + 1) →
    (∃ j s, s ≤ r ∧ s ≤ E.taken i j ∧ E.knows j s) ∨ (E.missing i r).card + 2 ≤ r

theorem mem_missing_of_holds (hi : ¬E.Holds origin (r + 1) i) (hy : E.Holds origin r y) :
    y ∈ E.missing i r := by
  refine mem_filter.2 ⟨mem_univ y, fun h => ?_, not_le.1 fun h => hi (hy.forward h)⟩
  rw [h] at hy
  exact hi (hy.mono r.le_succ)

/-- What makes a process that knows miss nothing: the information has not reached more
processes than there are messages missing, with one to spare. -/
def Slack (E : Exchange ι) (origin : ι → ℕ → Prop) : Prop :=
  ∀ i r z k, ¬E.Holds origin (r + 1) i → E.First origin z k → min k r ≤ (E.missing i r).card + 1

theorem slack_of_start (hstart : ∀ i s, origin i s → s < 1) : E.Slack origin := by
  intro i r z k hi hz
  obtain ⟨C, hcard, hC⟩ := hz.exists_chain hstart (Nat.min_le_left k r)
  have hsub : C ⊆ E.missing i r := by
    intro y hy
    obtain ⟨t, -, ht, hfirst⟩ := hC y hy
    exact mem_missing_of_holds hi (hfirst.1.mono (ht.trans (Nat.min_le_right k r)))
  have hle := card_le_card hsub
  omega

namespace Sound

variable (hE : E.Sound) (hslack : E.Slack origin)
include hE hslack

/-- If a process knows and does not hold the information, then the information has not
reached anybody in the last rounds. -/
theorem first_lt (hknows : E.knows i (r + 1)) (hi : ¬E.Holds origin (r + 1) i)
    (hy : E.First origin y k) : k < r := by
  induction r using Nat.strong_induction_on generalizing i with
  | _ r ih =>
    rcases hE.rule i r hknows with ⟨j, s, hsr, htaken, hj⟩ | hcard
    · have htwo := hE.two_le j s hj
      obtain ⟨t, rfl⟩ : ∃ t, s = t + 1 := ⟨s - 1, by omega⟩
      have hlt := ih t (by omega) hj fun h => hi ((h.forward htaken).mono (by omega))
      omega
    · have hmin := hslack i r y k hi hy
      omega

theorem holds_of_knows (hknows : E.knows i s) (hy : E.First origin y k) (hsk : s ≤ k + 1) :
    E.Holds origin s i := by
  by_contra hi
  have htwo := hE.two_le i s hknows
  obtain ⟨r, rfl⟩ : ∃ r, s = r + 1 := ⟨s - 1, by omega⟩
  have hlt := hE.first_lt hslack hknows hi hy
  omega

end Sound

end Exchange

end Ulfm
