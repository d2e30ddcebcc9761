import Ulfm.Tuned.AllgatherRounds

/-!
# The allgather along a ring

In every step a process passes on the block that came last. The ranks are added as an `int`, so
there is a bound on the number of processes.
-/

namespace Ulfm

open Script Nat

variable {E : Type}

section Schedule

variable {n p : ℕ}

/-- The blocks go around from the left to the right. -/
def ringSchedule (n : ℕ) : Schedule where
  dest p _ := sendToRight p n
  source p _ := recvFromLeft p n
  first p t := leftOf p n t
  into p t := leftOf p n (t + 1)
  count _ := 1
  blk p t _ := leftOf p n t
  place p t s := if ∃ j < t + 1, leftOf p n j = s then some s else none

theorem ringSchedule_place_zero (hp : p < n) (s : ℕ) :
    (ringSchedule n).place p 0 s = if s = p then some p else none := by
  have hiff : (∃ j < 0 + 1, leftOf p n j = s) ↔ s = p := by
    constructor
    · rintro ⟨j, hj, rfl⟩
      obtain rfl : j = 0 := by omega
      exact leftOf_zero hp
    · rintro rfl
      exact ⟨0, Nat.zero_lt_one, leftOf_zero hp⟩
  simp only [ringSchedule, hiff]
  split_ifs with h
  · rw [h]
  · rfl

theorem ringSchedule_place_last (hp : p < n) {s : ℕ} (hs : s < n) :
    (ringSchedule n).place p (n - 1) s = some s := by
  obtain ⟨j, hj, hjs⟩ := exists_leftOf hp hs
  exact if_pos ⟨j, by omega, hjs⟩

theorem valid_ringSchedule (hn : 0 < n) : (ringSchedule n).Valid n (n - 1) where
  dest_lt p hp t ht := sendToRight_lt hn
  source_lt p hp t ht := recvFromLeft_lt hn
  matched p hp q hq t ht := sendToRight_eq_iff hp hq
  sends p hp t ht i hi := by
    obtain rfl : i = 0 := lt_one_iff.1 hi
    exact if_pos ⟨t, lt_succ_self t, rfl⟩
  receives p hp t ht s := by
    change (if ∃ j < t + 1 + 1, leftOf p n j = s then some s else none) =
      if leftOf p n (t + 1) ≤ s ∧ s < leftOf p n (t + 1) + 1 then
        some (leftOf (recvFromLeft p n) n t)
      else if ∃ j < t + 1, leftOf p n j = s then some s else none
    by_cases hs : leftOf p n (t + 1) = s
    · rw [if_pos ⟨t + 1, lt_succ_self _, hs⟩, if_pos ⟨hs.le, hs ▸ lt_succ_self _⟩,
        leftOf_recvFromLeft hp (by omega), hs]
    · have hne : ¬(leftOf p n (t + 1) ≤ s ∧ s < leftOf p n (t + 1) + 1) := by omega
      rw [if_neg hne]
      simp only [exists_lt_succ_right, hs, or_false]

theorem sendToRight_ne (hp : p < n) (hn : 1 < n) : sendToRight p n ≠ p := by
  rw [sendToRight]
  rcases Nat.lt_or_ge (p + 1) n with hlt | hge
  · rw [mod_eq_of_lt hlt]
    exact Nat.succ_ne_self p
  · rw [show p + 1 = n by omega, mod_self]
    omega

end Schedule

namespace AllgatherCall

variable {r : AllgatherCall E} {p : ℕ}

theorem follows_ring (hp : p < r.size) (hsize : r.size ≤ 2 ^ 30) :
    ∃ buf, Follows (r.args p).allgatherIntraRing ((List.range' 0 (r.size - 1)).flatMap
      ((ringSchedule r.size).events r.rcount r.data p)) buf ∧
        Laid r.rcount r.data ((ringSchedule r.size).place p (r.size - 1)) buf := by
  have hint : ¬(1 < (r.args p).size ∧ 2 ^ 31 ≤ (r.args p).rank + (r.args p).size) := by
    change ¬(1 < r.size ∧ 2 ^ 31 ≤ p + r.size)
    omega
  rw [AllgatherArgs.allgatherIntraRing, if_neg hint]
  have hloop := fun hbody hst => @follows_foldlM _ _ (r.args p).ringStep 0 (r.size - 1)
    ((ringSchedule r.size).events r.rcount r.data p)
    (fun t buf => Laid r.rcount r.data ((ringSchedule r.size).place p t) buf) hbody
    (r.args p).ownBlock hst
  rw [Nat.zero_add] at hloop
  apply hloop
  · intro t buf _ ht hbuf
    have hcount : (ringSchedule r.size).count t * r.rcount < 2 ^ 31 := by
      change 1 * r.rcount < 2 ^ 31
      rw [Nat.one_mul]
      exact r.rcountInt
    have hround := (valid_ringSchedule r.sizePos).follows_round hp ht
      (sendToRight_ne hp (by omega)) hcount hbuf
    simp only [ringSchedule, Nat.one_mul] at hround
    exact hround
  · rw [funext (ringSchedule_place_zero hp)]
    exact laid_ownBlock

theorem correct_ring_iff :
    (r.Correct fun p => (r.args p).allgatherIntraRing) ↔ r.size ≤ 2 ^ 30 := by
  constructor
  · intro h
    by_contra hsize
    refine not_correct_of_neverReturns (p := r.size - 1) (sub_lt r.sizePos Nat.one_pos) ?_ h
    have hint : 1 < (r.args (r.size - 1)).size ∧
        2 ^ 31 ≤ (r.args (r.size - 1)).rank + (r.args (r.size - 1)).size := by
      change 1 < r.size ∧ 2 ^ 31 ≤ r.size - 1 + r.size
      omega
    rw [AllgatherArgs.allgatherIntraRing, if_pos hint]
    trivial
  · intro hsize
    exact correct_of_schedule (valid_ringSchedule r.sizePos)
      (fun p hp s hs => ringSchedule_place_last hp hs) fun p hp => follows_ring hp hsize

end AllgatherCall

end Ulfm
