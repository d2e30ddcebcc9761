import Ulfm.Tuned.AllgatherBruck
import Ulfm.Tuned.Folding

/-!
# The allgather by recursive doubling

Before a step a process has the blocks of an aligned group of processes, and it exchanges them
with a process of the neighbouring group.
-/

namespace Ulfm

open Script AllgatherArgs Nat

variable {E : Type}

section Schedule

variable {L p t s : ℕ}

def doublingSchedule : Schedule where
  dest p t := p ^^^ 2 ^ t
  source p t := p ^^^ 2 ^ t
  first p t := p / 2 ^ t * 2 ^ t
  into p t := (p ^^^ 2 ^ t) / 2 ^ t * 2 ^ t
  count t := 2 ^ t
  blk p t i := p / 2 ^ t * 2 ^ t + i
  place p t s := if s / 2 ^ t = p / 2 ^ t then some s else none

theorem mem_group_iff {d : ℕ} (hd : 0 < d) (g : ℕ) : g * d ≤ s ∧ s < g * d + d ↔ s / d = g := by
  rw [Nat.div_eq_iff hd]
  omega

theorem valid_doublingSchedule (L : ℕ) : doublingSchedule.Valid (2 ^ L) L where
  dest_lt p hp t ht := xor_lt_two_pow hp (Nat.pow_lt_pow_right Nat.one_lt_two ht)
  source_lt p hp t ht := xor_lt_two_pow hp (Nat.pow_lt_pow_right Nat.one_lt_two ht)
  matched p hp q hq t ht := xor_eq_iff
  sends p hp t ht i hi := by
    have hi : i < 2 ^ t := hi
    change (if (p / 2 ^ t * 2 ^ t + i) / 2 ^ t = p / 2 ^ t then some (p / 2 ^ t * 2 ^ t + i)
      else none) = some (p / 2 ^ t * 2 ^ t + i)
    rw [if_pos ((mem_group_iff (Nat.two_pow_pos t) _).1 ⟨Nat.le_add_right _ _, by omega⟩)]
  receives p hp t ht s := by
    change (if s / 2 ^ (t + 1) = p / 2 ^ (t + 1) then some s else none) =
      if (p ^^^ 2 ^ t) / 2 ^ t * 2 ^ t ≤ s ∧ s < (p ^^^ 2 ^ t) / 2 ^ t * 2 ^ t + 2 ^ t then
        some ((p ^^^ 2 ^ t) / 2 ^ t * 2 ^ t + (s - (p ^^^ 2 ^ t) / 2 ^ t * 2 ^ t))
      else if s / 2 ^ t = p / 2 ^ t then some s else none
    rw [pow_succ, ← Nat.div_div_eq_div_mul, ← Nat.div_div_eq_div_mul]
    simp only [div_two_eq_iff, mem_group_iff (Nat.two_pow_pos t), xor_two_pow_div]
    by_cases hs : s / 2 ^ t = p / 2 ^ t ^^^ 1
    · rw [if_pos (Or.inl hs), if_pos hs, ← hs, Nat.add_sub_cancel' (div_mul_le_self s _)]
    · simp only [hs, false_or, if_false]

theorem doublingSchedule_place_zero (p s : ℕ) :
    doublingSchedule.place p 0 s = if s = p then some p else none := by
  change (if s / 2 ^ 0 = p / 2 ^ 0 then some s else none) = _
  rw [pow_zero, Nat.div_one, Nat.div_one]
  split_ifs with h
  · rw [h]
  · rfl

theorem doublingSchedule_place_last (hp : p < 2 ^ L) (hs : s < 2 ^ L) :
    doublingSchedule.place p L s = some s :=
  if_pos (by rw [div_eq_of_lt hs, div_eq_of_lt hp])

end Schedule

namespace AllgatherArgs

variable {a : AllgatherArgs E} {t : ℕ} {rbuf : Buf (Option E)}

theorem doublingStep_eq : a.doublingStep (2 ^ t) (a.rank / 2 ^ t * 2 ^ t, rbuf) =
    tunedSendrecv a.rank (a.rank ^^^ 2 ^ t) (a.rank ^^^ 2 ^ t)
      (a.rank / 2 ^ t * 2 ^ t * a.rcount) (2 ^ t * a.rcount)
      ((a.rank ^^^ 2 ^ t) / 2 ^ t * 2 ^ t * a.rcount) (2 ^ t * a.rcount) rbuf >>=
        fun rbuf => pure (a.rank / 2 ^ (t + 1) * 2 ^ (t + 1), rbuf) := by
  have hhalf : a.rank / 2 ^ (t + 1) * 2 ^ (t + 1) = a.rank / 2 ^ t / 2 * 2 * 2 ^ t := by
    rw [pow_succ, ← Nat.div_div_eq_div_mul, Nat.mul_comm (2 ^ t) 2, Nat.mul_assoc]
  rw [doublingStep, hhalf, xor_two_pow_div]
  have hpos : 0 < 2 ^ t := Nat.two_pow_pos t
  rcases even_or_odd (a.rank / 2 ^ t) with hbit | hbit
  · have hlt : a.rank < a.rank ^^^ 2 ^ t := by
      rw [xor_two_pow_of_even hbit]
      exact Nat.lt_add_of_pos_right hpos
    rw [if_pos hlt, xor_one_of_even hbit, Nat.div_mul_cancel hbit.two_dvd, succ_mul]
  · have hge : ¬a.rank < a.rank ^^^ 2 ^ t := by
      rw [not_lt]
      exact (Nat.le_add_right _ _).trans (xor_two_pow_of_odd hbit).le
    have heven : a.rank / 2 ^ t / 2 * 2 = a.rank / 2 ^ t - 1 := by
      rw [odd_iff] at hbit
      omega
    rw [if_neg hge, xor_one_of_odd hbit, heven, Nat.sub_mul _ 1, Nat.one_mul]

theorem neverReturns_doublingStep (hge : 2 ^ 31 ≤ 2 ^ t * a.rcount)
    (hlt : 2 ^ t * a.rcount < 2 ^ 32) (st : ℕ × Buf (Option E)) :
    NeverReturns (a.doublingStep (2 ^ t) st) := by
  rw [doublingStep]
  simp only [tunedSendrecv_fault hge hlt]
  exact .ite trivial trivial

theorem nextPowerOfTwo_ge_iff {n : ℕ} : 2 ^ 31 ≤ nextPowerOfTwo n ↔ 2 ^ 30 ≤ n := by
  rw [nextPowerOfTwo_eq, Nat.pow_le_pow_iff_right Nat.one_lt_two]
  exact lt_size

theorem neverReturns_recursivedoubling_of_size (h : 2 ^ 30 ≤ a.size) :
    NeverReturns a.allgatherIntraRecursivedoubling := by
  rw [allgatherIntraRecursivedoubling, if_pos (nextPowerOfTwo_ge_iff.2 h)]
  trivial

theorem recursivedoubling_eq_bruck (h : a.size < 2 ^ 30)
    (hne : nextPowerOfTwo a.size >>> 1 ≠ a.size) :
    a.allgatherIntraRecursivedoubling = a.allgatherIntraBruck := by
  rw [allgatherIntraRecursivedoubling, if_neg fun hge => h.not_ge (nextPowerOfTwo_ge_iff.1 hge),
    if_pos hne]

theorem recursivedoubling_eq_loop (h : a.size < 2 ^ 30)
    (heq : nextPowerOfTwo a.size >>> 1 = a.size) :
    a.allgatherIntraRecursivedoubling =
      forDoubling a.size a.doublingStep (a.size + 1) 1 (a.rank, a.ownBlock) >>=
        fun st => pure st.2 := by
  rw [allgatherIntraRecursivedoubling, if_neg fun hge => h.not_ge (nextPowerOfTwo_ge_iff.1 hge),
    if_neg (not_not.2 heq)]

end AllgatherArgs

namespace AllgatherCall

variable {r : AllgatherCall E} {p t L : ℕ}

theorem follows_doublingStep (hL : r.size = 2 ^ L) (hp : p < r.size) (ht : t < L)
    (hcount : r.size / 2 * r.rcount < 2 ^ 31) {buf : Buf (Option E)}
    (h : Laid r.rcount r.data (doublingSchedule.place p t) buf) :
    ∃ buf', Follows ((r.args p).doublingStep (2 ^ t) (p / 2 ^ t * 2 ^ t, buf))
      (doublingSchedule.events r.rcount r.data p t) (p / 2 ^ (t + 1) * 2 ^ (t + 1), buf') ∧
        Laid r.rcount r.data (doublingSchedule.place p (t + 1)) buf' := by
  have hle : 2 ^ t ≤ r.size / 2 := by
    rw [hL, Nat.le_div_iff_mul_le Nat.two_pos, ← pow_succ]
    exact Nat.pow_le_pow_right Nat.two_pos ht
  rw [hL] at hp
  obtain ⟨buf', hround, hbuf'⟩ := (valid_doublingSchedule L).follows_round hp ht
    (xor_two_pow_ne p t) ((Nat.mul_le_mul_right _ hle).trans_lt hcount) h
  refine ⟨buf', ?_, hbuf'⟩
  have hstep := @doublingStep_eq _ (r.args p) t buf
  change (r.args p).doublingStep (2 ^ t) (p / 2 ^ t * 2 ^ t, buf) = _ at hstep
  rw [hstep]
  exact hround.bind_pure (follows_pure _)

theorem follows_recursivedoubling (hL : r.size = 2 ^ L) (hsize : r.size < 2 ^ 30)
    (heq : nextPowerOfTwo r.size >>> 1 = r.size) (hcount : r.size / 2 * r.rcount < 2 ^ 31)
    (hp : p < r.size) :
    ∃ buf, Follows (r.args p).allgatherIntraRecursivedoubling ((List.range' 0 L).flatMap
      (doublingSchedule.events r.rcount r.data p)) buf ∧
        Laid r.rcount r.data (doublingSchedule.place p L) buf := by
  have hdistance : ∀ t, t < L ↔ 2 ^ t < r.size := by
    intro t
    rw [hL, Nat.pow_lt_pow_iff_right Nat.one_lt_two]
  have hfuel : L < r.size + 1 := by
    rw [hL]
    exact lt_succ_of_lt Nat.lt_two_pow_self
  have hown : Laid r.rcount r.data (doublingSchedule.place p 0) (r.args p).ownBlock := by
    rw [funext (doublingSchedule_place_zero p)]
    exact laid_ownBlock
  obtain ⟨⟨loc, buf⟩, hfollows, -, hbuf⟩ := follows_forDoubling
    (doublingSchedule.events r.rcount r.data p)
    (fun t st => st.1 = p / 2 ^ t * 2 ^ t ∧ Laid r.rcount r.data (doublingSchedule.place p t) st.2)
    hdistance
    (fun t st ht hst => by
      obtain ⟨loc, buf⟩ := st
      obtain ⟨rfl, hbuf⟩ := hst
      obtain ⟨buf', hstep, hbuf'⟩ := follows_doublingStep hL hp ht hcount hbuf
      exact ⟨_, hstep, rfl, hbuf'⟩)
    hfuel (p, (r.args p).ownBlock)
    ⟨by rw [pow_zero, Nat.div_one, Nat.mul_one], hown⟩
  refine ⟨buf, ?_, hbuf⟩
  rw [recursivedoubling_eq_loop (a := r.args p) hsize heq]
  exact hfollows.bind_pure (follows_pure _)

theorem exists_negative_count {rc m : ℕ} (hrc : rc < 2 ^ 31) (h : 2 ^ 31 ≤ 2 ^ m * rc) :
    ∃ t ≤ m, 2 ^ 31 ≤ 2 ^ t * rc ∧ 2 ^ t * rc < 2 ^ 32 := by
  induction m with
  | zero =>
    rw [pow_zero, Nat.one_mul] at h
    exact absurd hrc h.not_gt
  | succ m ih =>
    rcases Nat.lt_or_ge (2 ^ m * rc) (2 ^ 31) with hlt | hge
    · refine ⟨m + 1, le_rfl, h, ?_⟩
      rw [pow_succ, Nat.mul_right_comm]
      omega
    · obtain ⟨t, ht, hcount⟩ := ih hge
      exact ⟨t, ht.trans (le_succ m), hcount⟩

theorem exists_negative_step {n rc : ℕ} (hn : n = 2 ^ L) (hrc : rc < 2 ^ 31)
    (h : 2 ^ 31 ≤ n / 2 * rc) : ∃ t, 2 ^ t < n ∧ 2 ^ 31 ≤ 2 ^ t * rc ∧ 2 ^ t * rc < 2 ^ 32 := by
  cases L with
  | zero =>
    rw [hn, pow_zero, div_eq_of_lt Nat.one_lt_two, Nat.zero_mul] at h
    exact absurd h (by decide)
  | succ m =>
    have hhalf : n / 2 = 2 ^ m := by
      rw [hn, pow_succ, Nat.mul_div_cancel _ Nat.two_pos]
    rw [hhalf] at h
    obtain ⟨t, ht, hcount⟩ := exists_negative_count hrc h
    refine ⟨t, ?_, hcount⟩
    rw [hn]
    exact Nat.pow_lt_pow_right Nat.one_lt_two (lt_succ_of_le ht)

/-- The algorithm is correct as long as the longest message is short enough. If the size is no power
of two, it is the algorithm of Bruck. -/
theorem correct_recursivedoubling_iff :
    (r.Correct fun p => (r.args p).allgatherIntraRecursivedoubling) ↔ r.size < 2 ^ 30 ∧
      if nextPowerOfTwo r.size >>> 1 = r.size then r.size / 2 * r.rcount < 2 ^ 31
      else (r.size - 1) * r.rcount < 2 ^ 31 ∧ r.ShiftFits := by
  rcases Nat.lt_or_ge r.size (2 ^ 30) with hsize | hsize
  · rw [and_iff_right hsize]
    split_ifs with heq
    · have hL : r.size = 2 ^ (r.size.size - 1) := by
        rw [← nextPowerOfTwo_shiftRight r.sizePos, heq]
      constructor
      · intro h
        by_contra hcount
        rw [not_lt] at hcount
        obtain ⟨t, hlt, hneg⟩ := exists_negative_step hL r.rcountInt hcount
        refine not_correct_of_neverReturns r.sizePos ?_ h
        rw [recursivedoubling_eq_loop (a := r.args 0) hsize heq]
        apply Script.NeverReturns.bind_left
        apply neverReturns_forDoubling hlt
        exact neverReturns_doublingStep (a := r.args 0) hneg.1 hneg.2
      · intro hcount
        have hvalid := valid_doublingSchedule (r.size.size - 1)
        rw [← hL] at hvalid
        refine correct_of_schedule hvalid (fun p hp s hs => ?_) fun p hp =>
          follows_recursivedoubling hL hsize heq hcount hp
        rw [hL] at hp hs
        exact doublingSchedule_place_last hp hs
    · have hprog : (fun p => (r.args p).allgatherIntraRecursivedoubling) =
          fun p => (r.args p).allgatherIntraBruck :=
        funext fun p => recursivedoubling_eq_bruck (a := r.args p) hsize heq
      rw [hprog]
      exact correct_bruck_iff.trans (and_iff_right hsize.le)
  · constructor
    · intro h
      exact absurd h (not_correct_of_neverReturns r.sizePos
        (neverReturns_recursivedoubling_of_size (a := r.args 0) hsize))
    · intro h
      exact absurd h.1 hsize.not_gt

end AllgatherCall

end Ulfm
