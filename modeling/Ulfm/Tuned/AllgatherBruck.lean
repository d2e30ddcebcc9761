import Ulfm.Tuned.AllgatherRounds

/-!
# The allgather of Bruck

Before the last step a process has the blocks behind its own one, at the beginning of the
receive buffer. The blocks are then rotated to their places with the copies of the library for
the data, which go wrong for a count that is no `int32_t`.
-/

namespace Ulfm

open Script AllgatherArgs List Nat

variable {E : Type}

section Copy

variable {α : Type} {src : Buf α → Buf α} {soff doff count : ℕ} {dst : Buf α}

theorem copyContentSameDdt_of_lt (h : count < 2 ^ 31) :
    ∃ code, copyContentSameDdt src soff doff count dst =
      some (code, blit dst doff (slice (src dst) soff count)) := by
  cases count with
  | zero =>
    have hblit : blit dst doff (slice (src dst) soff 0) = dst := by
      funext j
      rw [slice, List.range'_zero, List.map_nil, blit]
      split_ifs <;> rfl
    rw [hblit]
    exact ⟨0, rfl⟩
  | succ count =>
    have hlength : min intMax (count + 1) = count + 1 := Nat.min_eq_right (le_sub_one_of_lt h)
    have hneg : ¬((count + 1 : ℕ) : ℤ) < 0 := (Int.natCast_nonneg _).not_gt
    have hzero : ((count + 1 : ℕ) : ℤ) ≠ 0 := Int.natCast_ne_zero.2 (succ_ne_zero _)
    rw [copyContentSameDdt, copyContentLoop, int32Count_of_lt h, if_neg hneg, if_neg hzero, hlength,
      Nat.sub_self, Int.toNat_natCast]
    exact ⟨0, by cases count <;> rfl⟩

theorem copyContentLoop_neg {fuel : ℕ} (h : 2 ^ 31 ≤ count) (hlt : count < 2 ^ 32) :
    copyContentLoop src soff doff fuel count dst = none := by
  obtain ⟨count, rfl⟩ := exists_eq_succ_of_ne_zero (Nat.ne_zero_of_lt h)
  cases fuel with
  | zero => rfl
  | succ fuel =>
    rw [copyContentLoop]
    exact if_pos (int32Count_neg h hlt)

theorem copyContentSameDdt_of_ge (h : 2 ^ 31 ≤ count) (hlt : count < 2 ^ 32 + intMax)
    (hne : count ≠ 2 ^ 32) : copyContentSameDdt src soff doff count dst = none := by
  rw [intMax] at hlt
  rw [copyContentSameDdt]
  rcases Nat.lt_or_ge count (2 ^ 32) with hcount | hcount
  · exact copyContentLoop_neg h hcount
  · obtain ⟨count, rfl⟩ := exists_eq_succ_of_ne_zero (Nat.ne_zero_of_lt h)
    have hlength : min intMax (count + 1) = intMax := by
      rw [intMax]
      exact Nat.min_eq_left (by omega)
    have hint : int32Count (count + 1) = ((count + 1 - 2 ^ 32 : ℕ) : ℤ) := by
      have hmod : (count + 1) % 2 ^ 32 = count + 1 - 2 ^ 32 := by
        rw [mod_eq_sub_mod hcount, mod_eq_of_lt (by omega)]
      rw [int32Count, hmod, if_pos (by omega)]
    have hpos : 0 < int32Count (count + 1) := by
      rw [hint]
      omega
    rw [copyContentLoop, if_neg hpos.not_gt, if_neg hpos.ne', hlength]
    apply copyContentLoop_neg
    · rw [intMax]
      omega
    · rw [intMax]
      omega

end Copy

section Schedule

variable {n p t : ℕ}

/-- The blocks behind the own one, as many as there are. -/
def bruckSchedule (n : ℕ) : Schedule where
  dest p t := leftOf p n (2 ^ t)
  source p t := (p + 2 ^ t) % n
  first _ _ := 0
  into _ t := 2 ^ t
  count t := min (2 ^ t) (n - 2 ^ t)
  blk p _ i := (p + i) % n
  place p t s := if s < min (2 ^ t) n then some ((p + s) % n) else none

/-- The steps with a distance below the size. -/
def log2Ceil (n : ℕ) : ℕ := (n - 1).size

theorem lt_log2Ceil (hn : 0 < n) : t < log2Ceil n ↔ 2 ^ t < n := by
  rw [log2Ceil, lt_size]
  omega

theorem le_two_pow_log2Ceil (hn : 0 < n) : n ≤ 2 ^ log2Ceil n :=
  not_lt.1 fun h => lt_irrefl _ ((lt_log2Ceil hn).2 h)

theorem log2Ceil_le (hn : 0 < n) : log2Ceil n ≤ n := by
  by_contra h
  exact absurd ((lt_log2Ceil hn).1 (not_le.1 h)) Nat.lt_two_pow_self.not_gt

theorem valid_bruckSchedule (hn : 0 < n) : (bruckSchedule n).Valid n (log2Ceil n) where
  dest_lt p hp t ht := leftOf_lt hn
  source_lt p hp t ht := mod_lt _ hn
  matched p hp q hq t ht := (add_mod_eq_iff hq hp ((lt_log2Ceil hn).1 ht)).symm
  sends p hp t ht i hi := by
    change (if 0 + i < min (2 ^ t) n then some ((p + (0 + i)) % n) else none) = some ((p + i) % n)
    have hlt : i < min (2 ^ t) (n - 2 ^ t) := hi
    rw [Nat.zero_add, if_pos (by omega)]
  receives p hp t ht s := by
    have hlt : 2 ^ t < n := (lt_log2Ceil hn).1 ht
    change (if s < min (2 ^ (t + 1)) n then some ((p + s) % n) else none) =
      if 2 ^ t ≤ s ∧ s < 2 ^ t + min (2 ^ t) (n - 2 ^ t) then
        some (((p + 2 ^ t) % n + (s - 2 ^ t)) % n)
      else if s < min (2 ^ t) n then some ((p + s) % n) else none
    rw [pow_succ]
    by_cases hs : 2 ^ t ≤ s ∧ s < 2 ^ t + min (2 ^ t) (n - 2 ^ t)
    · rw [if_pos hs, if_pos (by omega), mod_add_mod, Nat.add_assoc, Nat.add_sub_cancel' hs.1]
    · have hiff : s < min (2 ^ t * 2) n ↔ s < min (2 ^ t) n := by omega
      rw [if_neg hs]
      simp only [hiff]

theorem bruckSchedule_count_le (h : 2 ^ t < n) : (bruckSchedule n).count t ≤ n - 1 := by
  have hpos : 0 < 2 ^ t := Nat.two_pow_pos t
  exact (Nat.min_le_right _ _).trans (by omega)

theorem leftOf_ne {n d : ℕ} (hp : p < n) (hd : 0 < d) (hdn : d < n) : leftOf p n d ≠ p := by
  rw [leftOf_eq hp hdn.le]
  split_ifs
  · omega
  · omega

theorem last_counts {rc : ℕ} (hge : 2 ^ 31 ≤ (n - 1) * rc)
    (hstep : ∀ t, 2 ^ t < n → min (2 ^ t) (n - 2 ^ t) * rc < 2 ^ 31) (hrc : rc < 2 ^ 31) :
    1 < n ∧ (n - 1) * rc < 2 ^ 32 + intMax ∧ (n - 1) * rc ≠ 2 ^ 32 := by
  have hone : 1 < n := by
    by_contra hn
    rw [show n - 1 = 0 by omega, Nat.zero_mul] at hge
    exact absurd hge (by decide)
  -- the last step of the communication, and the one before it
  obtain ⟨m, hm⟩ : ∃ m, log2Ceil n = m + 1 :=
    exists_eq_succ_of_ne_zero (Nat.ne_zero_of_lt ((lt_log2Ceil (t := 0) (by omega)).2 hone))
  have hlast : 2 ^ m < n := (lt_log2Ceil (by omega)).1 (by omega)
  have hle : n ≤ 2 ^ m * 2 := by
    rw [← pow_succ, ← hm]
    exact le_two_pow_log2Ceil (by omega)
  have hcount := hstep m hlast
  rw [Nat.min_eq_right (by omega), Nat.sub_mul] at hcount
  cases m with
  | zero =>
    rw [show n - 1 = 1 by omega, Nat.one_mul] at hge
    exact absurd hrc hge.not_gt
  | succ k =>
    have hprev := hstep k ((Nat.pow_lt_pow_right Nat.one_lt_two (lt_succ_self k)).trans hlast)
    rw [pow_succ] at hlast hle hcount
    rw [Nat.min_eq_left (by omega)] at hprev
    refine ⟨hone, ?_, fun heq => ?_⟩
    · rw [Nat.sub_mul, intMax]
      rw [Nat.mul_right_comm] at hcount
      omega
    · -- the size is the successor of a power of two
      obtain ⟨j, -, hj⟩ := (Nat.dvd_prime_pow prime_two).1 (Dvd.intro rc heq)
      have hge' : k + 1 ≤ j := by
        apply (Nat.pow_le_pow_iff_right Nat.one_lt_two).1
        rw [← hj, pow_succ]
        omega
      have hlt' : j < k + 1 + 1 := by
        apply (Nat.pow_lt_pow_iff_right Nat.one_lt_two).1
        rw [← hj, pow_succ, pow_succ]
        omega
      rw [hj, show j = k + 1 by omega, pow_succ, Nat.mul_right_comm] at heq
      omega

end Schedule

namespace AllgatherArgs

variable {a : AllgatherArgs E} {distance : ℕ} {rbuf : Buf (Option E)}

theorem blockcount_eq (h : distance < a.size) :
    (if distance ≤ a.size >>> 1 then distance else a.size - distance) =
      min distance (a.size - distance) := by
  rw [shiftRight_eq_div_pow, pow_one]
  split_ifs with hle
  · exact (Nat.min_eq_left (by omega)).symm
  · exact (Nat.min_eq_right (by omega)).symm

theorem bruckStep_eq (hrank : a.rank < a.size) (hsize : a.size ≤ 2 ^ 30) (hpos : 0 < distance)
    (hlt : distance < a.size) (hcount : min distance (a.size - distance) * a.rcount < 2 ^ 31) :
    a.bruckStep distance rbuf = tunedSendrecv a.rank (leftOf a.rank a.size distance)
      ((a.rank + distance) % a.size) 0 (min distance (a.size - distance) * a.rcount)
      (distance * a.rcount) (min distance (a.size - distance) * a.rcount) rbuf := by
  have hint : ¬(2 ^ 31 ≤ a.rank + distance ∨ 2 ^ 31 ≤ a.rank + a.size - distance) := by omega
  have hshift : ¬2 ^ 31 ≤ distance <<< 1 := by
    rw [shiftLeft_eq, pow_one]
    omega
  rw [bruckStep, if_neg hint]
  dsimp only
  rw [blockcount_eq hlt, if_neg hcount.not_ge]
  simp only [if_neg hshift]
  exact bind_pure _

theorem neverReturns_bruckStep_count (hlt : distance < a.size)
    (hcount : 2 ^ 31 ≤ min distance (a.size - distance) * a.rcount) :
    NeverReturns (a.bruckStep distance rbuf) := by
  rw [bruckStep]
  dsimp only
  rw [blockcount_eq hlt, if_pos hcount]
  exact .ite trivial trivial

theorem neverReturns_bruckStep_distance (h : 2 ^ 30 ≤ distance) :
    NeverReturns (a.bruckStep distance rbuf) := by
  have hshift : 2 ^ 31 ≤ distance <<< 1 := by
    rw [shiftLeft_eq, pow_one]
    omega
  rw [bruckStep]
  simp only [if_pos hshift]
  exact .ite trivial (.ite trivial (neverReturns_bind _ fun _ => trivial))

theorem neverReturns_bruck_of_step {t : ℕ} (ht : 2 ^ t < a.size)
    (h : ∀ rbuf, NeverReturns (a.bruckStep (2 ^ t) rbuf)) : NeverReturns a.allgatherIntraBruck := by
  rw [allgatherIntraBruck]
  cases a.firstBlock with
  | none => trivial
  | some rbuf => exact (neverReturns_forDoubling ht h _ _).bind_left _

theorem neverReturns_bruck_of_distance {t : ℕ} (h : 30 ≤ t) (ht : 2 ^ t < a.size) :
    NeverReturns a.allgatherIntraBruck :=
  neverReturns_bruck_of_step ht fun _ =>
    neverReturns_bruckStep_distance (Nat.pow_le_pow_right Nat.two_pos h)

theorem neverReturns_bruck_of_copy (hrank : a.rank ≠ 0)
    (hge : 2 ^ 31 ≤ (a.size - a.rank) * a.rcount)
    (hlt : (a.size - a.rank) * a.rcount < 2 ^ 32 + intMax)
    (hne : (a.size - a.rank) * a.rcount ≠ 2 ^ 32) : NeverReturns a.allgatherIntraBruck := by
  have hshift : ∀ rbuf, a.bruckShift rbuf = none := by
    intro rbuf
    rw [bruckShift]
    change (copyContentSameDdt (fun _ => rbuf) 0 0 ((a.size - a.rank) * a.rcount) _).bind _ = none
    rw [copyContentSameDdt_of_ge hge hlt hne]
    rfl
  rw [allgatherIntraBruck]
  cases a.firstBlock with
  | none => trivial
  | some rbuf =>
    apply neverReturns_bind
    intro rbuf
    rw [if_pos hrank]
    refine neverReturns_bind _ fun _ => ?_
    rw [hshift]
    trivial

theorem neverReturns_bruck_of_shift (hrank : a.rank ≠ 0)
    (h : ¬a.layout.FitsShifted ((a.size - a.rank) * a.rcount)) :
    NeverReturns a.allgatherIntraBruck := by
  rw [allgatherIntraBruck]
  cases a.firstBlock with
  | none => trivial
  | some rbuf =>
    apply neverReturns_bind
    intro rbuf
    rw [if_pos hrank]
    exact (neverReturns_allocate (Layout.fitsShifted_iff.not.1 h)).bind_left _

end AllgatherArgs

namespace AllgatherCall

variable {r : AllgatherCall E} {p t : ℕ}

theorem bruckSchedule_place_zero (hp : p < r.size) (s : ℕ) :
    (bruckSchedule r.size).place p 0 s = if s = 0 then some p else none := by
  change (if s < min (2 ^ 0) r.size then some ((p + s) % r.size) else none) = _
  have hmin : min 1 r.size = 1 := Nat.min_eq_left r.sizePos
  rw [pow_zero, hmin]
  split_ifs with h₁ h₂ h₂
  · rw [h₂, Nat.add_zero, mod_eq_of_lt hp]
  · exact absurd (lt_one_iff.1 h₁) h₂
  · exact absurd (lt_one_iff.2 h₂) h₁
  · rfl

theorem laid_writeFirst {place : ℕ → Option ℕ} {buf : Buf (Option E)}
    (h : Laid r.rcount r.data place buf) :
    Laid r.rcount r.data (fun s => if s = 0 then some p else none)
      (blit buf 0 ((slice (r.data p) 0 r.rcount).map some)) := by
  rw [slice_eq_blocksMsg, ← Nat.zero_mul r.rcount]
  apply h.write.mono
  intro s b hb
  split_ifs at hb with hs
  rw [if_pos (by omega), hb]

theorem laid_firstBlock (hp : p < r.size) : ∃ buf, (r.args p).firstBlock = some buf ∧
    Laid r.rcount r.data ((bruckSchedule r.size).place p 0) buf := by
  rw [funext (bruckSchedule_place_zero hp), firstBlock]
  cases hin : r.inPlace p with
  | false =>
    have hsbuf : (r.args p).sbuf = some (slice (r.data p) 0 r.rcount) :=
      if_neg (by rw [hin]; exact Bool.false_ne_true)
    rw [hsbuf]
    exact ⟨_, rfl, laid_writeFirst (laid_none _)⟩
  | true =>
    have hsbuf : (r.args p).sbuf = none := if_pos hin
    have hown := laid_ownBlock (r := r) (p := p)
    rw [ownBlock, hsbuf] at hown
    rw [hsbuf]
    dsimp only at hown ⊢
    by_cases hrank : (r.args p).rank = 0
    · rw [if_neg (not_not.2 hrank)]
      obtain rfl : p = 0 := hrank
      exact ⟨_, rfl, hown⟩
    · rw [if_pos hrank]
      obtain ⟨code, hcopy⟩ := @copyContentSameDdt_of_lt _ id
        ((r.args p).rank * r.rcount) 0 _ (r.args p).rbuf r.rcountInt
      have hread : slice (r.args p).rbuf (p * r.rcount) (1 * r.rcount) =
          (blocksMsg r.rcount r.data (fun _ => p) 1).map some :=
        hown.read fun i hi => by
          rw [lt_one_iff.1 hi, Nat.add_zero, if_pos rfl]
      rw [Nat.one_mul, ← slice_eq_blocksMsg] at hread
      refine ⟨_, congrArg (Option.map (·.2)) hcopy, ?_⟩
      change Laid r.rcount r.data _ (blit _ 0 (slice (r.args p).rbuf (p * r.rcount) r.rcount))
      rw [hread]
      exact laid_writeFirst hown

theorem follows_bruckStep (hp : p < r.size) (ht : t < log2Ceil r.size) (hsize : r.size ≤ 2 ^ 30)
    (hcount : (bruckSchedule r.size).count t * r.rcount < 2 ^ 31) {buf : Buf (Option E)}
    (h : Laid r.rcount r.data ((bruckSchedule r.size).place p t) buf) :
    ∃ buf', Follows ((r.args p).bruckStep (2 ^ t) buf)
      ((bruckSchedule r.size).events r.rcount r.data p t) buf' ∧
        Laid r.rcount r.data ((bruckSchedule r.size).place p (t + 1)) buf' := by
  have hlt : 2 ^ t < r.size := (lt_log2Ceil r.sizePos).1 ht
  rw [bruckStep_eq (a := r.args p) hp hsize (Nat.two_pow_pos t) hlt hcount]
  have hround := (valid_bruckSchedule r.sizePos).follows_round hp ht
    (leftOf_ne hp (Nat.two_pow_pos t) hlt) hcount h
  simp only [bruckSchedule, Nat.zero_mul] at hround
  exact hround

theorem follows_bruckLoop (hp : p < r.size) (hsize : r.size ≤ 2 ^ 30)
    (hcount : (r.size - 1) * r.rcount < 2 ^ 31) {buf : Buf (Option E)}
    (h : Laid r.rcount r.data ((bruckSchedule r.size).place p 0) buf) :
    ∃ buf', Follows (forDoubling r.size (r.args p).bruckStep (r.size + 1) 1 buf)
      ((range' 0 (log2Ceil r.size)).flatMap
        ((bruckSchedule r.size).events r.rcount r.data p)) buf' ∧
        Laid r.rcount r.data (fun s => if s < r.size then some ((p + s) % r.size) else none)
          buf' := by
  obtain ⟨buf', hfollows, hbuf'⟩ := follows_forDoubling
    ((bruckSchedule r.size).events r.rcount r.data p)
    (fun t buf => Laid r.rcount r.data ((bruckSchedule r.size).place p t) buf)
    (fun _ => lt_log2Ceil r.sizePos)
    (fun t buf ht hbuf => follows_bruckStep hp ht hsize
      ((Nat.mul_le_mul_right _ (bruckSchedule_count_le ((lt_log2Ceil r.sizePos).1 ht))).trans_lt
        hcount) hbuf)
    (lt_succ_of_le (log2Ceil_le r.sizePos)) buf h
  refine ⟨buf', hfollows, hbuf'.mono fun s b hb => ?_⟩
  have hmin : min (2 ^ log2Ceil r.size) r.size = r.size :=
    Nat.min_eq_right (le_two_pow_log2Ceil r.sizePos)
  change (if s < min (2 ^ log2Ceil r.size) r.size then some ((p + s) % r.size) else none) = some b
  rw [hmin]
  exact hb

theorem bruckShift_eq (hp : p < r.size) (hrank : 0 < p) (hcount : (r.size - 1) * r.rcount < 2 ^ 31)
    {buf : Buf (Option E)}
    (h : Laid r.rcount r.data (fun s => if s < r.size then some ((p + s) % r.size) else none) buf) :
    ∃ buf', (r.args p).bruckShift buf = some buf' ∧
      Laid r.rcount r.data (fun s => if s < r.size then some s else none) buf' := by
  have hfst : (r.size - p) * r.rcount < 2 ^ 31 :=
    (Nat.mul_le_mul_right _ (by omega)).trans_lt hcount
  have hsnd : p * r.rcount < 2 ^ 31 := (Nat.mul_le_mul_right _ (by omega)).trans_lt hcount
  have hread₁ : slice buf 0 ((r.size - p) * r.rcount) =
      (blocksMsg r.rcount r.data (p + ·) (r.size - p)).map some := by
    rw [← Nat.zero_mul r.rcount]
    apply h.read
    intro i hi
    rw [Nat.zero_add, if_pos (by omega), mod_eq_of_lt (by omega)]
  have hread₂ : slice buf ((r.size - p) * r.rcount) (p * r.rcount) =
      (blocksMsg r.rcount r.data id p).map some := by
    apply h.read
    intro i hi
    rw [if_pos (by omega), show p + (r.size - p + i) = i + r.size by omega, add_mod_right,
      mod_eq_of_lt (by omega), id]
  obtain ⟨c₁, hcopy₁⟩ := @copyContentSameDdt_of_lt _ (fun _ => buf) 0 0 _ (fun _ => none) hfst
  obtain ⟨c₂, hcopy₂⟩ := @copyContentSameDdt_of_lt _ id ((r.size - p) * r.rcount) 0 _ buf hsnd
  set shiftBuf := blit (fun _ => none) 0 (slice buf 0 ((r.size - p) * r.rcount)) with hshift
  set rbuf := blit buf 0 (slice (id buf) ((r.size - p) * r.rcount) (p * r.rcount)) with hrbuf
  obtain ⟨c₃, hcopy₃⟩ := @copyContentSameDdt_of_lt _ (fun _ => shiftBuf) 0 (p * r.rcount) _
    rbuf hfst
  refine ⟨blit rbuf (p * r.rcount) (slice shiftBuf 0 ((r.size - p) * r.rcount)), ?_, ?_⟩
  · rw [bruckShift]
    change (copyContentSameDdt (fun _ => buf) 0 0 ((r.size - p) * r.rcount) fun _ => none).bind _ =
      some _
    rw [hcopy₁]
    change (copyContentSameDdt id ((r.size - p) * r.rcount) 0 (p * r.rcount) buf).bind _ = some _
    rw [hcopy₂]
    change (copyContentSameDdt (fun _ => shiftBuf) 0 (p * r.rcount) ((r.size - p) * r.rcount)
      rbuf).bind _ = some _
    rw [hcopy₃]
    rfl
  · have hlength : (slice buf 0 ((r.size - p) * r.rcount)).length = (r.size - p) * r.rcount :=
      length_slice
    have hback : slice shiftBuf 0 ((r.size - p) * r.rcount) =
        slice buf 0 ((r.size - p) * r.rcount) := by
      conv_lhs => rw [← hlength]
      exact slice_blit
    rw [hback, hread₁, hrbuf, id, hread₂, ← Nat.zero_mul r.rcount]
    apply h.write.write.mono
    intro s b hb
    split_ifs at hb with hs
    by_cases hps : p ≤ s
    · rw [if_pos ⟨hps, by omega⟩, Nat.add_sub_cancel' hps, hb]
    · rw [if_neg fun hs' => hps hs'.1, if_pos (by omega), id, Nat.sub_zero, hb]

/-- What the processes keep in their temporary buffers is inside of them. -/
def ShiftFits (r : AllgatherCall E) : Prop :=
  ∀ p < r.size, 0 < p → r.layout.FitsShifted ((r.size - p) * r.rcount)

theorem follows_bruck (hp : p < r.size) (hsize : r.size ≤ 2 ^ 30)
    (hcount : (r.size - 1) * r.rcount < 2 ^ 31) (hfits : r.ShiftFits) :
    ∃ buf, Laid r.rcount r.data (fun s => if s < r.size then some s else none) buf ∧
      Follows (r.args p).allgatherIntraBruck ((range' 0 (log2Ceil r.size)).flatMap
        ((bruckSchedule r.size).events r.rcount r.data p)) buf := by
  obtain ⟨buf₀, hfirst, hlaid₀⟩ := laid_firstBlock hp
  obtain ⟨buf₁, hloop, hlaid₁⟩ := follows_bruckLoop hp hsize hcount hlaid₀
  rw [allgatherIntraBruck, hfirst]
  rcases Nat.eq_zero_or_pos p with rfl | hrank
  · refine ⟨buf₁, hlaid₁.mono fun s b hb => ?_, hloop.bind_pure ?_⟩
    · split_ifs at hb with hs
      rw [if_pos hs, Nat.zero_add, mod_eq_of_lt hs, hb]
    · exact follows_pure buf₁
  · obtain ⟨buf₂, hshift, hlaid₂⟩ := bruckShift_eq hp hrank hcount hlaid₁
    refine ⟨buf₂, hlaid₂, hloop.bind_pure ?_⟩
    have hallocate := allocate_eq (M := List E) (Layout.fitsShifted_iff.1 (hfits p hp hrank))
    rw [if_pos (show (r.args p).rank ≠ 0 from hrank.ne')]
    change Follows (allocate r.layout (-r.layout.lb)
      (r.layout.trueLb + r.layout.bytes ((r.size - p) * r.rcount))
      ((r.size - p) * r.rcount) >>= _) _ _
    rw [hallocate, pure_bind, hshift]
    exact follows_pure buf₂

theorem correct_bruck_iff : (r.Correct fun p => (r.args p).allgatherIntraBruck) ↔
    r.size ≤ 2 ^ 30 ∧ (r.size - 1) * r.rcount < 2 ^ 31 ∧ r.ShiftFits := by
  constructor
  · intro h
    have hsize : r.size ≤ 2 ^ 30 := by
      by_contra hsize
      refine not_correct_of_neverReturns r.sizePos ?_ h
      exact neverReturns_bruck_of_distance (a := r.args 0) le_rfl (not_le.1 hsize)
    refine ⟨hsize, not_le.1 fun hge => ?_, fun p hp hrank => ?_⟩
    · have hstep : ∀ t, 2 ^ t < r.size → min (2 ^ t) (r.size - 2 ^ t) * r.rcount < 2 ^ 31 := by
        intro t ht
        by_contra hcount
        refine not_correct_of_neverReturns r.sizePos ?_ h
        exact neverReturns_bruck_of_step (a := r.args 0) ht fun _ =>
          neverReturns_bruckStep_count (a := r.args 0) ht (not_lt.1 hcount)
      obtain ⟨hone, hbig⟩ := last_counts hge hstep r.rcountInt
      refine not_correct_of_neverReturns hone ?_ h
      exact neverReturns_bruck_of_copy (a := r.args 1) Nat.one_ne_zero hge hbig.1
        hbig.2
    · by_contra hfits
      refine not_correct_of_neverReturns hp ?_ h
      exact neverReturns_bruck_of_shift (a := r.args p) hrank.ne' hfits
  · rintro ⟨hsize, hcount, hfits⟩
    exact (valid_bruckSchedule r.sizePos).computes fun p hp => follows_bruck hp hsize hcount hfits

end AllgatherCall

end Ulfm
