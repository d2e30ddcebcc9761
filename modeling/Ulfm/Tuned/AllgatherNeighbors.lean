import Ulfm.Tuned.AllgatherRing

/-!
# The allgather with neighbour exchange

The blocks travel in pairs. A process takes the pairs to one side of its own pair in the even
steps and those to the other side in the odd steps, and passes on the pair that came last.
-/

namespace Ulfm

open Script AllgatherArgs List Nat

variable {E : Type}

section Schedule

variable {m n p q t k s : ℕ}

/-- The pair that is `k` steps away. -/
def pairAt (p m : ℕ) (up : Bool) (k : ℕ) : ℕ := if up then (p / 2 + k) % m else leftOf (p / 2) m k

def stepsUp (p t : ℕ) : Bool := (p % 2 == 0) != (t % 2 == 1)

def pairOf (p m t : ℕ) : ℕ := pairAt p m (stepsUp p t) ((t + 1) / 2)

def neighborOf (n p t : ℕ) : ℕ := if stepsUp p t then sendToRight p n else recvFromLeft p n

/-- A single block is exchanged in the first step, and a pair of blocks in the others. -/
def neighborSchedule (m : ℕ) : Schedule where
  dest p t := neighborOf (2 * m) p t
  source p t := neighborOf (2 * m) p t
  first p t := if t = 0 then p else 2 * pairOf p m (t - 1)
  into p t := if t = 0 then neighborOf (2 * m) p 0 else 2 * pairOf p m t
  count t := if t = 0 then 1 else 2
  blk p t i := (if t = 0 then p else 2 * pairOf p m (t - 1)) + i
  place p t s :=
    if t = 0 then if s = p then some p else none
    else if ∃ j < t, pairOf p m j = s / 2 then some s else none

theorem pairAt_zero (hp : p < 2 * m) (up : Bool) : pairAt p m up 0 = p / 2 := by
  rw [pairAt]
  split_ifs
  · rw [Nat.add_zero, mod_eq_of_lt (by omega)]
  · exact leftOf_zero (by omega)

theorem pairOf_zero (hp : p < 2 * m) : pairOf p m 0 = p / 2 := pairAt_zero hp _

theorem pairAt_lt (hm : 0 < m) (up : Bool) : pairAt p m up k < m := by
  rw [pairAt]
  split_ifs
  · exact mod_lt _ hm
  · exact leftOf_lt hm

theorem sendToRight_parity : sendToRight p (2 * m) % 2 = (p + 1) % 2 := by
  rw [sendToRight, mod_mul_right_mod]

theorem recvFromLeft_parity (hp : p < 2 * m) : recvFromLeft p (2 * m) % 2 = (p + 1) % 2 := by
  rw [recvFromLeft, mod_mul_right_mod]
  omega

theorem stepsUp_of_parity (h : q % 2 = (p + 1) % 2) : stepsUp q t = !stepsUp p t := by
  have hpar : (q % 2 == 0) = !(p % 2 == 0) := by
    rw [h]
    rcases mod_two_eq_zero_or_one p with hp | hp
    · rw [add_mod, hp]
      rfl
    · rw [add_mod, hp]
      rfl
  rw [stepsUp, stepsUp, hpar]
  cases (p % 2 == 0) <;> cases (t % 2 == 1) <;> rfl

section

variable (hp : p < 2 * m)
include hp

theorem neighborOf_lt : neighborOf (2 * m) p t < 2 * m := by
  rw [neighborOf]
  split_ifs
  · exact sendToRight_lt (by omega)
  · exact recvFromLeft_lt (by omega)

theorem neighborOf_parity : neighborOf (2 * m) p t % 2 = (p + 1) % 2 := by
  rw [neighborOf]
  split_ifs
  · exact sendToRight_parity
  · exact recvFromLeft_parity hp

theorem neighborOf_neighborOf : neighborOf (2 * m) (neighborOf (2 * m) p t) t = p := by
  have hup := stepsUp_of_parity (t := t) (neighborOf_parity (t := t) hp)
  have hlt := neighborOf_lt (t := t) hp
  rw [neighborOf, hup]
  rw [neighborOf] at hlt ⊢
  cases hs : stepsUp p t with
  | true =>
    rw [hs, if_pos rfl] at hlt
    rw [if_pos rfl]
    exact (sendToRight_eq_iff hp hlt).1 rfl
  | false =>
    rw [hs, if_neg Bool.false_ne_true] at hlt
    rw [if_neg Bool.false_ne_true]
    exact (sendToRight_eq_iff hlt hp).2 rfl

theorem sendToRight_div_two :
    sendToRight p (2 * m) / 2 = if p % 2 = 0 then p / 2 else (p / 2 + 1) % m := by
  rw [sendToRight, mod_mul_right_div_self]
  split_ifs with heven
  · rw [show (p + 1) / 2 = p / 2 by omega, mod_eq_of_lt (by omega)]
  · rw [show (p + 1) / 2 = p / 2 + 1 by omega]

theorem recvFromLeft_div_two :
    recvFromLeft p (2 * m) / 2 = if p % 2 = 0 then leftOf (p / 2) m 1 else p / 2 := by
  rw [recvFromLeft, mod_mul_right_div_self]
  split_ifs with heven
  · rw [leftOf, show (p + 2 * m - 1) / 2 = p / 2 + m - 1 by omega]
  · rw [show (p + 2 * m - 1) / 2 = p / 2 + m by omega, add_mod_right, mod_eq_of_lt (by omega)]

theorem neighborOf_div_two_of_even (ht : t % 2 = 0) : neighborOf (2 * m) p t / 2 = p / 2 := by
  rw [neighborOf, stepsUp, ht]
  split_ifs with hup
  · rw [sendToRight_div_two hp, if_pos]
    simpa using hup
  · rw [recvFromLeft_div_two hp, if_neg]
    simpa using hup

theorem pairOf_neighborOf (ht : t + 1 < m) :
    pairOf (neighborOf (2 * m) p (t + 1)) m t = pairOf p m (t + 1) := by
  have hup : stepsUp (neighborOf (2 * m) p (t + 1)) t = stepsUp p (t + 1) := by
    rw [stepsUp_of_parity (neighborOf_parity hp), stepsUp, stepsUp]
    rcases mod_two_eq_zero_or_one t with h | h
    · rw [add_mod, h]
      cases (p % 2 == 0) <;> rfl
    · rw [add_mod, h]
      cases (p % 2 == 0) <;> rfl
  rw [pairOf, pairOf, hup, pairAt, pairAt]
  rcases mod_two_eq_zero_or_one t with h | h
  · have hodd : ((t + 1) % 2 == 1) = true := by
      rw [add_mod, h]
      rfl
    have hhalf : (t + 1 + 1) / 2 = 1 + (t + 1) / 2 := by omega
    rw [neighborOf, hhalf]
    rw [stepsUp, hodd]
    rcases mod_two_eq_zero_or_one p with hpar | hpar
    · simp only [hpar, beq_self_eq_true, bne_self_eq_false, Bool.false_eq_true, if_false]
      rw [recvFromLeft_div_two hp, if_pos hpar, leftOf_leftOf (by omega) (by omega)]
    · rw [hpar, if_pos (by rfl), if_pos (by rfl), if_pos (by rfl), sendToRight_div_two hp,
        if_neg (by omega),
        mod_add_mod, Nat.add_assoc]
  · rw [neighborOf_div_two_of_even hp (by omega), show (t + 1 + 1) / 2 = (t + 1) / 2 by omega]

end

theorem pairAt_not (up : Bool) (hk : k ≤ m) : pairAt p m (!up) (m - k) = pairAt p m up k := by
  cases up with
  | true =>
    change leftOf (p / 2) m (m - k) = (p / 2 + k) % m
    rw [leftOf, show p / 2 + m - (m - k) = p / 2 + k by omega]
  | false =>
    change (p / 2 + (m - k)) % m = leftOf (p / 2) m k
    rw [leftOf, Nat.add_sub_assoc hk]

theorem exists_pairAt {b : ℕ} (hp : p < 2 * m) (hb : b < m) (up : Bool) :
    ∃ d < m, pairAt p m up d = b := by
  cases up with
  | true =>
    obtain ⟨d, hd, hdb⟩ := exists_leftOf hb (show p / 2 < m by omega)
    exact ⟨d, hd, (add_mod_eq_iff (by omega) hb hd).2 hdb⟩
  | false => exact exists_leftOf (by omega) hb

theorem exists_pairOf {b : ℕ} (hp : p < 2 * m) (hb : b < m) : ∃ j < m, pairOf p m j = b := by
  obtain ⟨d, hd, hdb⟩ := exists_pairAt hp hb (stepsUp p 0)
  rcases Nat.lt_or_ge (2 * d) m with hlt | hge
  · have hup : stepsUp p (2 * d) = stepsUp p 0 := by
      rw [stepsUp, mul_mod_right]
      rfl
    refine ⟨2 * d, hlt, ?_⟩
    rw [pairOf, hup, show (2 * d + 1) / 2 = d by omega, hdb]
  · have hup : stepsUp p (2 * (m - d) - 1) = !stepsUp p 0 := by
      rw [stepsUp, show (2 * (m - d) - 1) % 2 = 1 by omega, stepsUp]
      cases (p % 2 == 0) <;> rfl
    refine ⟨2 * (m - d) - 1, by omega, ?_⟩
    rw [pairOf, hup, show (2 * (m - d) - 1 + 1) / 2 = m - d by omega, pairAt_not _ hd.le, hdb]

theorem valid_neighborSchedule (m : ℕ) : (neighborSchedule m).Valid (2 * m) m where
  dest_lt p hp t ht := neighborOf_lt hp
  source_lt p hp t ht := neighborOf_lt hp
  matched p hp q hq t ht := by
    change neighborOf (2 * m) p t = q ↔ neighborOf (2 * m) q t = p
    constructor
    · rintro rfl
      exact neighborOf_neighborOf hp
    · rintro rfl
      exact neighborOf_neighborOf hq
  sends p hp t ht i hi := by
    cases t with
    | zero =>
      obtain rfl : i = 0 := lt_one_iff.1 hi
      exact if_pos rfl
    | succ t =>
      have hi : i < 2 := hi
      change (if ∃ j < t + 1, pairOf p m j = (2 * pairOf p m t + i) / 2 then
        some (2 * pairOf p m t + i) else none) = some (2 * pairOf p m t + i)
      rw [if_pos ⟨t, lt_succ_self t, by omega⟩]
  receives p hp t ht s := by
    cases t with
    | zero =>
      change (if ∃ j < 0 + 1, pairOf p m j = s / 2 then some s else none) =
        if neighborOf (2 * m) p 0 ≤ s ∧ s < neighborOf (2 * m) p 0 + 1 then
          some (neighborOf (2 * m) p 0 + (s - neighborOf (2 * m) p 0))
        else if s = p then some p else none
      have hiff : (∃ j < 0 + 1, pairOf p m j = s / 2) ↔ s = neighborOf (2 * m) p 0 ∨ s = p := by
        have hpar := neighborOf_parity (t := 0) hp
        have hdiv := neighborOf_div_two_of_even (t := 0) hp rfl
        simp only [exists_lt_succ_right, not_lt_zero, false_and, exists_false, false_or,
          pairOf_zero hp]
        omega
      simp only [hiff]
      by_cases hs : s = neighborOf (2 * m) p 0
      · rw [if_pos (Or.inl hs), if_pos (by omega), ← hs, Nat.sub_self, Nat.add_zero]
      · rw [if_neg (c := neighborOf (2 * m) p 0 ≤ s ∧ _) (by omega)]
        simp only [hs, false_or]
        split_ifs with hsp
        · rw [hsp]
        · rfl
    | succ t =>
      change (if ∃ j < t + 1 + 1, pairOf p m j = s / 2 then some s else none) =
        if 2 * pairOf p m (t + 1) ≤ s ∧ s < 2 * pairOf p m (t + 1) + 2 then
          some (2 * pairOf (neighborOf (2 * m) p (t + 1)) m t + (s - 2 * pairOf p m (t + 1)))
        else if ∃ j < t + 1, pairOf p m j = s / 2 then some s else none
      rw [pairOf_neighborOf hp ht]
      by_cases hs : pairOf p m (t + 1) = s / 2
      · rw [if_pos ⟨t + 1, lt_succ_self _, hs⟩, if_pos (by omega)]
        congr 1
        omega
      · have hne : ¬(2 * pairOf p m (t + 1) ≤ s ∧ s < 2 * pairOf p m (t + 1) + 2) := by omega
        rw [if_neg hne]
        simp only [exists_lt_succ_right, hs, or_false]

theorem neighborOf_ne (hp : p < 2 * m) : neighborOf (2 * m) p t ≠ p := by
  intro heq
  have hpar := neighborOf_parity (t := t) hp
  rw [heq] at hpar
  omega

theorem neighborSchedule_place_last (hp : p < 2 * m) (hm : 0 < m) (hs : s < 2 * m) :
    (neighborSchedule m).place p m s = some s := by
  change (if m = 0 then if s = p then some p else none
    else if ∃ j < m, pairOf p m j = s / 2 then some s else none) = some s
  rw [if_neg hm.ne', if_pos (exists_pairOf hp (by omega))]

end Schedule

namespace AllgatherArgs

variable {a : AllgatherArgs E} {m k : ℕ} {b : Bool}

theorem nextData_mod (hsize : a.size = 2 * m) (hrank : a.rank < a.size) (hk : k + 1 < m) :
    a.nextData b (2 * pairAt a.rank m (a.goesUp b) k) % a.size =
      2 * pairAt a.rank m (a.goesUp b) (k + 1) := by
  rw [nextData, hsize, pairAt, pairAt]
  split_ifs with hup
  · rw [show 2 * ((a.rank / 2 + k) % m) + 2 + 2 * m = 2 * ((a.rank / 2 + k) % m + 1 + m) by omega,
      mul_mod_mul_left, add_mod_right, mod_add_mod, Nat.add_assoc]
  · rw [show 2 * leftOf (a.rank / 2) m k + 2 * m - 2 =
      2 * (leftOf (a.rank / 2) m k + m - 1) by omega,
      mul_mod_mul_left]
    exact congrArg (2 * ·) (leftOf_leftOf (by omega) hk)

theorem nextData_lt (hsize : a.size = 2 * m) (hm : 0 < m) (hlt : a.size < 2 ^ 30) :
    a.nextData b (2 * pairAt a.rank m (a.goesUp b) k) < 2 ^ 31 := by
  have hpair : pairAt a.rank m (a.goesUp b) k < m := pairAt_lt hm _
  rw [nextData]
  split_ifs
  · omega
  · omega

theorem neverReturns_neighborStep {st : NeighborState E} {i : ℕ}
    (h : 2 ^ 31 ≤ a.nextData (i % 2 == 1) (st.recvDataFrom (i % 2 == 1))) :
    NeverReturns (a.neighborStep st i) := by
  rw [neighborStep]
  dsimp only
  rw [if_pos h]
  trivial

end AllgatherArgs

namespace AllgatherCall

variable {r : AllgatherCall E} {m p t : ℕ} {st : NeighborState E}

theorem neighborOf_eq (hsize : r.size = 2 * m) :
    neighborOf (2 * m) p t = (r.args p).neighbor (t % 2 == 1) := by
  rw [← hsize]
  rfl

structure AtStep (r : AllgatherCall E) (m p t : ℕ) (st : NeighborState E) : Prop where
  send : st.sendDataFrom = 2 * pairOf p m (t - 1)
  recv : ∀ b, st.recvDataFrom b =
    2 * pairAt p m ((r.args p).goesUp b) ((if b then t else t - 1) / 2)
  laid : Laid r.rcount r.data ((neighborSchedule m).place p t) st.rbuf

theorem AtStep.follows (h : AtStep r m p t st) (hsize : r.size = 2 * m) (hp : p < r.size)
    (hpos : 1 ≤ t) (ht : t < m) (hlt : r.size < 2 ^ 30) (hcount : r.rcount < 2 ^ 30) :
    ∃ st', Follows ((r.args p).neighborStep st t)
      ((neighborSchedule m).events r.rcount r.data p t) st' ∧ AtStep r m p (t + 1) st' := by
  have hm : 0 < m := zero_lt_of_lt ht
  have hmsg : (neighborSchedule m).count t = 2 := if_neg (Nat.ne_of_gt hpos)
  have hp' : p < 2 * m := hsize ▸ hp
  obtain ⟨buf, hround, hbuf⟩ := (valid_neighborSchedule m).follows_round hp' ht
    (neighborOf_ne hp') (by rw [hmsg]; omega) h.laid
  set k := (if (t % 2 == 1) then t else t - 1) / 2 with hk
  have hhalf : k + 1 = (t + 1) / 2 := by
    rcases mod_two_eq_zero_or_one t with h2 | h2
    · rw [hk, h2]
      change (t - 1) / 2 + 1 = _
      omega
    · rw [hk, h2]
      change t / 2 + 1 = _
      omega
  have hnext : (r.args p).nextData (t % 2 == 1) (st.recvDataFrom (t % 2 == 1)) % r.size =
      2 * pairOf p m t := by
    rw [h.recv]
    have hmod := nextData_mod (a := r.args p) (b := t % 2 == 1) (k := k) hsize hp
      (by omega)
    rw [hhalf] at hmod
    exact hmod
  have hint : ¬2 ^ 31 ≤ (r.args p).nextData (t % 2 == 1) (st.recvDataFrom (t % 2 == 1)) := by
    rw [h.recv, not_le]
    exact nextData_lt (a := r.args p) hsize hm hlt
  refine ⟨⟨Function.update st.recvDataFrom (t % 2 == 1) (2 * pairOf p m t), 2 * pairOf p m t, buf⟩,
    ?_, ⟨rfl, ?_, hbuf⟩⟩
  · have hfirst : (neighborSchedule m).first p t = 2 * pairOf p m (t - 1) := if_neg (by omega)
    have hinto : (neighborSchedule m).into p t = 2 * pairOf p m t := if_neg (by omega)
    rw [hmsg, hfirst, hinto, ← h.send, ← hnext] at hround
    rw [neighborStep]
    dsimp only
    rw [if_neg hint, ← hnext]
    change Follows (tunedSendrecv p ((r.args p).neighbor (t % 2 == 1)) _ _ _ _ _ _ >>= _) _ _
    rw [← neighborOf_eq hsize]
    exact hround.bind_pure (follows_pure _)
  · intro b
    dsimp only
    by_cases hb : b = (t % 2 == 1)
    · rw [hb, Function.update_self]
      have hk' : (if (t % 2 == 1) then t + 1 else t + 1 - 1) / 2 = (t + 1) / 2 := by
        rcases mod_two_eq_zero_or_one t with h2 | h2
        · rw [h2]
          change (t + 1 - 1) / 2 = _
          omega
        · rw [h2]
          rfl
      rw [hk']
      rfl
    · rw [Function.update_of_ne hb, h.recv]
      congr 2
      rcases mod_two_eq_zero_or_one t with h2 | h2
      · rw [h2] at hb
        obtain rfl : b = true := by cases b <;> simp_all
        change t / 2 = (t + 1) / 2
        omega
      · rw [h2] at hb
        obtain rfl : b = false := by cases b <;> simp_all
        change (t - 1) / 2 = (t + 1 - 1) / 2
        omega

section

variable (hsize : r.size = 2 * m)
include hsize

theorem follows_firstStep (hp : p < r.size) :
    ∃ buf, Follows (tunedSendrecv p ((r.args p).neighbor false) ((r.args p).neighbor false)
        (p * r.rcount) r.rcount ((r.args p).neighbor false * r.rcount) r.rcount
        (r.args p).ownBlock) ((neighborSchedule m).events r.rcount r.data p 0) buf ∧
      AtStep r m p 1 ⟨fun _ => 2 * (p / 2), 2 * (p / 2), buf⟩ := by
  have hp' : p < 2 * m := hsize ▸ hp
  have hown : Laid r.rcount r.data ((neighborSchedule m).place p 0) (r.args p).ownBlock :=
    laid_ownBlock
  obtain ⟨buf, hround, hbuf⟩ := (valid_neighborSchedule m).follows_round hp' (by omega)
    (neighborOf_ne hp') (by
      change 1 * r.rcount < 2 ^ 31
      rw [Nat.one_mul]
      exact r.rcountInt) hown
  refine ⟨buf, ?_, ⟨?_, fun b => ?_, hbuf⟩⟩
  · have hneighbor : neighborOf (2 * m) p 0 = (r.args p).neighbor false := neighborOf_eq hsize
    rw [← hneighbor]
    have hcount : (neighborSchedule m).count 0 * r.rcount = r.rcount := Nat.one_mul _
    rw [hcount] at hround
    exact hround
  · change 2 * (p / 2) = 2 * pairOf p m 0
    rw [pairOf_zero hp']
  · have hzero : (if b then 1 else 1 - 1) / 2 = 0 := by cases b <;> rfl
    rw [hzero, pairAt_zero hp']

theorem dataFrom_eq (hp : p < r.size) :
    (if (r.args p).rank % 2 = 0 then (r.args p).rank else (r.args p).neighbor false) =
      2 * (p / 2) := by
  have hp' : p < 2 * m := hsize ▸ hp
  have hneighbor : neighborOf (2 * m) p 0 = (r.args p).neighbor false := neighborOf_eq hsize
  have hpar := neighborOf_parity (t := 0) hp'
  have hdiv := neighborOf_div_two_of_even (t := 0) hp' rfl
  rw [← hneighbor]
  change (if p % 2 = 0 then p else neighborOf (2 * m) p 0) = 2 * (p / 2)
  split_ifs
  · omega
  · omega

theorem follows_neighborexchange (hp : p < r.size)
    (hint : r.size = 2 ∨ r.size < 2 ^ 30 ∧ r.rcount < 2 ^ 30) :
    ∃ buf, Follows (r.args p).allgatherIntraNeighborexchange ((List.range' 0 m).flatMap
      ((neighborSchedule m).events r.rcount r.data p)) buf ∧
        Laid r.rcount r.data ((neighborSchedule m).place p m) buf := by
  obtain ⟨buf, hfirst, hat⟩ := follows_firstStep hsize hp
  have hm : m = 1 + (m - 1) := by omega
  obtain ⟨st, hloop, hst⟩ := @follows_foldlM _ _ (r.args p).neighborStep 1 (m - 1)
    ((neighborSchedule m).events r.rcount r.data p) (AtStep r m p) (fun t st hpos ht hst =>
      hst.follows hsize hp hpos (by omega) (by omega) (by omega)) _ hat
  refine ⟨st.rbuf, ?_, ?_⟩
  · have heven : ¬(r.args p).size % 2 ≠ 0 := by
      change ¬r.size % 2 ≠ 0
      omega
    have hranks : ¬2 ^ 31 ≤ (r.args p).rank + (r.args p).size - 1 := by
      change ¬2 ^ 31 ≤ p + r.size - 1
      omega
    have hhalf : (r.args p).size / 2 - 1 = m - 1 := by
      change r.size / 2 - 1 = m - 1
      omega
    have hlist : range' 0 m = 0 :: range' 1 (m - 1) := by
      conv_lhs => rw [hm, Nat.add_comm, range'_succ]
    rw [allgatherIntraNeighborexchange, if_neg heven, if_neg hranks, hlist, flatMap_cons, hhalf]
    apply hfirst.bind
    dsimp only
    rw [dataFrom_eq hsize hp]
    exact hloop.bind_pure (follows_pure _)
  · rw [← hm] at hst
    exact hst.laid

theorem neverReturns_neighborexchange_of_size (hge : 2 ^ 30 ≤ r.size) :
    NeverReturns (r.args (r.size - 1)).allgatherIntraNeighborexchange := by
  have hlast : r.size - 1 < r.size := by omega
  have heven : ¬(r.args (r.size - 1)).size % 2 ≠ 0 := by
    change ¬r.size % 2 ≠ 0
    omega
  have hhalf : (r.args (r.size - 1)).size / 2 - 1 = m - 2 + 1 := by
    change r.size / 2 - 1 = m - 2 + 1
    omega
  rw [allgatherIntraNeighborexchange, if_neg heven, hhalf]
  refine .ite trivial (neverReturns_bind _ fun rbuf => ?_)
  dsimp only
  rw [dataFrom_eq hsize hlast, range'_succ, foldlM_cons]
  refine (NeverReturns.bind_left ?_ _).bind_left _
  have hup : (r.args (r.size - 1)).goesUp true = true := by
    change ((r.size - 1) % 2 == 0) != true
    rw [show (r.size - 1) % 2 = 1 by omega]
    rfl
  have hint : 2 ^ 31 ≤ (r.args (r.size - 1)).nextData true (2 * ((r.size - 1) / 2)) := by
    rw [nextData, if_pos hup]
    change 2 ^ 31 ≤ 2 * ((r.size - 1) / 2) + 2 + r.size
    omega
  exact neverReturns_neighborStep hint

theorem neverReturns_neighborexchange_of_count (htwo : 2 ≤ m)
    (hge : 2 ^ 30 ≤ r.rcount) : NeverReturns (r.args p).allgatherIntraNeighborexchange := by
  have heven : ¬(r.args p).size % 2 ≠ 0 := by
    change ¬r.size % 2 ≠ 0
    omega
  have hmem : 1 ∈ range' 1 ((r.args p).size / 2 - 1) := by
    rw [mem_range'_1]
    change 1 ≤ 1 ∧ 1 < 1 + (r.size / 2 - 1)
    omega
  rw [allgatherIntraNeighborexchange, if_neg heven]
  refine .ite trivial (neverReturns_bind _ fun rbuf => ?_)
  refine NeverReturns.bind_left (neverReturns_foldlM hmem (fun st => ?_) _) _
  have hlt := r.rcountInt
  have hfault : ∀ dest source soff roff (buf : Buf (Option E)),
      tunedSendrecv (r.args p).rank dest source soff (2 * (r.args p).rcount) roff
        (2 * (r.args p).rcount) buf = fault := by
    intro dest source soff roff buf
    apply tunedSendrecv_fault
    · change 2 ^ 31 ≤ 2 * r.rcount
      omega
    · change 2 * r.rcount < 2 ^ 32
      omega
  rw [neighborStep]
  simp only [hfault]
  exact .ite trivial trivial

end

/-- The neighbour exchange is correct as long as the numbers of the blocks and the messages are
small enough. If the size is odd, it is the ring. -/
theorem correct_neighborexchange_iff :
    (r.Correct fun p => (r.args p).allgatherIntraNeighborexchange) ↔
      r.size ≤ 2 ∨ r.size < 2 ^ 30 ∧ (r.size % 2 = 0 → r.rcount < 2 ^ 30) := by
  rcases even_or_odd' r.size with ⟨m, hsize | hsize⟩
  · have hpos := r.sizePos
    constructor
    · intro h
      by_contra hcon
      rcases Nat.lt_or_ge r.size (2 ^ 30) with hlt | hge
      · exact not_correct_of_neverReturns r.sizePos
          (neverReturns_neighborexchange_of_count hsize (by omega) (by omega)) h
      · exact not_correct_of_neverReturns (sub_lt hpos Nat.one_pos)
          (neverReturns_neighborexchange_of_size hsize hge) h
    · intro hint
      have hvalid := valid_neighborSchedule m
      rw [← hsize] at hvalid
      refine correct_of_schedule hvalid (fun p hp s hs => ?_) fun p hp =>
        follows_neighborexchange hsize hp (by omega)
      exact neighborSchedule_place_last (hsize ▸ hp) (by omega) (hsize ▸ hs)
  · have hprog : (fun p => (r.args p).allgatherIntraNeighborexchange) =
        fun p => (r.args p).allgatherIntraRing := by
      funext p
      have hodd : (r.args p).size % 2 ≠ 0 := by
        change r.size % 2 ≠ 0
        omega
      rw [allgatherIntraNeighborexchange, if_pos hodd]
    rw [hprog, correct_ring_iff]
    omega

end AllgatherCall

end Ulfm
