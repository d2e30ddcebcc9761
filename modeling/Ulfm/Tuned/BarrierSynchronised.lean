import Ulfm.Tuned.BarrierRounds

/-!
# No process returns from a barrier early

The rounds of each barrier inform every process about every other one. So in a sequence of barriers
no process returns from one of them before all the processes have entered it, as long as the rank
`0` of a double ring cannot take a message of another barrier for the token.
-/

namespace Ulfm

open Option Rounds RoundOf TokenNet Nat

variable {n p q t k : ℕ} {hn : 0 < n} {kind : ℕ → BarrierKind}

/-- The rounds of the barrier `k` inform `p` about `q` before the round `t` of the barrier. -/
def Informed (hn : 0 < n) (kind : ℕ → BarrierKind) (k q p t : ℕ) : Prop :=
  (barrierRounds hn kind).Informs (k * barrierLength n) q p (k * barrierLength n + t)

namespace Informed

theorem refl : Informed hn kind k p p 0 := Informs.refl

theorem mono {t' : ℕ} (h : Informed hn kind k q p t) (ht : t ≤ t') : Informed hn kind k q p t' :=
  Informs.mono h (by omega)

theorem message {p' : ℕ} (h : Informed hn kind k q p t) (ht : t < barrierLength n) (hp : p < n)
    (hsnd : ((kind k).round n t).snd p = some p') : Informed hn kind k q p' (t + 1) :=
  Informs.message h ((barrierRounds_snd ht).trans hsnd) hp

end Informed

section Bruck

theorem informed_bruck_left {j : ℕ} (hkind : kind k = .bruck) (ht : t ≤ barrierLength n)
    (hp : p < n) (hj : j < 2 ^ t) (hjn : j < n) :
    Informed hn kind k (leftOf p n j) p t := by
  induction t generalizing p j with
  | zero =>
    obtain rfl : j = 0 := by omega
    rw [leftOf_zero hp]
    exact .refl
  | succ t ih =>
    by_cases hlt : j < 2 ^ t
    · exact (ih (by omega) hp hlt hjn).mono (by omega)
    · obtain ⟨i, rfl⟩ : ∃ i, j = 2 ^ t + i := ⟨j - 2 ^ t, by omega⟩
      rw [pow_succ] at hj
      have hsender : leftOf p n (2 ^ t) < n := leftOf_lt hn
      rw [← leftOf_leftOf hp hjn]
      refine (ih (by omega) hsender (by omega) (by omega)).message (by omega) hsender ?_
      rw [hkind]
      simp only [BarrierKind.round, bruck, show 2 ^ t < n by omega, if_true]
      rw [leftOf_add hp (by omega)]

theorem informed_bruck (hkind : kind k = .bruck) (hp : p < n) (hq : q < n) :
    Informed hn kind k q p (barrierLength n) := by
  obtain ⟨j, hj, rfl⟩ := exists_leftOf hp hq
  have hlen : n ≤ barrierLength n := by
    rw [barrierLength]
    omega
  have hpow : barrierLength n < 2 ^ barrierLength n := Nat.lt_two_pow_self
  exact informed_bruck_left hkind (le_refl _) hp (by omega) hj

end Bruck

section Doublering

theorem informed_doublering_first (hkind : kind k = .doublering) (hp : p < n) (hq : q ≤ p) :
    Informed hn kind k q p p := by
  have hlen : barrierLength n = 2 * n + 2 := rfl
  induction p with
  | zero =>
    obtain rfl : q = 0 := by omega
    exact .refl
  | succ p ih =>
    rcases Nat.lt_or_ge q (p + 1) with hlt | hge
    · refine (ih (by omega) (by omega)).message (by omega) (by omega) ?_
      rw [hkind]
      change (doublering n p).snd p = _
      rw [doublering_snd (by omega), if_pos (by omega), mod_eq_of_lt hp]
    · obtain rfl : q = p + 1 := by omega
      exact Informed.refl.mono (by omega)

theorem informed_doublering_second (hkind : kind k = .doublering) (hp : p < n) (hq : q < n) :
    Informed hn kind k q p (n + p) := by
  have hlen : barrierLength n = 2 * n + 2 := rfl
  induction p with
  | zero =>
    have hlast : Informed hn kind k q (n - 1) (n - 1) :=
      informed_doublering_first hkind (by omega) (by omega)
    have hround : Informed hn kind k q 0 (n - 1 + 1) := by
      refine hlast.message (by omega) (by omega) ?_
      rw [hkind]
      change (doublering n (n - 1)).snd (n - 1) = _
      rw [doublering_snd (by omega), if_pos (by omega), Nat.sub_add_cancel hn, mod_self]
    exact hround.mono (by omega)
  | succ p ih =>
    refine (ih (by omega)).message (by omega) (by omega) ?_
    rw [hkind]
    change (doublering n (n + p)).snd p = _
    rw [doublering_snd (by omega), if_pos (by omega), mod_eq_of_lt hp]

end Doublering

section RecursiveDoubling

variable {L : ℕ}

theorem div_two_pow_cases {a b : ℕ} (h : a / 2 ^ (t + 1) = b / 2 ^ (t + 1)) :
    a / 2 ^ t = b / 2 ^ t ∨ a / 2 ^ t = (b ^^^ 2 ^ t) / 2 ^ t := by
  rw [xor_div_two_pow, Nat.div_self (Nat.two_pow_pos t)]
  rw [pow_succ, ← Nat.div_div_eq_div_mul, ← Nat.div_div_eq_div_mul] at h
  generalize a / 2 ^ t = a, b / 2 ^ t = b at *
  rcases even_or_odd b with heven | hodd
  · rw [xor_one_of_even heven]
    rw [even_iff] at heven
    omega
  · rw [xor_one_of_odd hodd]
    rw [odd_iff] at hodd
    omega

/-- After the exchanges of `t` rounds a process knows about the processes that agree with it in the
higher bits, and about the extra ranks behind them. -/
theorem informed_recursivedoubling_low (hkind : kind k = .recursivedoubling)
    (hL : n.size - 1 = L) (hfold : Folded n L (n - 2 ^ L)) (htL : t ≤ L) (hp : p < 2 ^ L)
    (hq : q < n) (hpq : (if q < 2 ^ L then q else q - 2 ^ L) / 2 ^ t = p / 2 ^ t) :
    Informed hn kind k q p (t + 1) := by
  have hsize := hfold.size_eq
  have hLn : L < 2 ^ L := Nat.lt_two_pow_self
  have hlen : barrierLength n = 2 * n + 2 := rfl
  induction t generalizing p with
  | zero =>
    rw [pow_zero, Nat.div_one, Nat.div_one] at hpq
    split_ifs at hpq with hlt
    · obtain rfl := hpq
      exact Informed.refl.mono (by omega)
    · refine Informed.refl.message (by omega) hq ?_
      rw [hkind]
      simp only [BarrierKind.round, hL, recursivedoubling, if_true, not_lt.1 hlt, hpq]
  | succ t ih =>
    rcases div_two_pow_cases hpq with heq | heq
    · exact (ih (by omega) hp heq).mono (by omega)
    · have hbit : 2 ^ t < 2 ^ L := Nat.pow_lt_pow_right Nat.one_lt_two (by omega)
      have hpartner : p ^^^ 2 ^ t < 2 ^ L := xor_lt_two_pow hp hbit
      refine (ih (by omega) hpartner heq).message (by omega) (by omega) ?_
      rw [hkind]
      simp only [BarrierKind.round, hL, recursivedoubling, show t + 1 ≠ 0 by omega, htL,
        if_true, if_false, hpartner, Nat.add_sub_cancel]
      rw [xor_eq_iff.1 rfl]

theorem informed_recursivedoubling (hkind : kind k = .recursivedoubling) (hp : p < n)
    (hq : q < n) : Informed hn kind k q p (barrierLength n) := by
  have hfold := folded_size hn
  rw [nextPowerOfTwo_shiftRight hn] at hfold
  set L := n.size - 1 with hL
  have hsize := hfold.size_eq
  have hextra := hfold.extra_lt
  have hLn : L < 2 ^ L := Nat.lt_two_pow_self
  have hlen : barrierLength n = 2 * n + 2 := rfl
  have hlow : ∀ p < 2 ^ L, Informed hn kind k q p (L + 1) := by
    intro p hp
    refine informed_recursivedoubling_low hkind hL.symm hfold (le_refl L) hp hq ?_
    rw [div_eq_of_lt hp, div_eq_of_lt]
    split_ifs <;> omega
  by_cases hge : 2 ^ L ≤ p
  · have hlast : Informed hn kind k q p (L + 1 + 1) := by
      refine (hlow (p - 2 ^ L) (by omega)).message (by omega) (by omega) ?_
      rw [hkind]
      simp only [BarrierKind.round, ← hL, recursivedoubling, show L + 1 ≠ 0 by omega,
        show ¬L + 1 ≤ L by omega, if_false, true_and, show p - 2 ^ L < n - 2 ^ L by omega, if_true,
        Nat.sub_add_cancel hge]
    exact hlast.mono (by omega)
  · exact (hlow p (by omega)).mono (by omega)

end RecursiveDoubling

section Tree

variable {D i : ℕ}

theorem treeJump_up (ht : t < D) : RoundOf.treeJump D t = t := if_pos ht

theorem treeJump_down (hi : i < D) : RoundOf.treeJump D (D + i) = D - 1 - i := by
  rw [treeJump, if_neg (by omega)]
  omega

theorem informed_tree_up (hkind : kind k = .tree) (hD : Nat.clog 2 n = D) (htD : t ≤ D)
    (hp : p < n) (hdvd : 2 ^ t ∣ p) (hpq : p ≤ q) (hqt : q < p + 2 ^ t) (hq : q < n) :
    Informed hn kind k q p t := by
  have hDn : D ≤ n := hD ▸ clog_le n
  have hlen : barrierLength n = 2 * n + 2 := rfl
  induction t generalizing p with
  | zero =>
    obtain rfl : q = p := by omega
    exact .refl
  | succ t ih =>
    have hdvd' : 2 ^ t ∣ p := (pow_dvd_pow 2 (le_succ t)).trans hdvd
    by_cases hlt : q < p + 2 ^ t
    · exact (ih (by omega) hp hdvd' hpq hlt).mono (by omega)
    · have hxor : p ^^^ 2 ^ t = p + 2 ^ t :=
        xor_two_pow_of_even ((even_div_two_pow_iff hdvd').2 hdvd)
      have hback : p + 2 ^ t ^^^ 2 ^ t = p := xor_eq_iff.1 hxor
      have hpos := Nat.two_pow_pos t
      have hpair : RoundOf.TreePair n t (p + 2 ^ t) := by
        rw [RoundOf.TreePair, hback]
        exact ⟨mod_eq_zero_of_dvd hdvd', hp⟩
      rw [pow_succ] at hqt
      refine (ih (by omega) (by omega) (hdvd'.add (dvd_refl _)) (by omega)
        (by omega)).message (by omega) (by omega) ?_
      rw [hkind]
      simp only [BarrierKind.round, hD, tree, treeJump_up (show t < D by omega),
        show t < 2 * D by omega, show t < D by omega, hpair, hback, true_and, if_true,
        show p < p + 2 ^ t by omega]

theorem informed_tree_down (hkind : kind k = .tree) (hD : Nat.clog 2 n = D) (hi : i ≤ D)
    (hp : p < n) (hdvd : 2 ^ (D - i) ∣ p) (hq : q < n) : Informed hn kind k q p (D + i) := by
  have hDn : D ≤ n := hD ▸ clog_le n
  have hlen : barrierLength n = 2 * n + 2 := rfl
  have hpow : n ≤ 2 ^ D := hD ▸ le_pow_clog Nat.one_lt_two n
  induction i generalizing p with
  | zero =>
    obtain rfl : p = 0 := eq_zero_of_dvd_of_lt hdvd (by rw [Nat.sub_zero]; omega)
    refine informed_tree_up hkind hD (le_refl D) hp (dvd_zero _) (Nat.zero_le q) ?_ hq
    rw [Nat.zero_add, Nat.add_zero]
    omega
  | succ i ih =>
    obtain ⟨j, hj⟩ : ∃ j, D - i = j + 1 := ⟨D - i - 1, by omega⟩
    rw [show D - (i + 1) = j by omega] at hdvd
    rw [hj] at ih
    by_cases hup : 2 ^ (j + 1) ∣ p
    · exact (ih (by omega) hp hup).mono (by omega)
    · have hodd : Odd (p / 2 ^ j) := by
        rw [← not_even_iff_odd, even_div_two_pow_iff hdvd]
        exact hup
      have hxor := xor_two_pow_of_odd hodd
      have hpos := Nat.two_pow_pos j
      set r := p ^^^ 2 ^ j with hr
      have hback : r ^^^ 2 ^ j = p := xor_eq_iff.1 hr.symm
      have hrdvd : 2 ^ j ∣ r := (Nat.dvd_add_left (dvd_refl _)).1 (hxor ▸ hdvd)
      have hreven : 2 ^ (j + 1) ∣ r := by
        rw [← even_div_two_pow_iff hrdvd]
        have hdiv : p / 2 ^ j = r / 2 ^ j + 1 := by
          rw [← hxor, add_div_right _ hpos]
        rw [hdiv, Nat.odd_add_one, not_odd_iff_even] at hodd
        exact hodd
      have hpair : RoundOf.TreePair n j r := by
        rw [RoundOf.TreePair, hback]
        exact ⟨mod_eq_zero_of_dvd hdvd, hp⟩
      refine (ih (by omega) (by omega) hreven).message (by omega) (by omega) ?_
      rw [hkind]
      simp only [BarrierKind.round, hD, tree, treeJump_down (show i < D by omega),
        show D - 1 - i = j by omega, show D + i < 2 * D by omega, show ¬D + i < D by omega,
        hpair, hback, true_and, if_true, if_false, show r < p by omega]

theorem informed_tree (hkind : kind k = .tree) (hp : p < n) (hq : q < n) :
    Informed hn kind k q p (barrierLength n) := by
  have hDn : clog 2 n ≤ n := clog_le n
  refine (informed_tree_down hkind rfl (le_refl _) hp ?_ hq).mono ?_
  · rw [Nat.sub_self, pow_zero]
    exact one_dvd p
  · rw [barrierLength]
    omega

end Tree

section Sequence

/-- Only two processes take part, or a double ring is followed by double rings only. So the rank
`0` gets no message but the token while it receives from any source. -/
def TokenAlone (n : ℕ) (kind : ℕ → BarrierKind) : Prop :=
  n = 2 ∨ ∀ k, kind k = .doublering → kind (k + 1) = .doublering

theorem informed_all (k : ℕ) (hp : p < n) (hq : q < n) :
    Informed hn kind k q p (barrierLength n) := by
  cases hkind : kind k with
  | doublering =>
    refine (informed_doublering_second hkind hp hq).mono ?_
    rw [barrierLength]
    omega
  | recursivedoubling => exact informed_recursivedoubling hkind hp hq
  | bruck => exact informed_bruck hkind hp hq
  | tree => exact informed_tree hkind hp hq

theorem round_snd_ne (h2 : 2 ≤ n) (hp : p < n) (kd : BarrierKind) :
    (kd.round n t).snd p ≠ some p := by
  intro h
  have hxor (j : ℕ) : p ^^^ 2 ^ j ≠ p := by
    intro heq
    have hzero : 2 ^ j = 0 := by rw [← xor_right_inj (x := p), heq, xor_zero]
    exact (Nat.two_pow_pos j).ne' hzero
  cases kd with
  | doublering =>
    simp only [BarrierKind.round, doublering_snd hp, ite_none_right_eq_some, Option.some.injEq] at h
    rw [add_mod_eq_iff hp hp (by omega), leftOf_eq hp (by omega)] at h
    split_ifs at h <;> omega
  | recursivedoubling =>
    simp only [BarrierKind.round, RoundOf.recursivedoubling] at h
    have hpos := Nat.two_pow_pos (n.size - 1)
    split_ifs at h
    · have := Option.some.inj h
      omega
    · exact hxor _ (Option.some.inj h)
    · have := Option.some.inj h
      omega
  | bruck =>
    simp only [BarrierKind.round, RoundOf.bruck, ite_none_right_eq_some, Option.some.injEq] at h
    have hpos := Nat.two_pow_pos t
    rw [add_mod_eq_iff hp hp h.1, leftOf_eq hp h.1.le] at h
    split_ifs at h <;> omega
  | tree =>
    simp only [BarrierKind.round, RoundOf.tree, ite_none_right_eq_some, Option.some.injEq] at h
    exact hxor _ h.2

theorem TokenAlone.only_last (h : TokenAlone n kind) (h2 : 2 ≤ n) (hkind : kind k = .doublering)
    (t' : ℕ) (ht' : k * barrierLength n ≤ t') (src : ℕ) (hsrc : src < n)
    (hsnd : (barrierRounds hn kind).snd src t' = some 0) : src = n - 1 := by
  have hlen : 0 < barrierLength n := by
    rw [barrierLength]
    omega
  rcases h with rfl | hnext
  · have hne : src ≠ 0 := by
      rintro rfl
      exact round_snd_ne h2 hsrc _ hsnd
    omega
  · have hlater : ∀ k' ≥ k, kind k' = .doublering := by
      intro k' hk'
      induction k', hk' using le_induction with
      | base => exact hkind
      | succ k' _ ih => exact hnext k' ih
    have hk' := hlater (t' / barrierLength n) ((Nat.le_div_iff_mul_le hlen).2 ht')
    simp only [barrierRounds, hk', BarrierKind.round, doublering_snd hsrc,
      ite_none_right_eq_some, Option.some.injEq] at hsnd
    rw [add_mod_eq_iff hsrc hn (by omega), leftOf_eq hn (by omega), if_neg (by omega)] at hsnd
    omega

theorem schedules_barriers (h : TokenAlone n kind) (h2 : 2 ≤ n) :
    (barrierRounds hn kind).Schedules (fun k => (kind k).acts n) (barrierLength n) where
  plays k p hp := by
    cases hkind : kind k with
    | doublering =>
      rcases Nat.eq_zero_or_pos p with rfl | hpos
      · exact plays_doublering_zero hkind h2 (h.only_last h2 hkind)
      · exact plays_doublering_of_pos hkind h2 hpos hp
    | recursivedoubling => exact plays_recursivedoubling hkind hp
    | bruck => exact plays_bruck hkind
    | tree => exact plays_tree hkind
  informs k p hp q hq := by
    rw [succ_mul]
    exact informed_all k hp hq

/-- What is asked of a sequence of barriers. For fewer than `2 ^ 30` processes no `int` overflows in
the sums of ranks and distances. -/
structure Admissible (n : ℕ) (kind : ℕ → BarrierKind) : Prop where
  two_le : 2 ≤ n
  lt_int : n < 2 ^ 30
  alone : TokenAlone n kind

/-- No process returns from its `k`-th barrier before all of them have entered their `k`-th one,
whatever the timing of the messages is. -/
theorem barriers_synchronised (hadmissible : Admissible n kind) {c : TokenNet}
    (h : TokenNet.Reachable n (fun k => (kind k).acts n) c) : c.Synchronised n :=
  have htwo := hadmissible.two_le
  Rounds.synchronised (R := barrierRounds (by omega) kind)
    (schedules_barriers hadmissible.alone htwo) h

theorem barriers_synchronised_bruck_tree :
    ∃ c, TokenNet.Reachable 3 (fun k => (if k = 0 then .bruck else .tree : BarrierKind).acts 3) c ∧
      c.returned 0 = 1 ∧ c.Synchronised 3 := by
  have hrun : ((run 3 (fun k => (if k = 0 then .bruck else .tree : BarrierKind).acts 3)
      [.enter 0, .enter 1, .enter 2, .act 0 0, .act 1 0, .act 2 0, .act 0 0, .act 1 0, .act 2 0,
        .act 0 0, .act 1 0, .act 0 0, .leave 0]).map (·.returned 0)) = some 1 := by decide
  obtain ⟨c, hc, hreturned⟩ := map_eq_some_iff.1 hrun
  have hreach := reachable_of_run hc
  refine ⟨c, hreach, hreturned, barriers_synchronised ⟨by decide, by decide, .inr ?_⟩ hreach⟩
  intro k hk
  split_ifs at hk

/-- The rank `0` of a double ring takes a message of the next barrier of the rank `1` for the token,
and so the rank `1` gets ahead of the rank `2`. -/
theorem not_synchronised_doublering : ¬∀ (n : ℕ) (kind : ℕ → BarrierKind) (c : TokenNet), 2 ≤ n →
    TokenNet.Reachable n (fun k => (kind k).acts n) c → c.Synchronised n := by
  intro hall
  have hrun : ((run 3
      (fun k => (if k = 0 then .doublering else .recursivedoubling : BarrierKind).acts 3)
      [.enter 0, .enter 1, .enter 2, .act 0 0, .act 1 0, .act 1 0, .act 2 0, .act 2 0, .act 0 2,
        .act 0 0, .act 1 0, .act 0 0, .act 1 0, .act 2 0, .act 1 0, .leave 1, .act 2 0, .enter 1,
        .act 1 0, .act 0 1, .leave 0, .enter 0, .act 0 0, .act 0 0, .act 1 0, .leave 1]).map
      fun c => (c.returned 1, c.entered 2)) = some (2, 1) := by decide
  obtain ⟨c, hc, heq⟩ := map_eq_some_iff.1 hrun
  have hle := hall 3 (fun k => if k = 0 then .doublering else .recursivedoubling) c (by decide)
    (reachable_of_run hc) 1 (by decide) 2 (by decide)
  rw [Prod.mk.injEq] at heq
  omega

end Sequence

end Ulfm
