import Mathlib.Data.Nat.Log
import Ulfm.Tuned.Barrier

/-!
# Barriers separate the processes

The barriers send their messages in rounds. The rounds of each of them inform every process about
every other one, so no process returns before all of them have entered, in any sequence of
barriers in which a double ring is followed by double rings only.
-/

namespace Ulfm

open List Option Rounds RoundOf Nat

variable {n p q t k : ℕ}

section Matched

namespace RoundOf

/-- In a round messages are sent and received by the same pairs. -/
def Paired (n : ℕ) (r : RoundOf) : Prop :=
  (∀ p < n, ∀ q < n, r.snd p = some q ↔ r.rcv q = some p) ∧ ∀ p < n, ∀ q, r.rcv p = some q → q < n

theorem paired_doublering (t : ℕ) : Paired n (doublering n t) := by
  refine ⟨fun p hp q hq => ?_, fun p hp q h => ?_⟩
  · simp only [doublering, ite_none_right_eq_some, some.injEq]
    constructor
    · rintro ⟨⟨ht, rfl⟩, rfl⟩
      exact ⟨⟨ht, rfl⟩, rfl⟩
    · rintro ⟨⟨ht, rfl⟩, rfl⟩
      exact ⟨⟨ht, rfl⟩, rfl⟩
  · simp only [doublering, ite_none_right_eq_some, some.injEq] at h
    rw [← h.2]
    exact mod_lt _ (by omega)

theorem paired_bruck (t : ℕ) : Paired n (bruck n t) := by
  refine ⟨fun p hp q hq => ?_, fun p hp q h => ?_⟩
  · simp only [bruck, ite_none_right_eq_some, some.injEq]
    refine and_congr_right fun ht => ?_
    exact add_mod_eq_iff hp hq ht
  · simp only [bruck, ite_none_right_eq_some, some.injEq] at h
    rw [← h.2]
    exact mod_lt _ (by omega)

theorem paired_recursivedoubling {L : ℕ} (h : Folded n L (n - 2 ^ L)) (t : ℕ) :
    Paired n (recursivedoubling n L t) := by
  have hsize := h.size_eq
  have hextra := h.extra_lt
  refine ⟨fun p hp q hq => ?_, fun p hp q h => ?_⟩
  · simp only [recursivedoubling]
    by_cases ht₀ : t = 0
    · simp only [ht₀, if_true, ite_none_right_eq_some, some.injEq]
      omega
    · by_cases htL : t ≤ L
      · have hbit : 2 ^ (t - 1) < 2 ^ L := Nat.pow_lt_pow_right Nat.one_lt_two (by omega)
        simp only [ht₀, htL, if_true, if_false, ite_none_right_eq_some, some.injEq]
        constructor
        · rintro ⟨hlt, rfl⟩
          exact ⟨xor_lt_two_pow hlt hbit, xor_eq_iff.1 rfl⟩
        · rintro ⟨hlt, rfl⟩
          exact ⟨xor_lt_two_pow hlt hbit, xor_eq_iff.1 rfl⟩
      · simp only [ht₀, htL, if_false, ite_none_right_eq_some, some.injEq]
        omega
  · simp only [recursivedoubling] at h
    split_ifs at h with ht₀ hlt htL hlt' hlast
    · obtain rfl := some.inj h
      omega
    · have hbit : 2 ^ (t - 1) < 2 ^ L := Nat.pow_lt_pow_right Nat.one_lt_two (by omega)
      have hxor := xor_lt_two_pow hlt' hbit
      obtain rfl := some.inj h
      omega
    · obtain rfl := some.inj h
      omega

theorem xor_two_pow_mod (p j : ℕ) : (p ^^^ 2 ^ j) % 2 ^ j = p % 2 ^ j := by
  rw [xor_mod_two_pow, mod_self, xor_zero]

theorem xor_two_pow_two_pow (p j : ℕ) : p ^^^ 2 ^ j ^^^ 2 ^ j = p := xor_eq_iff.1 rfl

theorem TreePair.mate {p j : ℕ} (hp : p < n) (h : TreePair n j p) : TreePair n j (p ^^^ 2 ^ j) := by
  have hmod := h.1
  rw [xor_two_pow_mod] at hmod
  rw [TreePair, xor_two_pow_two_pow]
  exact ⟨hmod, hp⟩

theorem paired_tree (D t : ℕ) : Paired n (tree n D t) := by
  refine ⟨fun p hp q hq => ?_, fun p hp q h => ?_⟩
  · simp only [tree, ite_none_right_eq_some, some.injEq]
    set j := treeJump D t with hj
    constructor
    · rintro ⟨⟨ht, hpair, hlt⟩, rfl⟩
      rw [xor_two_pow_two_pow]
      exact ⟨⟨ht, hpair.mate hp, hlt⟩, rfl⟩
    · rintro ⟨⟨ht, hpair, hlt⟩, rfl⟩
      rw [xor_two_pow_two_pow]
      exact ⟨⟨ht, hpair.mate hq, hlt⟩, rfl⟩
  · simp only [tree, ite_none_right_eq_some, some.injEq] at h
    rw [← h.2]
    exact h.1.2.1.2

end RoundOf

end Matched

def BarrierKind.round (n t : ℕ) : BarrierKind → RoundOf
  | doublering => .doublering n t
  | recursivedoubling => .recursivedoubling n (n.size - 1) t
  | bruck => .bruck n t
  | tree => .tree n (Nat.clog 2 n) t

def barrierLength (n : ℕ) : ℕ := 2 * n + 2

theorem BarrierKind.paired (kind : BarrierKind) (hn : 0 < n) (t : ℕ) :
    (kind.round n t).Paired n := by
  have hfold := folded_size hn
  rw [nextPowerOfTwo_shiftRight hn] at hfold
  cases kind with
  | doublering => exact paired_doublering t
  | recursivedoubling => exact paired_recursivedoubling hfold t
  | bruck => exact paired_bruck t
  | tree => exact paired_tree _ t

def barrierRounds (hn : 0 < n) (kind : ℕ → BarrierKind) : Rounds n where
  snd p τ := ((kind (τ / barrierLength n)).round n (τ % barrierLength n)).snd p
  rcv q τ := ((kind (τ / barrierLength n)).round n (τ % barrierLength n)).rcv q
  matched p hp q hq _ := ((kind _).paired hn _).1 p hp q hq
  rcv_lt p hp _ := ((kind _).paired hn _).2 p hp

section Rounds

variable {hn : 0 < n} {kind : ℕ → BarrierKind}

theorem div_barrierLength (ht : t < barrierLength n) :
    (k * barrierLength n + t) / barrierLength n = k := by
  rw [Nat.add_comm, add_mul_div_right _ _ (by rw [barrierLength]; omega),
    div_eq_of_lt ht, Nat.zero_add]

theorem barrierRounds_snd (ht : t < barrierLength n) :
    (barrierRounds hn kind).snd p (k * barrierLength n + t) = ((kind k).round n t).snd p := by
  simp only [barrierRounds, div_barrierLength ht]
  rw [Nat.add_comm, add_mul_mod_self_right, mod_eq_of_lt ht]

theorem barrierRounds_rcv (ht : t < barrierLength n) :
    (barrierRounds hn kind).rcv p (k * barrierLength n + t) = ((kind k).round n t).rcv p := by
  simp only [barrierRounds, div_barrierLength ht]
  rw [Nat.add_comm, add_mul_mod_self_right, mod_eq_of_lt ht]

theorem plays_of_eq_flatMap {l : List TokenAct}
    (hl : l = (List.range' 0 (barrierLength n)).flatMap fun t =>
      tokenRound (((kind k).round n t).snd p) (((kind k).round n t).rcv p)) :
    (barrierRounds hn kind).Plays p (2 * (k * barrierLength n)) (2 * ((k + 1) * barrierLength n))
      l := by
  have hplays := plays_rounds (barrierRounds hn kind) p (k * barrierLength n) (barrierLength n)
  have hshift : range' (k * barrierLength n) (barrierLength n) =
      (range' 0 (barrierLength n)).map (k * barrierLength n + ·) :=
    (map_add_range' 0 (barrierLength n) 1).symm
  rw [hshift, flatMap_map, ← succ_mul] at hplays
  rw [hl]
  refine (flatMap_congr fun t ht => ?_) ▸ hplays
  rw [mem_range'_1] at ht
  rw [barrierRounds_snd (by omega), barrierRounds_rcv (by omega)]

end Rounds

section Loops

variable {bound m fuel D : ℕ} {body : ℕ → List TokenAct}

theorem flatMap_eq_nil_of_ge (h : bound ≤ 2 ^ t) :
    (range' t m).flatMap (fun i => if 2 ^ i < bound then body (2 ^ i) else []) = [] := by
  rw [flatMap_eq_nil_iff]
  intro i hi
  rw [mem_range'_1] at hi
  have hpow : 2 ^ t ≤ 2 ^ i := Nat.pow_le_pow_right Nat.two_pos hi.1
  rw [if_neg (by omega)]

theorem doublingLoop_eq (hfuel : bound ≤ 2 ^ (t + fuel)) (hm : bound ≤ 2 ^ (t + m)) :
    doublingLoop bound body fuel (2 ^ t) =
      (range' t m).flatMap fun i => if 2 ^ i < bound then body (2 ^ i) else [] := by
  induction m generalizing t fuel with
  | zero =>
    cases fuel with
    | zero => rfl
    | succ fuel =>
      rw [doublingLoop, if_neg (by rwa [Nat.add_zero, ← not_lt] at hm)]
      rfl
  | succ m ih =>
    by_cases hlt : 2 ^ t < bound
    · cases fuel with
      | zero => exact absurd hlt hfuel.not_gt
      | succ fuel =>
        rw [doublingLoop, if_pos hlt, range'_succ, flatMap_cons, if_pos hlt,
          shiftLeft_eq, pow_one, ← pow_succ,
          ih (by rwa [Nat.add_right_comm, Nat.add_assoc])
            (by rwa [Nat.add_right_comm, Nat.add_assoc])]
    · rw [flatMap_eq_nil_of_ge (not_lt.1 hlt)]
      cases fuel with
      | zero => rfl
      | succ fuel => rw [doublingLoop, if_neg hlt]

theorem treeDown_eq {size rank : ℕ} (hfuel : D ≤ fuel) : treeDown size rank fuel (2 ^ D >>> 1) =
      (List.range' 0 D).flatMap fun i => treeDownAct size rank (2 ^ (D - 1 - i)) := by
  induction D generalizing fuel with
  | zero =>
    cases fuel with
    | zero => rfl
    | succ fuel => rfl
  | succ D ih =>
    obtain ⟨fuel, rfl⟩ : ∃ f, fuel = f + 1 := ⟨fuel - 1, by omega⟩
    have hhalf : 2 ^ (D + 1) >>> 1 = 2 ^ D := by
      rw [shiftRight_one, pow_succ, Nat.mul_div_cancel _ Nat.two_pos]
    have hshift : range' 1 D = (range' 0 D).map (1 + ·) := (map_add_range' 0 D 1).symm
    rw [hhalf, treeDown, if_pos (Nat.two_pow_pos D), ih (by omega), range'_succ,
      flatMap_cons, hshift, flatMap_map]
    congr 1
    refine flatMap_congr fun i _ => ?_
    rw [show D + 1 - 1 - (1 + i) = D - 1 - i by omega]

theorem nextPowerOfTwoInclusive_eq (n : ℕ) : nextPowerOfTwoInclusive n = 2 ^ Nat.clog 2 n := by
  have hloop : ∀ fuel t, t ≤ clog 2 n → clog 2 n ≤ t + fuel →
      nextPowerOfTwoInclusive.loop n fuel (2 ^ t) = 2 ^ clog 2 n := by
    intro fuel
    induction fuel with
    | zero =>
      intro t h₁ h₂
      rw [nextPowerOfTwoInclusive.loop, le_antisymm h₁ h₂]
    | succ fuel ih =>
      intro t h₁ h₂
      rw [nextPowerOfTwoInclusive.loop]
      by_cases hlt : 2 ^ t < n
      · have hclog : t < clog 2 n := (lt_clog_iff_pow_lt Nat.one_lt_two).2 hlt
        rw [if_pos hlt, shiftLeft_eq, pow_one, ← pow_succ]
        exact ih (t + 1) (by omega) (by omega)
      · have hclog : clog 2 n ≤ t := (clog_le_iff_le_pow Nat.one_lt_two).2 (not_lt.1 hlt)
        rw [if_neg hlt, le_antisymm h₁ hclog]
  refine hloop n 0 (Nat.zero_le _) ?_
  rw [Nat.zero_add]
  exact (clog_le_iff_le_pow Nat.one_lt_two).2 Nat.lt_two_pow_self.le

end Loops

section Plays

variable {hn : 0 < n} {kind : ℕ → BarrierKind}

theorem plays_bruck (hkind : kind k = .bruck) :
    (barrierRounds hn kind).Plays p (2 * (k * barrierLength n)) (2 * ((k + 1) * barrierLength n))
      (barrierIntraBruck n p) := by
  have hlt (m : ℕ) (hm : n ≤ m) : n ≤ 2 ^ (0 + m) := by
    rw [Nat.zero_add]
    exact hm.trans Nat.lt_two_pow_self.le
  refine plays_of_eq_flatMap ?_
  rw [barrierIntraBruck, ← pow_zero 2, doublingLoop_eq (hlt n (le_refl n))
    (hlt (barrierLength n) (by rw [barrierLength]; omega)), hkind]
  refine flatMap_congr fun t _ => ?_
  simp only [BarrierKind.round, bruck]
  split_ifs <;> rfl

theorem treeUpAct_eq {D : ℕ} (ht : t < D) :
    treeUpAct n p (2 ^ t) =
      tokenRound ((RoundOf.tree n D t).snd p) ((RoundOf.tree n D t).rcv p) := by
  have hjump : treeJump D t = t := if_pos ht
  have hcond : ((p ^^^ 2 ^ t) &&& (2 ^ t - 1) = 0 ∧ p ^^^ 2 ^ t < n) ↔ RoundOf.TreePair n t p := by
    rw [and_two_pow_sub_one_eq_mod]
    rfl
  simp only [treeUpAct, tree, hjump, hcond, ht, if_true, show t < 2 * D by omega, true_and]
  by_cases hpair : RoundOf.TreePair n t p
  · rcases lt_trichotomy (p ^^^ 2 ^ t) p with hlt | heq | hgt
    · simp [hpair, hlt, hlt.not_gt, tokenRound]
    · simp [hpair, heq, tokenRound]
    · simp [hpair, hgt, hgt.not_gt, tokenRound]
  · simp [hpair, tokenRound]

theorem treeDownAct_eq {D : ℕ} (ht : t < D) : treeDownAct n p (2 ^ (D - 1 - t)) =
    tokenRound ((RoundOf.tree n D (D + t)).snd p) ((RoundOf.tree n D (D + t)).rcv p) := by
  have hjump : treeJump D (D + t) = D - 1 - t := by
    rw [treeJump, if_neg (by omega)]
    omega
  set j := D - 1 - t with hj
  have hcond : ((p ^^^ 2 ^ j) &&& (2 ^ j - 1) = 0 ∧ p ^^^ 2 ^ j < n) ↔ RoundOf.TreePair n j p := by
    rw [and_two_pow_sub_one_eq_mod]
    rfl
  simp only [treeDownAct, tree, hjump, hcond, show ¬D + t < D by omega, if_false,
    show D + t < 2 * D by omega, true_and]
  by_cases hpair : RoundOf.TreePair n j p
  · rcases lt_trichotomy (p ^^^ 2 ^ j) p with hlt | heq | hgt
    · simp [hpair, hlt, hlt.not_gt, tokenRound]
    · simp [hpair, heq, tokenRound]
    · simp [hpair, hgt, hgt.not_gt, tokenRound]
  · simp [hpair, tokenRound]

theorem clog_le (n : ℕ) : Nat.clog 2 n ≤ n :=
  (clog_le_iff_le_pow Nat.one_lt_two).2 Nat.lt_two_pow_self.le

theorem plays_tree (hkind : kind k = .tree) :
    (barrierRounds hn kind).Plays p (2 * (k * barrierLength n)) (2 * ((k + 1) * barrierLength n))
      (barrierIntraTree n p) := by
  refine plays_of_eq_flatMap ?_
  set D := clog 2 n with hD
  have hDn : D ≤ n := clog_le n
  have hrange : range' 0 (barrierLength n) =
      range' 0 D ++ (range' D D ++ range' (D + D) (barrierLength n - (D + D))) := by
    have h₁ := range'_append_1 (s := D) (m := D) (n := barrierLength n - (D + D))
    have h₂ := range'_append_1 (s := 0) (m := D) (n := D + (barrierLength n - (D + D)))
    have hlen : D + (D + (barrierLength n - (D + D))) = barrierLength n := by
      rw [barrierLength]
      omega
    rw [hlen, Nat.zero_add] at h₂
    rw [h₁, h₂]
  have hpow : D ≤ 2 ^ D := Nat.lt_two_pow_self.le
  have hshift : range' D D = (range' 0 D).map (D + ·) := (map_add_range' 0 D 1).symm
  have hempty : (range' (D + D) (barrierLength n - (D + D))).flatMap (fun t =>
      tokenRound (((kind k).round n t).snd p) (((kind k).round n t).rcv p)) = [] := by
    rw [flatMap_eq_nil_iff]
    intro t ht
    rw [mem_range'_1] at ht
    simp only [hkind, BarrierKind.round, tree, ← hD, show ¬t < 2 * D by omega, false_and, if_false]
    rfl
  rw [hrange, flatMap_append, flatMap_append, hempty, append_nil, hshift,
    flatMap_map, barrierIntraTree]
  simp only [nextPowerOfTwoInclusive_eq n, ← hD]
  rw [treeDown_eq hpow]
  congr 1
  · rw [← pow_zero 2, doublingLoop_eq (m := D)
      (by rw [Nat.zero_add]; exact Nat.pow_le_pow_right Nat.two_pos hpow) (by rw [Nat.zero_add])]
    refine flatMap_congr fun t ht => ?_
    rw [mem_range'_1] at ht
    have hlt : 2 ^ t < 2 ^ D := Nat.pow_lt_pow_right Nat.one_lt_two (by omega)
    rw [if_pos hlt, hkind, treeUpAct_eq (D := D) (by omega)]
    rfl
  · refine flatMap_congr fun t ht => ?_
    rw [mem_range'_1] at ht
    rw [hkind, treeDownAct_eq (D := D) (by omega)]
    rfl

theorem range_recursivedoubling {L m : ℕ} (hL : L + 2 ≤ m) :
    List.range' 0 m =
      [0] ++ (List.range' 1 L ++ ([L + 1] ++ List.range' (L + 2) (m - (L + 2)))) := by
  obtain ⟨r, rfl⟩ : ∃ r, m = L + 2 + r := ⟨m - (L + 2), by omega⟩
  have hlast : [L + 1] ++ range' (L + 2) r = range' (1 + L) (r + 1) := by
    rw [range'_succ, Nat.add_comm 1 L]
    rfl
  have hmiddle := range'_append_1 (s := 1) (m := L) (n := r + 1)
  rw [Nat.add_sub_cancel_left, hlast, hmiddle, show L + 2 + r = L + (r + 1) + 1 by omega,
    range'_succ]
  rfl

theorem maskLoop_eq {L : ℕ} (hp : p < 2 ^ L) :
    doublingLoop (2 ^ L) (maskActs (2 ^ L) p) (2 ^ L) 1 = (List.range' 1 L).flatMap fun t =>
      tokenRound ((RoundOf.recursivedoubling n L t).snd p)
        ((RoundOf.recursivedoubling n L t).rcv p) := by
  have hfuel : 2 ^ L ≤ 2 ^ (0 + 2 ^ L) := by
    rw [Nat.zero_add]
    exact Nat.pow_le_pow_right Nat.two_pos Nat.lt_two_pow_self.le
  have hshift : range' 1 L = (range' 0 L).map (1 + ·) := (map_add_range' 0 L 1).symm
  rw [← pow_zero 2, doublingLoop_eq (m := L) hfuel (by rw [Nat.zero_add]), pow_zero, hshift,
    flatMap_map]
  refine flatMap_congr fun t ht => ?_
  rw [mem_range'_1] at ht
  have hlt : 2 ^ t < 2 ^ L := Nat.pow_lt_pow_right Nat.one_lt_two (by omega)
  have hxor : p ^^^ 2 ^ t < 2 ^ L := xor_lt_two_pow hp hlt
  simp only [hlt, if_true, maskActs, hxor.not_ge, if_false, recursivedoubling,
    show 1 + t ≠ 0 by omega, show 1 + t ≤ L by omega, hp, Nat.add_sub_cancel_left]
  rfl

theorem plays_recursivedoubling (hkind : kind k = .recursivedoubling) (hp : p < n) :
    (barrierRounds hn kind).Plays p (2 * (k * barrierLength n)) (2 * ((k + 1) * barrierLength n))
      (barrierIntraRecursivedoubling n p) := by
  have hfold := folded_size hn
  have hadj := nextPowerOfTwo_shiftRight hn
  rw [hadj] at hfold
  set L := n.size - 1 with hL
  have hsize := hfold.size_eq
  have hextra_lt := hfold.extra_lt
  have hLn : L < 2 ^ L := Nat.lt_two_pow_self
  have hempty : (range' (L + 2) (barrierLength n - (L + 2))).flatMap (fun t =>
      tokenRound (((kind k).round n t).snd p) (((kind k).round n t).rcv p)) = [] := by
    rw [flatMap_eq_nil_iff]
    intro t ht
    rw [mem_range'_1] at ht
    simp only [hkind, BarrierKind.round, recursivedoubling, ← hL, show t ≠ 0 by omega,
      show ¬t ≤ L by omega, show t ≠ L + 1 by omega, false_and, if_false]
    rfl
  have hplays : (barrierRounds hn kind).Plays p (2 * (k * barrierLength n))
      (2 * ((k + 1) * barrierLength n)) _ := plays_of_eq_flatMap rfl
  rw [range_recursivedoubling (m := barrierLength n) (L := L) (by rw [barrierLength]; omega),
    flatMap_append, flatMap_append, flatMap_append, hempty, append_nil,
    hkind] at hplays
  simp only [BarrierKind.round, ← hL, flatMap_singleton] at hplays
  rw [barrierIntraRecursivedoubling]
  simp only [hadj]
  by_cases hge : 2 ^ L ≤ p
  · have hmiddle : (range' 1 L).flatMap (fun t =>
        tokenRound ((recursivedoubling n L t).snd p)
          ((recursivedoubling n L t).rcv p)) = [] := by
      rw [flatMap_eq_nil_iff]
      intro t ht
      rw [mem_range'_1] at ht
      simp only [recursivedoubling, show t ≠ 0 by omega, show t ≤ L by omega,
        hge.not_gt, if_true, if_false]
      rfl
    rw [hmiddle] at hplays
    simp only [recursivedoubling, hge, show ¬p < n - 2 ^ L by omega, if_true, if_false,
      show L + 1 ≠ 0 by omega, show ¬L + 1 ≤ L by omega, true_and] at hplays
    simp only [show 2 ^ L ≠ n by omega, show p ≥ 2 ^ L from hge, hge.not_gt,
      show ¬p < n - 2 ^ L by omega, ne_eq, not_false_eq_true, if_true, if_false, append_nil]
    exact hplays
  · rw [not_le] at hge
    rw [← maskLoop_eq hge] at hplays
    simp only [recursivedoubling, hge.not_ge, if_true, if_false,
      show L + 1 ≠ 0 by omega, show ¬L + 1 ≤ L by omega, true_and] at hplays
    by_cases hextra : p < n - 2 ^ L
    · simp only [hextra, if_true] at hplays
      simp only [show 2 ^ L ≠ n by omega, ge_iff_le, hge.not_ge, hge, hextra, ne_eq,
        not_false_eq_true, if_true, if_false]
      have hsync := hplays.insert_sync (p + 2 ^ L) _ [] (append_nil _).symm
      rw [append_assoc, append_assoc] at hsync
      rw [append_assoc]
      exact hsync
    · simp only [hextra, if_false] at hplays
      simp only [ge_iff_le, hge.not_ge, hge, hextra, if_true, if_false, ite_self, nil_append,
        append_nil]
      rw [show tokenRound none none = [] from rfl, nil_append, append_nil] at hplays
      exact hplays

theorem tmod_left (hp : 0 < p) (hpn : p < n) : ((p : ℤ) - 1).tmod n = (p - 1 : ℕ) := by
  rw [Int.tmod_eq_of_lt (by omega) (by omega)]
  omega

theorem tmod_left_zero (hn : 2 ≤ n) : (((0 : ℕ) : ℤ) - 1).tmod n = anySource := by
  rw [cast_zero, zero_sub, Int.neg_tmod, Int.tmod_eq_of_lt (by omega) (by omega), anySource]

theorem barrierIntraDoublering_of_pos (hp : 0 < p) (hpn : p < n) :
    barrierIntraDoublering n p = [.recv (p - 1), .send ((p + 1) % n), .recv (p - 1),
      .send ((p + 1) % n), .sync ((p + 1) % n)] := by
  have hleft : recvAt ((p - 1 : ℕ) : ℤ) = .recv (p - 1) := by
    rw [recvAt, anySource, if_neg (by omega), Int.toNat_natCast]
  simp only [barrierIntraDoublering, tmod_left hp hpn, hleft, show p > 0 from hp,
    show p ≠ 0 by omega, if_true, if_false]
  rfl

theorem barrierIntraDoublering_zero (hn : 2 ≤ n) :
    barrierIntraDoublering n 0 = [.send 1, .recvAny, .send 1, .sync 1, .recvAny] := by
  have hright : (0 + 1) % n = 1 := mod_eq_of_lt (by omega)
  have hany : recvAt anySource = .recvAny := if_pos rfl
  simp only [barrierIntraDoublering, tmod_left_zero hn, hright, hany, lt_irrefl, if_true, if_false]
  rfl

theorem doublering_snd (hp : p < n) (t : ℕ) : (RoundOf.doublering n t).snd p =
    if t = p ∨ t = n + p then some ((p + 1) % n) else none := by
  have hcond : (t < 2 * n ∧ t % n = p) ↔ t = p ∨ t = n + p := by
    constructor
    · rintro ⟨hlt, rfl⟩
      rcases Nat.lt_or_ge t n with h | h
      · exact .inl (mod_eq_of_lt h).symm
      · rw [mod_eq_sub_mod h, mod_eq_of_lt (by omega)]
        omega
    · rintro (rfl | rfl)
      · exact ⟨by omega, mod_eq_of_lt hp⟩
      · rw [add_mod_left]
        exact ⟨by omega, mod_eq_of_lt hp⟩
  simp only [doublering, hcond]

theorem doublering_rcv (hn : 2 ≤ n) (hp : p < n) (t : ℕ) : (RoundOf.doublering n t).rcv p =
    if t = leftOf p n 1 ∨ t = n + leftOf p n 1 then some (leftOf p n 1) else none := by
  have hleft := leftOf_lt (p := p) (k := 1) (show 0 < n by omega)
  have hmatched := (paired_doublering (n := n) t).1 _ hleft p hp
  rw [doublering_snd hleft] at hmatched
  have hright : (leftOf p n 1 + 1) % n = p := leftOf_add hp (by omega)
  split_ifs at hmatched ⊢ with hcond
  · exact hmatched.1 (by rw [hright])
  · rw [eq_none_iff_forall_ne_some]
    intro q hq
    have hqn := (paired_doublering (n := n) t).2 p hp q hq
    have hsnd := ((paired_doublering (n := n) t).1 q hqn p hp).2 hq
    rw [doublering_snd hqn] at hsnd
    simp only [ite_none_right_eq_some, Option.some.injEq] at hsnd
    obtain rfl : leftOf p n 1 = q := (add_mod_eq_iff hqn hp (by omega)).1 hsnd.2
    exact hcond hsnd.1

theorem plays_doublering_skip (hkind : kind k = .doublering) (h2 : 2 ≤ n) (hp : p < n)
    (t u : ℕ) (htu : t ≤ u) (hu : u ≤ barrierLength n)
    (hidle : ∀ i, t ≤ i → i < u → i ≠ p ∧ i ≠ n + p ∧ i ≠ leftOf p n 1 ∧ i ≠ n + leftOf p n 1) :
    (barrierRounds hn kind).Plays p (2 * (k * barrierLength n + t)) (2 * (k * barrierLength n + u))
      [] := by
  have hplays : (barrierRounds hn kind).Plays p (2 * (k * barrierLength n + t))
      (2 * (k * barrierLength n + t + (u - t))) [] := by
    refine plays_skip fun i hi hi' => ?_
    obtain ⟨j, rfl⟩ : ∃ j, i = k * barrierLength n + j := ⟨i - k * barrierLength n, by omega⟩
    obtain ⟨h₁, h₂, h₃, h₄⟩ := hidle j (by omega) (by omega)
    rw [barrierRounds_snd (by omega), barrierRounds_rcv (by omega), hkind]
    exact ⟨(doublering_snd hp j).trans (if_neg (by omega)),
      (doublering_rcv h2 hp j).trans (if_neg (by omega))⟩
  rwa [Nat.add_assoc, Nat.add_sub_cancel' htu] at hplays

theorem plays_doublering_round {snd rcv : Option ℕ} (hkind : kind k = .doublering) (h2 : 2 ≤ n)
    (hp : p < n) (t : ℕ) (ht : t < barrierLength n)
    (hsnd : (if t = p ∨ t = n + p then some ((p + 1) % n) else none) = snd)
    (hrcv : (if t = leftOf p n 1 ∨ t = n + leftOf p n 1 then some (leftOf p n 1) else none) = rcv) :
    (barrierRounds hn kind).Plays p (2 * (k * barrierLength n + t))
      (2 * (k * barrierLength n + (t + 1))) (tokenRound snd rcv) := by
  have hplays := plays_round (barrierRounds hn kind) p (k * barrierLength n + t)
  rw [barrierRounds_snd ht, barrierRounds_rcv ht, hkind] at hplays
  rw [← hsnd, ← hrcv, ← doublering_snd hp, ← doublering_rcv h2 hp]
  exact hplays

theorem plays_doublering_of_pos (hkind : kind k = .doublering) (h2 : 2 ≤ n) (hpos : 0 < p)
    (hp : p < n) : (barrierRounds hn kind).Plays p (2 * (k * barrierLength n))
      (2 * ((k + 1) * barrierLength n)) (barrierIntraDoublering n p) := by
  have hlen : barrierLength n = 2 * n + 2 := rfl
  have hleft : leftOf p n 1 = p - 1 := by rw [leftOf_eq hp (by omega), if_pos (by omega)]
  -- the rounds `p - 1` and `p` of each turn
  have hturn (t : ℕ) (ht : t = 0 ∨ t = n) : (barrierRounds hn kind).Plays p
      (2 * (k * barrierLength n + (t + (p - 1))))
      (2 * (k * barrierLength n + (t + (p - 1) + 1 + 1)))
      (tokenRound none (some (p - 1)) ++ tokenRound (some ((p + 1) % n)) none) := by
    refine (plays_doublering_round hkind h2 hp _ (by omega) (if_neg (by omega)) ?_).append
      (plays_doublering_round hkind h2 hp _ (by omega) (if_pos (by omega)) (if_neg ?_))
    · rw [hleft, if_pos (by omega)]
    · omega
  have hbefore : (barrierRounds hn kind).Plays p (2 * (k * barrierLength n + 0))
      (2 * (k * barrierLength n + (0 + (p - 1)))) [] :=
    plays_doublering_skip hkind h2 hp _ _ (by omega) (by omega) (by omega)
  have hbetween : (barrierRounds hn kind).Plays p
    (2 * (k * barrierLength n + (0 + (p - 1) + 1 + 1)))
      (2 * (k * barrierLength n + (n + (p - 1)))) [] :=
    plays_doublering_skip hkind h2 hp _ _ (by omega) (by omega) (by omega)
  have hafter : (barrierRounds hn kind).Plays p (2 * (k * barrierLength n + (n + (p - 1) + 1 + 1)))
      (2 * (k * barrierLength n + barrierLength n)) [] :=
    plays_doublering_skip hkind h2 hp _ _ (by omega) (by omega) (by omega)
  have hplays := hbefore.append ((hturn 0 (.inl rfl)).append
    (hbetween.append ((hturn n (.inr rfl)).append hafter)))
  rw [barrierIntraDoublering_of_pos hpos hp, succ_mul k]
  exact hplays.insert_sync ((p + 1) % n) [.recv (p - 1), .send ((p + 1) % n), .recv (p - 1),
    .send ((p + 1) % n)] [] rfl

theorem plays_doublering_zero (hkind : kind k = .doublering) (h2 : 2 ≤ n)
    (honly : ∀ t', k * barrierLength n ≤ t' → ∀ src < n,
      (barrierRounds hn kind).snd src t' = some 0 → src = n - 1) :
    (barrierRounds hn kind).Plays 0 (2 * (k * barrierLength n)) (2 * ((k + 1) * barrierLength n))
      (barrierIntraDoublering n 0) := by
  have hlen : barrierLength n = 2 * n + 2 := rfl
  have hleft : leftOf 0 n 1 = n - 1 := by
    rw [leftOf_eq hn (by omega), if_neg (by omega), Nat.zero_add]
  have hright : (0 + 1) % n = 1 := mod_eq_of_lt (by omega)
  -- the rounds `0` and `n - 1` of each turn
  have hturn (t : ℕ) (ht : t = 0 ∨ t = n) : (barrierRounds hn kind).Plays 0
      (2 * (k * barrierLength n + t)) (2 * (k * barrierLength n + (t + (n - 1) + 1)))
      (tokenRound (some 1) none ++ ([] ++ tokenRound none (some (n - 1)))) := by
    refine (plays_doublering_round hkind h2 hn _ (by omega) ?_ (if_neg ?_)).append
      ((plays_doublering_skip hkind h2 hn _ _ ?_ (by omega) ?_).append
        (plays_doublering_round hkind h2 hn _ (by omega) (if_neg (by omega)) ?_))
    · rw [hright, if_pos (by omega)]
    · omega
    · omega
    · omega
    · rw [hleft, if_pos (by omega)]
  have hafter : (barrierRounds hn kind).Plays 0 (2 * (k * barrierLength n + (n + (n - 1) + 1)))
      (2 * (k * barrierLength n + barrierLength n)) [] :=
    plays_doublering_skip hkind h2 hn _ _ (by omega) (by omega) (by omega)
  have hfirst := hturn 0 (.inl rfl)
  rw [show 0 + (n - 1) + 1 = n by omega] at hfirst
  have hplays := hfirst.append ((hturn n (.inr rfl)).append hafter)
  have hsync := hplays.insert_sync 1 [.send 1, .recv (n - 1), .send 1] [.recv (n - 1)] rfl
  have honly' : ∀ t', 2 * (k * barrierLength n + 0) ≤ 2 * t' + 1 → ∀ src < n,
      (barrierRounds hn kind).snd src t' = some 0 → src = n - 1 :=
    fun t' ht' => honly t' (by omega)
  have hany₁ := hsync.any_of_only [.send 1] [.send 1, .sync 1, .recv (n - 1)] rfl honly'
  have hany₂ := hany₁.any_of_only [.send 1, .recvAny, .send 1, .sync 1] [] rfl honly'
  rw [barrierIntraDoublering_zero h2, succ_mul k]
  exact hany₂

end Plays

end Ulfm
