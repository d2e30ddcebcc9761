import Ulfm.Foundation.Script
import Ulfm.Tuned.Binomial

/-!
# Numbers of processes that are no power of two

The processes that are too many for a power of two are folded out: the even one of such a pair
gives its data to the odd one and gets the result from it. The others have new ranks, and
exchange messages with the process whose new rank differs in one bit.
-/

namespace Ulfm

open List Option Script Nat

/-- The rank of the process with a new rank. -/
def remoteRank (extraRanks newremote : ℕ) : ℕ :=
  if newremote < extraRanks then newremote * 2 + 1 else newremote + extraRanks

section NewRanks

variable {n L e i i' p q t : ℕ}

/-- The number of processes is a power of two with some extra ones. -/
structure Folded (n L e : ℕ) : Prop where
  size_eq : n = 2 ^ L + e
  extra_lt : e < 2 ^ L

theorem nextPowerOfTwo_shiftRight (hn : 0 < n) : nextPowerOfTwo n >>> 1 = 2 ^ (n.size - 1) := by
  have hpos : 0 < n.size := Nat.size_pos.2 hn
  rw [nextPowerOfTwo_eq, shiftRight_one]
  conv_lhs => rw [← Nat.sub_add_cancel hpos, pow_succ]
  exact Nat.mul_div_cancel _ Nat.two_pos

theorem folded_size (hn : 0 < n) : Folded n (n.size - 1) (n - nextPowerOfTwo n >>> 1) := by
  have hpos : 0 < n.size := Nat.size_pos.2 hn
  have hle : 2 ^ (n.size - 1) ≤ n := lt_size.1 (sub_lt hpos Nat.one_pos)
  have hlt : n < 2 ^ (n.size - 1 + 1) := by
    rw [Nat.sub_add_cancel hpos]
    exact lt_size_self n
  rw [pow_succ] at hlt
  rw [nextPowerOfTwo_shiftRight hn]
  exact ⟨by omega, by omega⟩

/-- The ranks that a new rank stands for are the last one and possibly the one before. -/
def firstRank (e i : ℕ) : ℕ := i + min i e

theorem firstRank_succ : firstRank e (i + 1) = remoteRank e i + 1 := by
  rw [firstRank, remoteRank]
  split_ifs <;> omega

theorem firstRank_le : firstRank e i ≤ remoteRank e i := by
  rw [firstRank, remoteRank]
  split_ifs <;> omega

theorem firstRank_mono (h : i ≤ i') : firstRank e i ≤ firstRank e i' := by
  rw [firstRank, firstRank]
  omega

theorem Folded.firstRank_two_pow (h : Folded n L e) : firstRank e (2 ^ L) = n := by
  rw [firstRank, h.size_eq, min_eq_right h.extra_lt.le]

theorem Folded.remoteRank_lt (h : Folded n L e) (hi : i < 2 ^ L) : remoteRank e i < n := by
  have hsize := h.size_eq
  have hextra := h.extra_lt
  rw [remoteRank]
  split_ifs <;> omega

theorem remoteRank_lt_iff : remoteRank e i < remoteRank e i' ↔ i < i' := by
  rw [remoteRank, remoteRank]
  split_ifs <;> omega

theorem remoteRank_inj : remoteRank e i = remoteRank e i' ↔ i = i' := by
  rw [remoteRank, remoteRank]
  split_ifs <;> omega

/-- The new rank of a process; those that are folded out have none. -/
def newRankOf (e p : ℕ) : Option ℕ :=
  if p < 2 * e then if p % 2 = 0 then none else some (p / 2) else some (p - e)

theorem newRankOf_even (hi : i < e) : newRankOf e (2 * i) = none := by
  rw [newRankOf, if_pos (by omega), if_pos (by omega)]

theorem newRankOf_remoteRank : newRankOf e (remoteRank e i) = some i := by
  by_cases hi : i < e
  · rw [remoteRank, if_pos hi, newRankOf, if_pos (by omega), if_neg (by omega)]
    congr 1
    omega
  · rw [remoteRank, if_neg hi, newRankOf, if_neg (by omega), Nat.add_sub_cancel]

theorem Folded.cases_rank (h : Folded n L e) (hp : p < n) :
    (∃ i < e, p = 2 * i) ∨ ∃ i < 2 ^ L, p = remoteRank e i := by
  have hsize := h.size_eq
  have hextra := h.extra_lt
  rcases Nat.lt_or_ge p (2 * e) with hlt | hge
  · rcases mod_two_eq_zero_or_one p with heven | hodd
    · exact .inl ⟨p / 2, by omega, by omega⟩
    · refine .inr ⟨p / 2, by omega, ?_⟩
      rw [remoteRank, if_pos (by omega)]
      omega
  · refine .inr ⟨p - e, by omega, ?_⟩
    rw [remoteRank, if_neg (by omega)]
    omega

/-- What the processes send: an even extra rank to the odd one, in each stage a new rank to the one
that differs in a bit, and at the end an odd extra rank to the even one. -/
structure FoldMessages (M : Type) where
  inMsg : ℕ → M
  bit : ℕ → ℕ
  stage : ℕ → ℕ → Option M
  outMsg : ℕ → Option M

namespace FoldMessages

variable {M : Type} (m : FoldMessages M)

/-- The new rank with which `i` exchanges messages. -/
def partner (k i : ℕ) : ℕ := i ^^^ 2 ^ m.bit k

def snd (e L p t : ℕ) : Option (ℕ × M) :=
  match newRankOf e p with
  | none => if t = 0 then some (p + 1, m.inMsg (p / 2)) else none
  | some i =>
    if t = 0 then none
    else if t ≤ L then (m.stage (t - 1) i).map (remoteRank e (m.partner (t - 1) i), ·)
    else if i < e then (m.outMsg i).map (p - 1, ·) else none

def rcv (e L p t : ℕ) : Option (ℕ × M) :=
  match newRankOf e p with
  | none => if t = L + 1 then (m.outMsg (p / 2)).map (p + 1, ·) else none
  | some i =>
    if t = 0 then if i < e then some (p - 1, m.inMsg i) else none
    else if t ≤ L then
      (m.stage (t - 1) (m.partner (t - 1) i)).map (remoteRank e (m.partner (t - 1) i), ·)
    else none

/-- What a process with a new rank does before the stages, in a stage and after the stages. -/
def inEvents (e i : ℕ) : List (Event M) :=
  if i < e then [.post (2 * i), .recv (2 * i) (m.inMsg i)] else []

def stageEvents (e i k : ℕ) : List (Event M) :=
  roundEvents ((m.stage k i).map (remoteRank e (m.partner k i), ·))
    ((m.stage k (m.partner k i)).map (remoteRank e (m.partner k i), ·))

def outEvents (e i : ℕ) : List (Event M) :=
  if i < e then ((m.outMsg i).map fun msg => .send (2 * i) msg).toList else []

variable {m}

theorem partner_partner (k i : ℕ) : m.partner k (m.partner k i) = i := by
  rw [partner, partner, Nat.xor_assoc, Nat.xor_self, xor_zero]

theorem partner_lt {k : ℕ} (hbit : m.bit k < L) (hi : i < 2 ^ L) : m.partner k i < 2 ^ L :=
  xor_lt_two_pow hi (Nat.pow_lt_pow_right Nat.one_lt_two hbit)

theorem snd_even (hi : i < e) :
    m.snd e L (2 * i) t = if t = 0 then some (2 * i + 1, m.inMsg i) else none := by
  rw [snd, newRankOf_even hi, Nat.mul_div_cancel_left _ Nat.two_pos]

theorem rcv_even (hi : i < e) :
    m.rcv e L (2 * i) t = if t = L + 1 then (m.outMsg i).map (2 * i + 1, ·) else none := by
  rw [rcv, newRankOf_even hi, Nat.mul_div_cancel_left _ Nat.two_pos]

theorem snd_remoteRank : m.snd e L (remoteRank e i) t = if t = 0 then none
    else if t ≤ L then (m.stage (t - 1) i).map (remoteRank e (m.partner (t - 1) i), ·)
    else if i < e then (m.outMsg i).map (remoteRank e i - 1, ·) else none := by
  rw [snd, newRankOf_remoteRank]

theorem rcv_remoteRank : m.rcv e L (remoteRank e i) t =
    if t = 0 then if i < e then some (remoteRank e i - 1, m.inMsg i) else none
    else if t ≤ L then
      (m.stage (t - 1) (m.partner (t - 1) i)).map (remoteRank e (m.partner (t - 1) i), ·)
    else none := by
  rw [rcv, newRankOf_remoteRank]

theorem remoteRank_of_lt (hi : i < e) : remoteRank e i = 2 * i + 1 := by
  rw [remoteRank, if_pos hi, Nat.mul_comm]

theorem remoteRank_eq_iff (hi : i < e) : remoteRank e i' = 2 * i + 1 ↔ i' = i := by
  rw [← remoteRank_of_lt hi, remoteRank_inj]

theorem remoteRank_ne_even (hi : i < e) (i' : ℕ) : remoteRank e i' ≠ 2 * i := by
  rw [remoteRank]
  split_ifs <;> omega

theorem snd_eq_some_iff (h : Folded n L e) (hp : p < n) (hq : q < n) (ht : t < L + 2) {msg : M} :
    m.snd e L p t = some (q, msg) ↔ m.rcv e L q t = some (p, msg) := by
  rcases h.cases_rank hp with ⟨i, hi, rfl⟩ | ⟨i, hi, rfl⟩ <;>
    rcases h.cases_rank hq with ⟨i', hi', rfl⟩ | ⟨i', hi', rfl⟩
  · rw [snd_even hi, rcv_even hi']
    split_ifs <;> simp <;> omega
  · rw [snd_even hi, rcv_remoteRank]
    have hne := remoteRank_ne_even hi (m.partner (t - 1) i')
    by_cases ht₀ : t = 0
    · rw [if_pos ht₀, if_pos ht₀]
      by_cases hi' : i' < e
      · rw [if_pos hi', remoteRank_of_lt hi', Nat.add_sub_cancel]
        simp only [Option.some.injEq, Prod.mk.injEq]
        constructor
        · rintro ⟨hii, rfl⟩
          obtain rfl : i = i' := by omega
          exact ⟨rfl, rfl⟩
        · rintro ⟨hii, rfl⟩
          obtain rfl : i = i' := by omega
          exact ⟨rfl, rfl⟩
      · have hne' : 2 * i + 1 ≠ remoteRank e i' := by
          intro heq
          have hii := (remoteRank_eq_iff hi).1 heq.symm
          omega
        rw [if_neg hi']
        simp [hne']
    · rw [if_neg ht₀, if_neg ht₀]
      split_ifs <;> simp [hne]
  · rw [snd_remoteRank, rcv_even hi']
    have hne := remoteRank_ne_even hi' (m.partner (t - 1) i)
    by_cases htL : t = L + 1
    · rw [if_neg (by omega), if_neg (by omega), if_pos htL]
      by_cases hie : i < e
      · rw [if_pos hie, remoteRank_of_lt hie, Nat.add_sub_cancel]
        simp only [map_eq_some_iff, Prod.mk.injEq]
        constructor
        · rintro ⟨x, hx, hii, rfl⟩
          obtain rfl : i = i' := by omega
          exact ⟨x, hx, rfl, rfl⟩
        · rintro ⟨x, hx, hii, rfl⟩
          obtain rfl : i = i' := by omega
          exact ⟨x, hx, rfl, rfl⟩
      · have hne' : 2 * i' + 1 ≠ remoteRank e i := by
          intro heq
          have hii := (remoteRank_eq_iff hi').1 heq.symm
          omega
        rw [if_neg hie]
        simp [hne']
    · rw [if_neg htL]
      split_ifs
      · rfl
      · simp [hne]
      all_goals omega
  · rw [snd_remoteRank, rcv_remoteRank]
    by_cases ht₀ : t = 0
    · rw [if_pos ht₀, if_pos ht₀]
      by_cases hie : i' < e
      · have hne := remoteRank_ne_even hie i
        rw [if_pos hie, remoteRank_of_lt hie, Nat.add_sub_cancel]
        simp [hne.symm]
      · rw [if_neg hie]
        simp
    · rw [if_neg ht₀, if_neg ht₀]
      by_cases htL : t ≤ L
      · rw [if_pos htL, if_pos htL]
        simp only [map_eq_some_iff, Prod.mk.injEq, remoteRank_inj]
        constructor
        · rintro ⟨x, hx, rfl, rfl⟩
          rw [partner_partner]
          exact ⟨x, hx, rfl, rfl⟩
        · rintro ⟨x, hx, rfl, rfl⟩
          exact ⟨x, hx, partner_partner _ _, rfl⟩
      · rw [if_neg htL, if_neg htL]
        by_cases hie : i < e
        · have hne := remoteRank_ne_even hie i'
          rw [if_pos hie, remoteRank_of_lt hie, Nat.add_sub_cancel]
          simp [hne.symm]
        · rw [if_neg hie]
          simp

theorem rcv_lt (h : Folded n L e) (hbit : ∀ k < L, m.bit k < L) (hp : p < n) {src : ℕ} {msg : M}
    (hmsg : m.rcv e L p t = some (src, msg)) : src < n := by
  rcases h.cases_rank hp with ⟨i, hi, rfl⟩ | ⟨i, hi, rfl⟩
  · rw [rcv_even hi] at hmsg
    split_ifs at hmsg
    obtain ⟨x, -, heq⟩ := map_eq_some_iff.1 hmsg
    cases heq
    rw [← remoteRank_of_lt hi]
    exact h.remoteRank_lt (by have := h.extra_lt; omega)
  · rw [rcv_remoteRank] at hmsg
    split_ifs at hmsg with ht₀ hie htL
    · cases hmsg
      omega
    · obtain ⟨x, -, heq⟩ := map_eq_some_iff.1 hmsg
      cases heq
      exact h.remoteRank_lt (partner_lt (hbit _ (by omega)) hi)

theorem snd_lt (h : Folded n L e) (hbit : ∀ k < L, m.bit k < L) (hp : p < n) {dst : ℕ} {msg : M}
    (hmsg : m.snd e L p t = some (dst, msg)) : dst < n := by
  rcases h.cases_rank hp with ⟨i, hi, rfl⟩ | ⟨i, hi, rfl⟩
  · rw [snd_even hi] at hmsg
    split_ifs at hmsg
    cases hmsg
    rw [← remoteRank_of_lt hi]
    exact h.remoteRank_lt (hi.trans h.extra_lt)
  · rw [snd_remoteRank] at hmsg
    split_ifs at hmsg with ht₀ htL hie
    · obtain ⟨x, -, heq⟩ := map_eq_some_iff.1 hmsg
      cases heq
      exact h.remoteRank_lt (partner_lt (hbit _ (by omega)) hi)
    · obtain ⟨x, -, heq⟩ := map_eq_some_iff.1 hmsg
      cases heq
      omega

theorem flatMap_rounds (f : ℕ → List (Event M)) : (List.range' 0 (L + 2)).flatMap f =
      f 0 ++ (List.range' 0 L).flatMap (fun k => f (k + 1)) ++ f (L + 1) := by
  have hshift : range' 1 L = (range' 0 L).map (1 + ·) := (map_add_range' (a := 1) 0 L 1).symm
  rw [range'_1_concat, range'_succ, flatMap_append, flatMap_cons,
    flatMap_singleton, Nat.zero_add, Nat.zero_add, hshift, flatMap_map]
  simp only [Nat.add_comm 1]

theorem rounds_even (hi : i < e) : (List.range' 0 (L + 2)).flatMap
    (fun t => roundEvents (m.snd e L (2 * i) t) (m.rcv e L (2 * i) t)) =
      .send (2 * i + 1) (m.inMsg i) :: roundEvents none ((m.outMsg i).map (2 * i + 1, ·)) := by
  have hstages : (range' 0 L).flatMap (fun k =>
      roundEvents (m.snd e L (2 * i) (k + 1)) (m.rcv e L (2 * i) (k + 1))) = [] := by
    rw [flatMap_eq_nil_iff]
    intro k hk
    rw [mem_range'_1] at hk
    rw [snd_even hi, rcv_even hi, if_neg (succ_ne_zero k), if_neg (by omega)]
    rfl
  rw [flatMap_rounds, hstages, append_nil, snd_even hi, rcv_even hi, snd_even hi, rcv_even hi,
    if_pos rfl, if_pos rfl, if_neg (succ_ne_zero L), if_neg (succ_ne_zero L).symm]
  cases m.outMsg i <;> rfl

theorem rounds_remoteRank : (List.range' 0 (L + 2)).flatMap
    (fun t => roundEvents (m.snd e L (remoteRank e i) t) (m.rcv e L (remoteRank e i) t)) =
      m.inEvents e i ++ (List.range' 0 L).flatMap (m.stageEvents e i) ++ m.outEvents e i := by
  have hin : roundEvents (m.snd e L (remoteRank e i) 0) (m.rcv e L (remoteRank e i) 0) =
      m.inEvents e i := by
    rw [snd_remoteRank, rcv_remoteRank, if_pos rfl, if_pos rfl, inEvents]
    split_ifs with hie
    · rw [remoteRank_of_lt hie, Nat.add_sub_cancel]
      rfl
    · rfl
  have hstages : (range' 0 L).flatMap (fun k => roundEvents
      (m.snd e L (remoteRank e i) (k + 1)) (m.rcv e L (remoteRank e i) (k + 1))) =
        (range' 0 L).flatMap (m.stageEvents e i) := by
    refine flatMap_congr fun k hk => ?_
    rw [mem_range'_1] at hk
    rw [snd_remoteRank, rcv_remoteRank, if_neg (succ_ne_zero k), if_neg (succ_ne_zero k),
      if_pos (by omega), if_pos (by omega), Nat.add_sub_cancel]
    rfl
  have hlast : roundEvents (m.snd e L (remoteRank e i) (L + 1))
      (m.rcv e L (remoteRank e i) (L + 1)) = m.outEvents e i := by
    rw [snd_remoteRank, rcv_remoteRank, if_neg (succ_ne_zero L), if_neg (succ_ne_zero L),
      if_neg (not_succ_le_self L), if_neg (not_succ_le_self L), outEvents]
    split_ifs with hie
    · rw [remoteRank_of_lt hie, Nat.add_sub_cancel]
      cases m.outMsg i <;> rfl
    · rfl
  rw [flatMap_rounds, hin, hstages, hlast]

theorem exists_computes {α : Type} [Nonempty α] {prog : ℕ → Script M α} {P : ℕ → α → Prop}
    (h : Folded n L e) (m : FoldMessages M) (hbit : ∀ k < L, m.bit k < L)
    (heven : ∀ i < e, ∃ a, Follows (prog (2 * i))
      (.send (2 * i + 1) (m.inMsg i) :: roundEvents none ((m.outMsg i).map (2 * i + 1, ·))) a ∧
        P (2 * i) a)
    (hnew : ∀ i < 2 ^ L, ∃ a, Follows (prog (remoteRank e i))
      (m.inEvents e i ++ (List.range' 0 L).flatMap (m.stageEvents e i) ++ m.outEvents e i) a ∧
        P (remoteRank e i) a) :
    ∃ out, Computes n prog out ∧ ∀ p < n, P p (out p) := by
  have hex : ∀ p < n, ∃ a, Follows (prog p) ((range' 0 (L + 2)).flatMap fun t =>
      roundEvents (m.snd e L p t) (m.rcv e L p t)) a ∧ P p a := by
    intro p hp
    rcases h.cases_rank hp with ⟨i, hi, rfl⟩ | ⟨i, hi, rfl⟩
    · rw [rounds_even hi]
      exact heven i hi
    · rw [rounds_remoteRank]
      exact hnew i hi
  choose! out hfollows hout using hex
  exact ⟨out, computes_of_rounds (L + 2) (m.snd e L) (m.rcv e L) hfollows
    (fun p hp t _ dst msg => snd_lt h hbit hp) (fun p hp t _ src msg => rcv_lt h hbit hp)
    fun p hp q hq t ht msg => snd_eq_some_iff h hp hq ht, hout⟩

end FoldMessages

end NewRanks

end Ulfm
