import Mathlib.Data.Nat.Digits.Lemmas
import Ulfm.Foundation.LocalTree

/-!
# De Bruijn routing between daemons

The number of a daemon is read as a word over the digits of `log_npeers` bits. A message goes to
the daemon whose word is shifted by one digit towards the target. When there is no such daemon, the
top digit is cleared.

The numbers of the source are C integers: `my_id << i` is cut off at 32 bits and then extended to
64 bits with its sign.
-/

namespace Ulfm

open List Nat

namespace Debruijn

/-- A step of the loop in `ilog2`: the variables are `v` and `r`, and the constants `b[i]` and
`S[i]`. -/
def ilog2Step (x c : ℕ × ℕ) : ℕ × ℕ := if x.1 &&& c.1 ≠ 0 then (x.1 >>> c.2, x.2 ||| c.2) else x

/-- `ilog2`. -/
def ilog2 (v : ℕ) : ℕ :=
  ([(0xFFFF0000, 16), (0xFF00, 8), (0xF0, 4), (0xC, 2), (0x2, 1)].foldl ilog2Step (v, 0)).2

/-- The bits of an `unsigned int` inverted. -/
def complement (w : ℕ) : ℕ := 2 ^ 32 - 1 - w

/-- The bits of an `int` that is converted to `uint64_t`. -/
def toUint64 (x : ℕ) : ℕ := if x < 2 ^ 31 then x else x + (2 ^ 64 - 2 ^ 32)

/-- The bits of `x << i` for an `int`. -/
def shl32 (x i : ℕ) : ℕ := (x <<< i) % 2 ^ 32

/-- What a daemon computes from the number of daemons. -/
structure Layout where
  numProcs : ℕ
  logNranks : ℕ
  logNpeers : ℕ
  rankMask : ℕ
deriving DecidableEq

/-- `assert(log_nranks < 31)`. -/
def Admits (numProcs : ℕ) : Prop := ilog2 numProcs < 31

instance (numProcs : ℕ) : Decidable (Admits numProcs) := inferInstanceAs (Decidable (_ < _))

/-- The first part of `update_routing_tree`. It has no result when `1` is shifted by the width of an
`int`. -/
def layout (numProcs : ℕ) : Option Layout :=
  let logNranks := ilog2 numProcs
  let logNpeers := if logNranks < 3 then 1 else if logNranks < 7 then 2 else 4
  let logNranks := ((logNranks + logNpeers) &&& complement (logNpeers - 1)) - 1
  if 32 ≤ logNranks + 1 then none
  else some ⟨numProcs, logNranks, logNpeers, (1 <<< (logNranks + 1)) - 1⟩

namespace Layout

variable (d : Layout)

/-- The parent and the children that `update_routing_tree` computes. -/
def updateRoutingTree (myVpid : ℕ) : NodeView where
  prev := if myVpid = 0 then -1 else (myVpid >>> d.logNpeers : ℕ)
  next :=
    if myVpid >>> (d.logNranks + 1 - d.logNpeers) = 0 then
      ((range (1 <<< d.logNpeers)).reverse.map fun i =>
        ((myVpid <<< d.logNpeers) ||| i) &&& d.rankMask).filter fun next =>
          next > myVpid ∧ next < d.numProcs
    else []

/-- The loop of `debruijn_next_hop`. It gives the shift and the route. -/
def overlap (myId target : ℕ) : ℕ → ℕ → ℕ → Option (ℕ × ℕ)
  | 0, _, _ => none
  | fuel + 1, i, mask =>
    if 32 ≤ i then none
    else
      let mask := (mask >>> i) <<< i
      let route := toUint64 (shl32 myId i ||| target)
      if route &&& mask ≠ toUint64 (shl32 myId i &&& target) &&& mask then
        overlap myId target fuel (i + d.logNpeers) mask
      else some (i, route)

/-- `debruijn_next_hop`. -/
def debruijnNextHop (myId target : ℕ) : Option ℕ :=
  if target = myId then some myId
  else
    match d.overlap myId target 33 0 d.rankMask with
    | none => none
    | some (i, route) =>
      if i < d.logNpeers then none
      else
        let nextHop := ((route >>> (i - d.logNpeers)) &&& d.rankMask) % 2 ^ 32
        some (if nextHop < d.numProcs then nextHop
          else nextHop &&& (d.rankMask >>> d.logNpeers))

/-- The number of digits in `rank_mask`. -/
def numDigits : ℕ := (Nat.digits (2 ^ d.logNpeers) d.rankMask).length

/-- Following the next hops leads from `s` to `t` in at most `k` steps, through daemons only. -/
inductive Routes (t : ℕ) : ℕ → ℕ → Prop where
  | done {k : ℕ} (h : t < d.numProcs) : Routes t k t
  | hop {k s s' : ℕ} (h : s < d.numProcs) : d.debruijnNextHop s t = some s' →
      Routes t k s' → Routes t (k + 1) s

end Layout

/-- All the daemons are reached, and the daemons agree on one tree. -/
def Correct (n : ℕ) : Prop :=
  ∃ d, layout n = some d ∧ (∀ s < n, ∀ t < n, d.Routes t d.numDigits s) ∧
    SpanningViews n 0 d.updateRoutingTree

section Ilog2

variable {v v₀ r j : ℕ}

theorem and_upper_ne_zero {s : ℕ} (hv : v < 2 ^ (s + s)) :
    v &&& (2 ^ (s + s) - 2 ^ s) ≠ 0 ↔ 2 ^ s ≤ v := by
  have hmask : 2 ^ (s + s) - 2 ^ s = (2 ^ s - 1) <<< s := by
    rw [shiftLeft_eq, Nat.sub_mul, ← pow_add, one_mul]
  have hlt : v / 2 ^ s < 2 ^ s := Nat.div_lt_of_lt_mul (by rwa [← pow_add])
  have hand : v &&& (2 ^ s - 1) <<< s = (v / 2 ^ s) <<< s := by
    refine eq_of_testBit_eq fun i => ?_
    rw [testBit_and, testBit_shiftLeft, testBit_shiftLeft, testBit_two_pow_sub_one,
      testBit_div_two_pow]
    by_cases hi : i ≥ s
    · by_cases his : i - s < s
      · simp [hi, his, show i - s + s = i by omega]
      · have hfalse : v.testBit i = false :=
          testBit_lt_two_pow (hv.trans_le (Nat.pow_le_pow_right Nat.two_pos (by omega)))
        simp [hi, his, hfalse, show i - s + s = i by omega]
    · simp [hi]
  rw [hmask, hand, shiftLeft_eq]
  have hpos := Nat.two_pow_pos s
  constructor
  · intro hne
    by_contra hle
    rw [div_eq_of_lt (not_le.1 hle), Nat.zero_mul] at hne
    exact hne rfl
  · intro hle
    exact (Nat.mul_pos (Nat.div_pos hle hpos) hpos).ne'

theorem ilog2_step (hv : v < 2 ^ (2 ^ j + 2 ^ j)) (hr : 2 ^ (j + 1) ∣ r) (hdiv : v₀ / 2 ^ r = v) :
    ∃ v' r', ilog2Step (v, r) (2 ^ (2 ^ j + 2 ^ j) - 2 ^ 2 ^ j, 2 ^ j) = (v', r') ∧
      v' < 2 ^ 2 ^ j ∧ 2 ^ j ∣ r' ∧ v₀ / 2 ^ r' = v' ∧ (0 < v → 0 < v') := by
  obtain ⟨q, rfl⟩ := hr
  have hpos := Nat.two_pow_pos (2 ^ j)
  by_cases hle : 2 ^ 2 ^ j ≤ v
  · have hor : 2 ^ (j + 1) * q ||| 2 ^ j = 2 ^ (j + 1) * q + 2 ^ j :=
      (two_pow_add_eq_or_of_lt (Nat.pow_lt_pow_right Nat.one_lt_two (lt_succ_self j)) q).symm
    refine ⟨v >>> 2 ^ j, 2 ^ (j + 1) * q + 2 ^ j, ?_, ?_, ?_, ?_, fun _ => ?_⟩
    · rw [ilog2Step, if_pos ((and_upper_ne_zero hv).2 hle), hor]
    · rw [shiftRight_eq_div_pow]
      exact Nat.div_lt_of_lt_mul (by rwa [← pow_add])
    · exact (Nat.dvd_add_left (dvd_refl _)).2 ((pow_dvd_pow 2 (le_succ j)).mul_right q)
    · rw [pow_add, ← Nat.div_div_eq_div_mul, hdiv, shiftRight_eq_div_pow]
    · rw [shiftRight_eq_div_pow]
      exact Nat.div_pos hle hpos
  · refine ⟨v, _, if_neg ?_, not_le.1 hle, ?_, hdiv, id⟩
    · rw [and_upper_ne_zero hv]
      exact hle
    · exact (pow_dvd_pow 2 (le_succ j)).mul_right q

theorem ilog2_spec (hpos : 0 < v) (hv : v < 2 ^ 32) : 2 ^ ilog2 v ≤ v ∧ v < 2 ^ (ilog2 v + 1) := by
  obtain ⟨v₁, r₁, h₁, hv₁, hr₁, hd₁, hp₁⟩ := ilog2_step (j := 4) (r := 0) hv (dvd_zero _)
    (show v / 2 ^ 0 = v by rw [pow_zero, Nat.div_one])
  obtain ⟨v₂, r₂, h₂, hv₂, hr₂, hd₂, hp₂⟩ := ilog2_step (j := 3) hv₁ hr₁ hd₁
  obtain ⟨v₃, r₃, h₃, hv₃, hr₃, hd₃, hp₃⟩ := ilog2_step (j := 2) hv₂ hr₂ hd₂
  obtain ⟨v₄, r₄, h₄, hv₄, hr₄, hd₄, hp₄⟩ := ilog2_step (j := 1) hv₃ hr₃ hd₃
  obtain ⟨v₅, r₅, h₅, hv₅, hr₅, hd₅, hp₅⟩ := ilog2_step (j := 0) hv₄ hr₄ hd₄
  have hlog : ilog2 v = r₅ := by
    simp only [ilog2, foldl_cons, foldl_nil]
    rw [show ilog2Step (v, 0) (0xFFFF0000, 16) = (v₁, r₁) from h₁,
      show ilog2Step (v₁, r₁) (0xFF00, 8) = (v₂, r₂) from h₂,
      show ilog2Step (v₂, r₂) (0xF0, 4) = (v₃, r₃) from h₃,
      show ilog2Step (v₃, r₃) (0xC, 2) = (v₄, r₄) from h₄,
      show ilog2Step (v₄, r₄) (0x2, 1) = (v₅, r₅) from h₅]
  have hone : v / 2 ^ r₅ = 1 := by
    have := hp₅ (hp₄ (hp₃ (hp₂ (hp₁ hpos))))
    rw [pow_zero, pow_one] at hv₅
    omega
  rw [hlog]
  rw [Nat.div_eq_iff (Nat.two_pow_pos r₅)] at hone
  have := Nat.two_pow_pos r₅
  rw [pow_succ]
  omega

end Ilog2

/-- The numbers of a layout: words of `k` digits of `b` bits, of which all with the top digit `0`
are numbers of daemons. -/
structure Layout.Words (d : Layout) (k : ℕ) : Prop where
  digit_pos : 0 < d.logNpeers
  bits_eq : d.logNranks + 1 = d.logNpeers * k
  bits_lt : d.logNranks + 1 < 32
  mask_eq : d.rankMask = 2 ^ (d.logNranks + 1) - 1
  numProcs_lt : d.numProcs < 2 ^ (d.logNranks + 1)
  le_numProcs : 2 ^ (d.logNranks + 1 - d.logNpeers) ≤ d.numProcs

section Layout

variable {n : ℕ}

theorem rounded_eq : ∀ l < 31, ∀ b, b = (if l < 3 then 1 else if l < 7 then 2 else 4) →
    ((l + b) &&& complement (b - 1)) - 1 + 1 = b * (l / b + 1) := by
  intro l hl b hb
  subst hb
  revert l
  decide

theorem layout_eq (hpos : 0 < n) (hn : n < 2 ^ 28) :
    ∃ d k, layout n = some d ∧ d.numProcs = n ∧ d.Words k := by
  obtain ⟨hle, hlt⟩ := ilog2_spec hpos (hn.trans (by decide))
  have hlog : ilog2 n < 28 := by
    rw [← Nat.pow_lt_pow_iff_right Nat.one_lt_two]
    exact hle.trans_lt hn
  set l := ilog2 n with hl
  set b := if l < 3 then 1 else if l < 7 then 2 else 4 with hb
  have hround := rounded_eq l (by omega) b hb
  have hbpos : 0 < b := by
    rw [hb]
    split_ifs <;> decide
  have hbits : b * (l / b + 1) < 32 := by
    have : ∀ l < 28, ∀ b, b = (if l < 3 then 1 else if l < 7 then 2 else 4) →
        b * (l / b + 1) < 32 := by
      intro l hl b hb
      subst hb
      revert l
      decide
    exact this l hlog b hb
  have hmod := div_add_mod l b
  have hmodlt := mod_lt l hbpos
  rw [mul_add, mul_one] at hbits hround
  set r := ((l + b) &&& complement (b - 1)) - 1 with hr
  refine ⟨⟨n, r, b, (1 <<< (r + 1)) - 1⟩, l / b + 1, ?_, rfl, ?_⟩
  · rw [layout]
    simp only [← hl, ← hb, ← hr]
    rw [if_neg (by omega)]
  · refine ⟨hbpos, ?_, ?_, ?_, ?_, ?_⟩
    · rw [mul_add, mul_one]
      exact hround
    · exact hround ▸ hbits
    · rw [one_shiftLeft]
    · refine hlt.trans_le (Nat.pow_le_pow_right Nat.two_pos ?_)
      change l + 1 ≤ r + 1
      omega
    · refine le_trans (Nat.pow_le_pow_right Nat.two_pos ?_) hle
      change r + 1 - b ≤ l
      omega

theorem layout_eq_none (hn : 2 ^ 28 ≤ n) (h : Admits n) (hlt : n < 2 ^ 32) : layout n = none := by
  obtain ⟨hle, hlt⟩ := ilog2_spec (by omega) hlt
  have hlog : 28 ≤ ilog2 n := by
    by_contra hlog
    have := Nat.pow_le_pow_right Nat.two_pos (show ilog2 n + 1 ≤ 28 by omega)
    omega
  have : ∀ l < 31, 28 ≤ l → 32 ≤ ((l + 4) &&& complement (4 - 1)) - 1 + 1 := by decide
  rw [layout]
  simp only [show ¬ilog2 n < 3 by omega, show ¬ilog2 n < 7 by omega, if_false]
  exact if_pos (this _ h hlog)

end Layout

section Overlap

variable {d : Layout} {k m i x t mask : ℕ}

theorem toUint64_mod (hm : m ≤ 32) : toUint64 x % 2 ^ m = x % 2 ^ m := by
  rw [toUint64]
  split_ifs
  · rfl
  · have hdvd : 2 ^ m ∣ 2 ^ 64 - 2 ^ 32 :=
      Nat.dvd_sub (pow_dvd_pow 2 (by omega)) (pow_dvd_pow 2 hm)
    obtain ⟨q, hq⟩ := hdvd
    rw [hq, add_mul_mod_self_left]

theorem testBit_toUint64 {j : ℕ} (hj : j < 32) : (toUint64 x).testBit j = x.testBit j := by
  have h := toUint64_mod (x := x) (le_refl 32)
  have hbit := congrArg (testBit · j) h
  simp only [testBit_mod_two_pow, hj, decide_true, Bool.true_and] at hbit
  exact hbit

theorem testBit_shl32 {j : ℕ} (hj : j < 32) :
    (shl32 x i).testBit j = (decide (i ≤ j) && x.testBit (j - i)) := by
  rw [shl32, testBit_mod_two_pow, testBit_shiftLeft]
  simp [hj]

theorem and_mask_eq_iff (me : ℕ) (hm : m < 32) (ht : t < 2 ^ m)
    (hmask : ∀ j, mask.testBit j = decide (i ≤ j ∧ j < m)) :
    toUint64 (shl32 me i ||| t) &&& mask = toUint64 (shl32 me i &&& t) &&& mask ↔
      me % 2 ^ (m - i) = t / 2 ^ i := by
  have hbits : toUint64 (shl32 me i ||| t) &&& mask = toUint64 (shl32 me i &&& t) &&& mask ↔
      ∀ j, i ≤ j → j < m → me.testBit (j - i) = t.testBit j := by
    constructor
    · intro heq j hij hjm
      have hbit := congrArg (testBit · j) heq
      simp only [testBit_and, hmask, hij, hjm, and_self, decide_true, Bool.and_true,
        testBit_toUint64 (show j < 32 by omega), testBit_or,
        testBit_shl32 (show j < 32 by omega), Bool.true_and] at hbit
      revert hbit
      cases me.testBit (j - i) <;> cases t.testBit j <;> decide
    · intro heq
      refine eq_of_testBit_eq fun j => ?_
      by_cases hj : i ≤ j ∧ j < m
      · simp only [testBit_and, hmask, hj, and_self, decide_true, Bool.and_true,
          testBit_toUint64 (show j < 32 by omega), testBit_or,
          testBit_shl32 (show j < 32 by omega), Bool.true_and, heq j hj.1 hj.2, Bool.or_self,
          Bool.and_self]
      · simp only [testBit_and, hmask, hj, decide_false, Bool.and_false]
  rw [hbits]
  constructor
  · intro heq
    refine eq_of_testBit_eq fun j => ?_
    rw [testBit_mod_two_pow, testBit_div_two_pow]
    by_cases hj : j < m - i
    · rw [decide_eq_true hj, Bool.true_and, ← heq (j + i) (by omega) (by omega), Nat.add_sub_cancel]
    · rw [decide_eq_false hj, Bool.false_and, testBit_lt_two_pow]
      exact ht.trans_le (Nat.pow_le_pow_right Nat.two_pos (by omega))
  · intro heq j hij hjm
    have hbit := congrArg (testBit · (j - i)) heq
    simpa [testBit_mod_two_pow, testBit_div_two_pow, show j - i < m - i by omega,
      Nat.sub_add_cancel hij] using hbit

theorem route_mod {me : ℕ} (hm : m < 32) (ht : t < 2 ^ m) (him : i ≤ m)
    (heq : me % 2 ^ (m - i) = t / 2 ^ i) :
    toUint64 (shl32 me i ||| t) % 2 ^ m = t := by
  refine eq_of_testBit_eq fun j => ?_
  rw [testBit_mod_two_pow]
  by_cases hj : j < m
  · rw [decide_eq_true hj, Bool.true_and, testBit_toUint64 (by omega), testBit_or,
      testBit_shl32 (by omega)]
    by_cases hij : i ≤ j
    · have hbit := congrArg (testBit · (j - i)) heq
      simp only [testBit_mod_two_pow, testBit_div_two_pow, show j - i < m - i by omega,
        decide_true, Bool.true_and, Nat.sub_add_cancel hij] at hbit
      rw [decide_eq_true hij, Bool.true_and, hbit, Bool.or_self]
    · rw [decide_eq_false hij, Bool.false_and, Bool.false_or]
  · rw [decide_eq_false hj, Bool.false_and, testBit_lt_two_pow]
    exact ht.trans_le (Nat.pow_le_pow_right Nat.two_pos (by omega))

theorem Layout.Words.overlap_eq (h : d.Words k) (me fuel c : ℕ) {p : ℕ}
    (ht : t < 2 ^ (d.logNranks + 1))
    (hc : c ≤ k) (hfuel : k < c + fuel) (hp : p ≤ d.logNpeers * c)
    (hmask : ∀ j, mask.testBit j = decide (p ≤ j ∧ j < d.logNranks + 1)) :
    ∃ c' ≤ k, d.overlap me t fuel (d.logNpeers * c) mask = some (d.logNpeers * c',
        toUint64 (shl32 me (d.logNpeers * c') ||| t)) ∧
      me % 2 ^ (d.logNranks + 1 - d.logNpeers * c') = t / 2 ^ (d.logNpeers * c') ∧
      ∀ c'', c ≤ c'' → me % 2 ^ (d.logNranks + 1 - d.logNpeers * c'') =
        t / 2 ^ (d.logNpeers * c'') →
        c' ≤ c'' := by
  have hbits := h.bits_eq
  have hlt := h.bits_lt
  induction fuel generalizing c p mask with
  | zero => omega
  | succ fuel ih =>
    have hle : d.logNpeers * c ≤ d.logNpeers * k := Nat.mul_le_mul_left _ hc
    have hmask' : ∀ j, ((mask >>> (d.logNpeers * c)) <<< (d.logNpeers * c)).testBit j =
        decide (d.logNpeers * c ≤ j ∧ j < d.logNranks + 1) := by
      intro j
      rw [testBit_shiftLeft, testBit_shiftRight, hmask]
      by_cases hj : d.logNpeers * c ≤ j
      · simp only [ge_iff_le, hj, Nat.add_sub_cancel' hj, decide_true, Bool.true_and,
          hp.trans hj, true_and]
      · simp only [ge_iff_le, hj, decide_false, Bool.false_and, false_and]
    have hcond := and_mask_eq_iff me hlt ht hmask'
    rw [Layout.overlap, if_neg (by omega)]
    by_cases heq : me % 2 ^ (d.logNranks + 1 - d.logNpeers * c) = t / 2 ^ (d.logNpeers * c)
    · refine ⟨c, hc, ?_, heq, fun _ hc'' _ => hc''⟩
      rw [if_neg (not_not.2 (hcond.2 heq))]
    · have hck : c < k := by
        rcases Nat.lt_or_ge c k with hck | hck
        · exact hck
        · obtain rfl : c = k := by omega
          rw [hbits, Nat.sub_self, pow_zero, mod_one, ← hbits, div_eq_of_lt ht] at heq
          exact absurd rfl heq
      obtain ⟨c', hc', hover, heq', hmin⟩ := ih (c + 1) hck (by omega)
        (Nat.mul_le_mul_left _ (le_succ c)) hmask'
      refine ⟨c', hc', ?_, heq', fun c'' hc'' heq'' => ?_⟩
      · rw [if_pos (fun h => heq (hcond.1 h))]
        exact hover
      · rcases Nat.lt_or_ge c c'' with hlt' | hge
        · exact hmin c'' hlt' heq''
        · obtain rfl : c'' = c := by omega
          exact absurd heq'' heq

theorem Layout.Words.nextHop (h : d.Words k) (ht : t < d.numProcs) {c s : ℕ} (hs : s < d.numProcs)
    (hne : s ≠ t) (hc : s % 2 ^ (d.logNranks + 1 - d.logNpeers * c) = t / 2 ^ (d.logNpeers * c)) :
    ∃ s' c', d.debruijnNextHop s t = some s' ∧ s' < d.numProcs ∧ c' < c ∧ c' < k ∧
      s' % 2 ^ (d.logNranks + 1 - d.logNpeers * c') = t / 2 ^ (d.logNpeers * c') := by
  have hbits := h.bits_eq
  have hlt := h.bits_lt
  have hbpos := h.digit_pos
  have ht' : t < 2 ^ (d.logNranks + 1) := ht.trans h.numProcs_lt
  have hmask : ∀ j, d.rankMask.testBit j = decide (0 ≤ j ∧ j < d.logNranks + 1) := by
    intro j
    rw [h.mask_eq, testBit_two_pow_sub_one]
    simp
  have hk : k ≤ d.logNpeers * k := Nat.le_mul_of_pos_left k hbpos
  obtain ⟨c₁, hc₁, hover, heq, hmin⟩ := h.overlap_eq s 33 0 ht'
    (Nat.zero_le k) (by omega) (Nat.zero_le _) hmask
  rw [Nat.mul_zero] at hover
  have hpos : c₁ ≠ 0 := by
    rintro rfl
    rw [Nat.mul_zero, Nat.sub_zero, pow_zero, Nat.div_one,
      mod_eq_of_lt (hs.trans h.numProcs_lt)] at heq
    exact hne heq
  obtain ⟨c', rfl⟩ : ∃ c', c₁ = c' + 1 := ⟨c₁ - 1, by omega⟩
  have hmulk : d.logNpeers * (c' + 1) ≤ d.logNpeers * k := Nat.mul_le_mul_left _ hc₁
  have hroute := route_mod hlt ht' (hbits ▸ hmulk) heq
  set route := toUint64 (shl32 s (d.logNpeers * (c' + 1)) ||| t) with hr
  rw [mul_succ] at hmulk hover
  set nh := (route >>> (d.logNpeers * c')) % 2 ^ (d.logNranks + 1) with hnh
  have hnext : d.debruijnNextHop s t =
      some (if nh < d.numProcs then nh else nh % 2 ^ (d.logNranks + 1 - d.logNpeers)) := by
    have hshift : d.rankMask >>> d.logNpeers = 2 ^ (d.logNranks + 1 - d.logNpeers) - 1 := by
      refine eq_of_testBit_eq fun j => ?_
      rw [testBit_shiftRight, hmask, testBit_two_pow_sub_one]
      simp only [Nat.zero_le, true_and, decide_eq_decide]
      omega
    have hwide : nh < 2 ^ 32 :=
      (mod_lt _ (Nat.two_pow_pos _)).trans (Nat.pow_lt_pow_right Nat.one_lt_two hlt)
    rw [Layout.debruijnNextHop, if_neg hne.symm, hover]
    simp only
    rw [if_neg (by omega), Nat.add_sub_cancel, hshift, h.mask_eq, and_two_pow_sub_one_eq_mod,
      ← hnh, mod_eq_of_lt hwide, and_two_pow_sub_one_eq_mod]
  -- the digits of the target that are in the route
  have hdigits : nh % 2 ^ (d.logNranks + 1 - d.logNpeers * c') = t / 2 ^ (d.logNpeers * c') := by
    rw [hnh, mod_mod_of_dvd _ (pow_dvd_pow 2 (sub_le _ _)), shiftRight_eq_div_pow,
      ← mod_mul_right_div_self, ← pow_add, Nat.add_sub_cancel' (by omega), hroute]
  refine ⟨_, c', hnext, ?_, by have := hmin c (Nat.zero_le c) hc; omega, hc₁, ?_⟩
  · split_ifs with hnhlt
    · exact hnhlt
    · exact (mod_lt _ (Nat.two_pow_pos _)).trans_le h.le_numProcs
  · split_ifs with hnhlt
    · exact hdigits
    · -- the last hop is the target, so only an earlier one can be missing
      have hc' : c' ≠ 0 := by
        rintro rfl
        rw [Nat.mul_zero, Nat.sub_zero, pow_zero, Nat.div_one, hnh, mod_mod] at hdigits
        exact hnhlt (by rw [hnh, hdigits]; exact ht)
      have hle : d.logNpeers ≤ d.logNpeers * c' := Nat.le_mul_of_pos_right _ (by omega)
      rw [mod_mod_of_dvd _ (pow_dvd_pow 2 (by omega))]
      exact hdigits

theorem Layout.Routes.mono {k' s : ℕ} (h : d.Routes t k s) (hk : k ≤ k') : d.Routes t k' s := by
  induction h generalizing k' with
  | done ht => exact .done ht
  | hop hs hnext _ ih =>
    obtain ⟨k', rfl⟩ : ∃ l, k' = l + 1 := ⟨k' - 1, by omega⟩
    exact .hop hs hnext (ih (by omega))

theorem Layout.Words.routes (h : d.Words k) (ht : t < d.numProcs) {c s : ℕ} (hs : s < d.numProcs)
    (hc : s % 2 ^ (d.logNranks + 1 - d.logNpeers * c) = t / 2 ^ (d.logNpeers * c)) :
    d.Routes t c s := by
  induction c using Nat.strong_induction_on generalizing s with
  | _ c ih =>
    by_cases hne : s = t
    · subst hne
      exact .done hs
    · obtain ⟨s', c', hnext, hs', hlt, -, heq⟩ := h.nextHop ht hs hne hc
      exact (Layout.Routes.hop hs hnext (ih c' hlt hs' heq)).mono hlt

end Overlap

section Tree

variable {d : Layout} {k : ℕ}

theorem Layout.Words.numDigits_eq (h : d.Words k) : d.numDigits = k := by
  have hb : 1 < 2 ^ d.logNpeers := Nat.one_lt_two_pow h.digit_pos.ne'
  have hpos : 0 < k := by
    rw [Nat.pos_iff_ne_zero]
    rintro rfl
    have := h.bits_eq
    omega
  obtain ⟨j, rfl⟩ : ∃ j, k = j + 1 := ⟨k - 1, by omega⟩
  have hmask : d.rankMask = (2 ^ d.logNpeers) ^ (j + 1) - 1 := by
    rw [h.mask_eq, h.bits_eq, pow_mul]
  have hlt : 1 < (2 ^ d.logNpeers) ^ (j + 1) := one_lt_pow (succ_ne_zero j) hb
  have hlog : log (2 ^ d.logNpeers) d.rankMask = j := by
    refine log_eq_of_pow_le_of_lt_pow ?_ ?_
    · rw [hmask]
      have := Nat.pow_lt_pow_right hb (Nat.lt_add_one j)
      omega
    · rw [hmask]
      omega
  rw [Layout.numDigits, length_digits _ _ hb (by omega), hlog]

theorem Layout.Words.virtualTree (h : d.Words k) : VirtualTree d.numProcs
    (fun c => c >>> d.logNpeers) (fun p => (d.updateRoutingTree p).next) := by
  have hb : 1 < 2 ^ d.logNpeers := Nat.one_lt_two_pow h.digit_pos.ne'
  have hk : 0 < k := by
    rw [Nat.pos_iff_ne_zero]
    rintro rfl
    have := h.bits_eq
    omega
  have hle : d.logNpeers ≤ d.logNranks + 1 := h.bits_eq ▸ Nat.le_mul_of_pos_right _ hk
  have hpow : 2 ^ (d.logNranks + 1) = 2 ^ (d.logNranks + 1 - d.logNpeers) * 2 ^ d.logNpeers := by
    rw [← pow_add, Nat.sub_add_cancel hle]
  -- the words that continue the one of `p`
  have hnext {p : ℕ} (hp : p < 2 ^ (d.logNranks + 1 - d.logNpeers)) {i : ℕ}
      (hi : i < 2 ^ d.logNpeers) :
      ((p <<< d.logNpeers) ||| i) &&& d.rankMask = p * 2 ^ d.logNpeers + i := by
    have hor : p <<< d.logNpeers ||| i = 2 ^ d.logNpeers * p + i := by
      rw [shiftLeft_eq, Nat.mul_comm, two_pow_add_eq_or_of_lt hi]
    have hlt : p * 2 ^ d.logNpeers + i < 2 ^ (d.logNranks + 1) := by
      have := Nat.mul_le_mul_right (2 ^ d.logNpeers) (show p + 1 ≤ _ from hp)
      rw [hpow]
      rw [succ_mul] at this
      omega
    rw [h.mask_eq, and_two_pow_sub_one_eq_mod, hor, Nat.mul_comm, mod_eq_of_lt hlt]
  have hcond (p : ℕ) : p >>> (d.logNranks + 1 - d.logNpeers) = 0 ↔
      p < 2 ^ (d.logNranks + 1 - d.logNpeers) := by
    rw [shiftRight_eq_div_pow, div_eq_zero_iff_lt (Nat.two_pow_pos _)]
  refine ⟨fun {c} hpos hc => ?_, fun {p c} hp => ?_, fun {p} hp => ?_⟩
  · rw [shiftRight_eq_div_pow]
    exact Nat.div_lt_self hpos hb
  · simp only [Layout.updateRoutingTree, hcond, one_shiftLeft]
    rw [shiftRight_eq_div_pow]
    by_cases hlt : p < 2 ^ (d.logNranks + 1 - d.logNpeers)
    · rw [if_pos hlt]
      simp only [mem_filter, mem_map, mem_reverse, mem_range, gt_iff_lt, decide_eq_true_eq]
      constructor
      · rintro ⟨⟨i, hi, rfl⟩, hgt, hn⟩
        rw [hnext hlt hi] at hgt hn ⊢
        refine ⟨by omega, hn, ?_⟩
        rw [Nat.mul_comm, mul_add_div (by omega), div_eq_of_lt hi, Nat.add_zero]
      · rintro ⟨hpos, hn, rfl⟩
        have hself : c / 2 ^ d.logNpeers * 2 ^ d.logNpeers + c % 2 ^ d.logNpeers = c :=
          div_add_mod' c _
        refine ⟨⟨c % 2 ^ d.logNpeers, mod_lt _ (by omega), ?_⟩, Nat.div_lt_self hpos hb, hn⟩
        rw [hnext hlt (mod_lt _ (by omega)), hself]
    · rw [if_neg hlt]
      refine iff_of_false (not_mem_nil) ?_
      rintro ⟨-, hn, rfl⟩
      refine hlt (Nat.div_lt_of_lt_mul ?_)
      rw [Nat.mul_comm, ← hpow]
      exact hn.trans h.numProcs_lt
  · simp only [Layout.updateRoutingTree, hcond, one_shiftLeft]
    split_ifs with hlt
    · refine List.Nodup.filter _ (List.Nodup.map_on ?_ (nodup_reverse.2 nodup_range))
      intro i hi j hj heq
      rw [mem_reverse, mem_range] at hi hj
      rw [hnext hlt hi, hnext hlt hj] at heq
      omega
    · exact nodup_nil

/-- The daemons are reached within as many hops as there are digits, and agree on one tree, exactly
when there are fewer than `2 ^ 28` of them. -/
theorem debruijn_correct {n : ℕ} (hpos : 0 < n) (hn : n < 2 ^ 32) (hadmits : Admits n) :
    Correct n ↔ n < 2 ^ 28 := by
  constructor
  · rintro ⟨d, hd, -⟩
    by_contra hge
    rw [layout_eq_none (not_lt.1 hge) hadmits hn] at hd
    cases hd
  · intro hlt
    obtain ⟨d, k, hd, rfl, hwords⟩ := layout_eq hpos hlt
    refine ⟨d, hd, fun s hs t ht => ?_, ?_⟩
    · rw [hwords.numDigits_eq]
      refine hwords.routes ht hs ?_
      rw [← hwords.bits_eq, Nat.sub_self, pow_zero, mod_one,
        div_eq_of_lt (ht.trans hwords.numProcs_lt)]
    · refine hwords.virtualTree.spanningViews_zero hpos (fun _ _ => rfl) fun v _ hne => ?_
      rw [Layout.updateRoutingTree, if_neg hne]

theorem debruijn_correct_hundred : Admits 100 ∧ Correct 100 :=
  ⟨by decide, (debruijn_correct (by decide) (by decide) (by decide)).2 (by decide)⟩

/-- `2 ^ 28` daemons are admitted, but the rounded logarithm is the width of an `int`. -/
theorem not_correct_two_pow : Admits (2 ^ 28) ∧ ¬Correct (2 ^ 28) := by
  have hnone : layout (2 ^ 28) = none := by decide
  refine ⟨by decide, ?_⟩
  rintro ⟨d, hd, -⟩
  rw [hnone] at hd
  cases hd

end Tree

end Debruijn

end Ulfm
