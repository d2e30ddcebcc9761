import Mathlib.Data.Nat.Prime.Basic
import Mathlib.Algebra.BigOperators.Ring.Finset
import Ulfm.Topo.DimsCreate

/-!
# The grid `MPI_Dims_create` fills in

The prime table holds every prime factor of the free processes, so they are divided out
completely and the bins multiply to them. The free processes themselves are the nodes
divided by the given dimensions, rounded down.
-/

namespace Ulfm

open List Nat Int

namespace Topo

section Primes

variable {num n : ℕ} {primes : List ℕ}

/-- The table of primes before the number `n`: 2 is its first entry. -/
structure Table (n : ℕ) (primes : List ℕ) : Prop where
  odd : n % 2 = 1
  head : primes.head? = some 2
  mem_tail : ∀ p, p ∈ primes.tail ↔ p.Prime ∧ 2 < p ∧ p < n
  length_le : 2 * primes.length + 1 ≤ n

theorem Table.eq_cons (h : Table n primes) : primes = 2 :: primes.tail := by
  obtain ⟨-, hhead, -, -⟩ := h
  cases primes with
  | nil => simp at hhead
  | cons p primes => simpa using hhead

theorem Table.start : Table 3 [2] := by
  refine ⟨rfl, rfl, ?_, by simp⟩
  intro p
  simp only [tail_cons, not_mem_nil, false_iff]
  omega

theorem Table.all_iff (h : Table n primes) (hn : 3 ≤ n) :
    primes.tail.all (n % · ≠ 0) = true ↔ n.Prime := by
  simp only [all_eq_true, h.mem_tail, decide_eq_true_eq]
  constructor
  · intro hall
    by_contra hprime
    have hmin := minFac_prime (n := n) (by omega)
    have hdvd := minFac_dvd n
    have hne : n.minFac ≠ n := fun heq => hprime (heq ▸ hmin)
    have hle := minFac_le (n := n) (by omega)
    have hodd : n.minFac ≠ 2 := by
      intro htwo
      rw [htwo] at hdvd
      have := h.odd
      omega
    have htwo := hmin.two_le
    exact hall n.minFac ⟨hmin, by omega, by omega⟩ (mod_eq_zero_of_dvd hdvd)
  · rintro hprime p ⟨hp, -, hlt⟩ hmod
    have heq := (Nat.prime_dvd_prime_iff_eq hp hprime).1 (dvd_of_mod_eq_zero hmod)
    omega

theorem Table.step (h : Table n primes) (hn : 3 ≤ n) : Table (n + 2)
      (if primes.tail.all (n % · ≠ 0) then primes ++ [n] else primes) := by
  have heven : ¬ (n + 1).Prime := by
    intro hprime
    rcases hprime.eq_two_or_odd with htwo | hodd
    · omega
    · have := h.odd
      omega
  have hnext : ∀ p, p.Prime ∧ 2 < p ∧ p < n + 2 ↔
      (p.Prime ∧ 2 < p ∧ p < n) ∨ (p = n ∧ n.Prime) := by
    intro p
    constructor
    · rintro ⟨hp, htwo, hlt⟩
      have hne : p ≠ n + 1 := fun heq => heven (heq ▸ hp)
      by_cases heq : p = n
      · exact .inr ⟨heq, heq ▸ hp⟩
      · exact .inl ⟨hp, htwo, by omega⟩
    · rintro (⟨hp, htwo, hlt⟩ | ⟨rfl, hp⟩)
      · exact ⟨hp, htwo, by omega⟩
      · exact ⟨hp, by omega, by omega⟩
  have hodd : (n + 2) % 2 = 1 := by
    have := h.odd
    omega
  have hlength := h.length_le
  have hcons := h.eq_cons
  have hprime := h.all_iff hn
  split
  next hall =>
    rw [hprime] at hall
    refine ⟨hodd, ?_, ?_, ?_⟩
    · rw [hcons]
      rfl
    · intro p
      rw [hnext, ← h.mem_tail p, hcons]
      simp [hall]
    · rw [length_append, length_singleton]
      omega
  next hall =>
    rw [hprime] at hall
    refine ⟨hodd, h.head, ?_, by omega⟩
    intro p
    rw [hnext, ← h.mem_tail p]
    simp [hall]

theorem Table.loop_succ (h : Table n primes) (hle : n ≤ num) (fuel : ℕ) :
    primesLoop num (num / 2 + 1) (fuel + 1) n primes = if IsInt (n + 2) then
        primesLoop num (num / 2 + 1) fuel (n + 2)
          (if primes.tail.all (n % · ≠ 0) then primes ++ [n] else primes)
      else .error .overflow := by
  have hlength := h.length_le
  rw [primesLoop, if_neg (by omega), if_neg (by omega), ite_not]

theorem primesLoop_ok {fuel : ℕ} (h : Table n primes) (hn : 3 ≤ n)
    (hfuel : num < n + 2 * fuel) (hnum : num + 1 < 2 ^ 31) :
    ∃ primes' n', primesLoop num (num / 2 + 1) fuel n primes = .ok primes' ∧
      Table n' primes' ∧ num < n' := by
  induction fuel generalizing n primes with
  | zero => exact ⟨primes, n, rfl, h, by omega⟩
  | succ fuel ih =>
    by_cases hlt : num < n
    · exact ⟨primes, n, by rw [primesLoop, if_pos hlt], h, hlt⟩
    · have hodd := h.odd
      rw [h.loop_succ (by omega), if_pos (by rw [IsInt]; omega)]
      exact ih (h.step hn) (by omega) (by omega)

theorem primesLoop_overflow {fuel : ℕ} (h : Table n primes) (hn : 3 ≤ n) (hle : n ≤ num)
    (hfuel : num < n + 2 * fuel) (hnum : num + 1 = 2 ^ 31) :
    primesLoop num (num / 2 + 1) fuel n primes = .error .overflow := by
  induction fuel generalizing n primes with
  | zero => omega
  | succ fuel ih =>
    have hodd := h.odd
    rw [h.loop_succ hle]
    by_cases hlast : n = num
    · rw [if_neg (by rw [IsInt]; omega)]
    · rw [if_pos (by rw [IsInt]; omega)]
      exact ih (h.step hn) (by omega) (by omega) (by omega)

theorem getprimes_ok (htwo : 2 ≤ num) (hnum : num + 1 < 2 ^ 31) :
    ∃ primes, getprimes num = .ok primes ∧ primes ≠ [] ∧ (∀ p ∈ primes, p.Prime) ∧
      ∀ p, p.Prime → p ≤ num → p ∈ primes := by
  obtain ⟨primes, n, hok, htable, hlt⟩ :=
    @primesLoop_ok num 3 [2] num Table.start le_rfl (by omega) hnum
  have hcons := htable.eq_cons
  refine ⟨primes, hok, ?_, ?_, ?_⟩
  · rw [hcons]
    exact cons_ne_nil _ _
  · intro p hp
    rw [hcons] at hp
    rcases mem_cons.1 hp with rfl | hp
    · exact Nat.prime_two
    · exact ((htable.mem_tail p).1 hp).1
  · intro p hp hle
    rw [hcons, mem_cons, htable.mem_tail]
    have := hp.two_le
    by_cases heq : p = 2
    · exact .inl heq
    · exact .inr ⟨hp, by omega, by omega⟩

theorem getprimes_overflow (hnum : num + 1 = 2 ^ 31) : getprimes num = .error .overflow :=
  primesLoop_overflow Table.start le_rfl (by omega) (by omega) hnum

end Primes

section Factors

variable {num p : ℕ}

theorem divideOut_spec (hnum : 0 < num) (hp : 1 < p) :
    p ^ (divideOut num p).1 * (divideOut num p).2 = num ∧ ¬ p ∣ (divideOut num p).2 := by
  induction num using Nat.strong_induction_on with
  | _ num ih =>
    rw [divideOut]
    by_cases hmod : num % p = 0
    · have hdvd := dvd_of_mod_eq_zero hmod
      have hdiv := Nat.div_pos (Nat.le_of_dvd hnum hdvd) (by omega)
      obtain ⟨hprod, hndvd⟩ := ih (num / p) (Nat.div_lt_self hnum hp) hdiv
      rw [dif_pos ⟨hmod, hnum, hp⟩]
      refine ⟨?_, hndvd⟩
      calc p ^ ((divideOut (num / p) p).1 + 1) * (divideOut (num / p) p).2
          = p * (p ^ (divideOut (num / p) p).1 * (divideOut (num / p) p).2) := by ring
        _ = p * (num / p) := by rw [hprod]
        _ = num := Nat.mul_div_cancel' hdvd
    · rw [dif_neg (by simp [hmod])]
      refine ⟨by simp, ?_⟩
      exact fun hdvd => hmod (mod_eq_zero_of_dvd hdvd)

/-- The product of the factors, each as often as it counts. -/
def product (pfacts counts : List ℕ) : ℕ := ((pfacts.zip counts).map fun (f, n) => f ^ n).prod

theorem factorsLoop_cons (p : ℕ) (primes : List ℕ) (num : ℕ) : factorsLoop (p :: primes) num =
      ((divideOut (factorsLoop primes num).2 p).1 :: (factorsLoop primes num).1,
        (divideOut (factorsLoop primes num).2 p).2) := rfl

theorem factorsLoop_spec {primes : List ℕ} (hnum : 0 < num) (hprimes : ∀ p ∈ primes, 1 < p) :
    product primes (factorsLoop primes num).1 * (factorsLoop primes num).2 = num ∧
      ∀ p ∈ primes, ¬ p ∣ (factorsLoop primes num).2 := by
  induction primes with
  | nil => exact ⟨by simp [product, factorsLoop], nofun⟩
  | cons p primes ih =>
    rw [forall_mem_cons] at hprimes
    obtain ⟨hprod, hndvd⟩ := ih hprimes.2
    have hrest : 0 < (factorsLoop primes num).2 := by
      apply Nat.pos_of_ne_zero
      intro hzero
      rw [hzero] at hprod
      omega
    obtain ⟨hdivide, hout⟩ := divideOut_spec hrest hprimes.1
    rw [factorsLoop_cons]
    constructor
    · rw [product, zip_cons_cons, map_cons, prod_cons]
      calc p ^ (divideOut (factorsLoop primes num).2 p).1 *
            product primes (factorsLoop primes num).1 * (divideOut (factorsLoop primes num).2 p).2
          = product primes (factorsLoop primes num).1 *
            (p ^ (divideOut (factorsLoop primes num).2 p).1 *
              (divideOut (factorsLoop primes num).2 p).2) := by ring
        _ = num := by rw [hdivide, hprod]
    · rw [forall_mem_cons]
      refine ⟨hout, fun q hq hdvd => hndvd q hq ?_⟩
      rw [← hdivide]
      exact hdvd.mul_left _

theorem getfactors_ok {primes : List ℕ} (hnum : 0 < num) (hne : primes ≠ [])
    (hprimes : ∀ p ∈ primes, p.Prime) (hall : ∀ p, p.Prime → p ≤ num → p ∈ primes) :
    ∃ counts, getfactors num primes = .ok counts ∧ product primes counts = num := by
  obtain ⟨hprod, hndvd⟩ := factorsLoop_spec hnum fun p hp => (hprimes p hp).one_lt
  have hone : (factorsLoop primes num).2 = 1 := by
    by_contra hrest
    obtain ⟨p, hp, hdvd⟩ := Nat.exists_prime_and_dvd hrest
    have hle := Nat.le_of_dvd hnum (hdvd.trans (Dvd.intro_left _ hprod))
    exact hndvd p (hall p hp hle) hdvd
  refine ⟨(factorsLoop primes num).1, ?_, ?_⟩
  · rw [getfactors, if_neg (by simpa using hne), if_neg (by simpa using hone)]
  · rwa [hone, Nat.mul_one] at hprod

end Factors

section Bins

theorem pmin_lt {bins : List ℕ} (h : bins ≠ []) : pmin bins < bins.length := by
  have hpos := length_pos_of_ne_nil h
  have hfold : ∀ l : List ℕ, (∀ i ∈ l, i < bins.length) → ∀ i < bins.length,
      l.foldl (fun pmin p => if bins.getD p 0 < bins.getD pmin 0 then p else pmin) i <
        bins.length := by
    intro l
    induction l with
    | nil => exact fun _ i hi => hi
    | cons p l ih =>
      intro hl i hi
      rw [forall_mem_cons] at hl
      rw [foldl_cons]
      apply ih hl.2
      split
      · exact hl.1
      · exact hi
  apply hfold _ _ 0 hpos
  intro i hi
  rw [mem_range'_1] at hi
  omega

theorem prod_modify {l : List ℕ} {i : ℕ} (h : i < l.length) (f : ℕ) :
    (l.modify i (· * f)).prod = l.prod * f := by
  induction l generalizing i with
  | nil => simp at h
  | cons a l ih =>
    cases i with
    | zero => simp; ring
    | succ i =>
      rw [modify_succ_cons, prod_cons, prod_cons, ih (by simpa using h)]
      ring

@[simp] theorem length_assignFactor (bins : List ℕ) (f : ℕ) :
    (assignFactor bins f).length = bins.length := by
  simp [assignFactor]

theorem prod_assignFactor {bins : List ℕ} (h : bins ≠ []) (f : ℕ) :
    (assignFactor bins f).prod = bins.prod * f :=
  prod_modify (pmin_lt h) f

theorem assignFactors_spec {bins : List ℕ} (h : bins ≠ []) (n f : ℕ) :
    ((replicate n f).foldl assignFactor bins).length = bins.length ∧
      ((replicate n f).foldl assignFactor bins).prod = bins.prod * f ^ n := by
  induction n generalizing bins with
  | zero => simp
  | succ n ih =>
    have hne : assignFactor bins f ≠ [] := by
      rwa [← length_pos_iff, length_assignFactor, length_pos_iff]
    obtain ⟨hlength, hprod⟩ := ih hne
    rw [replicate_succ, foldl_cons, hlength, hprod, length_assignFactor, prod_assignFactor h]
    exact ⟨rfl, by ring⟩

theorem assignnodes_ok {ndim : ℕ} (h : ndim ≠ 0) (pfacts counts : List ℕ) :
    ∃ procs, assignnodes ndim pfacts counts = .ok procs ∧ procs.length = ndim ∧
      procs.prod = product pfacts counts ∧ procs.Pairwise (· ≥ ·) := by
  have hbins : ∀ l : List (ℕ × ℕ),
      (l.foldr (fun (f, n) bins => (replicate n f).foldl assignFactor bins)
        (replicate ndim 1)).length = ndim ∧
      (l.foldr (fun (f, n) bins => (replicate n f).foldl assignFactor bins)
        (replicate ndim 1)).prod = (l.map fun (f, n) => f ^ n).prod := by
    intro l
    induction l with
    | nil => simp
    | cons a l ih =>
      obtain ⟨f, n⟩ := a
      have hne := length_pos_iff.1 (by rw [ih.1]; omega)
      obtain ⟨hlength, hprod⟩ := assignFactors_spec hne n f
      rw [foldr_cons, hlength, hprod, ih.1, ih.2, map_cons, prod_cons]
      exact ⟨rfl, by ring⟩
  obtain ⟨hlength, hprod⟩ := hbins (pfacts.zip counts)
  refine ⟨_, if_neg h, ?_, ?_, exchangeSort_sorted _⟩
  · rw [(exchangeSort_perm _).length_eq, hlength]
  · rw [(exchangeSort_perm _).prod_eq, hprod]
    rfl

end Bins

section Dimensions

variable {nnodes : ℤ} {dims : List ℤ}

/-- The product of the entries that are given. -/
def given (dims : List ℤ) : ℤ := (dims.filter (· ≠ 0)).prod

theorem given_zero (dims : List ℤ) : given (0 :: dims) = given dims := by
  simp [given]

theorem given_cons {d : ℤ} (h : d ≠ 0) (dims : List ℤ) : given (d :: dims) = d * given dims := by
  simp [given, h]

theorem given_pos (h : ∀ d ∈ dims, 0 ≤ d) : 0 < given dims := by
  induction dims with
  | nil => decide
  | cons d dims ih =>
    rw [forall_mem_cons] at h
    by_cases hd : d = 0
    · rw [hd, given_zero]
      exact ih h.2
    · rw [given_cons hd]
      exact mul_pos (by omega) (ih h.2)

theorem dvd_given {d : ℤ} (hmem : d ∈ dims) (hd : d ≠ 0) : d ∣ given dims :=
  dvd_prod (mem_filter.2 ⟨hmem, by simpa using hd⟩)

theorem freeLoop_eq (hdims : ∀ d ∈ dims, 0 ≤ d) {freeprocs : ℤ} (hfree : 0 ≤ freeprocs)
    (freedims : ℕ) :
    freeLoop nnodes dims freeprocs freedims = if ∀ d ∈ dims, d ≠ 0 → d ∣ nnodes then
        some (freeprocs / given dims, freedims + dims.count 0)
      else none := by
  induction dims generalizing freeprocs freedims with
  | nil => simp [freeLoop, given]
  | cons d dims ih =>
    rw [forall_mem_cons] at hdims
    rw [freeLoop]
    by_cases hd : d = 0
    · rw [if_pos hd, ih hdims.2 hfree, hd, given_zero, count_cons_self]
      simp [Nat.add_assoc, Nat.add_comm 1]
    · rw [if_neg hd]
      by_cases hdvd : d ∣ nnodes
      · rw [if_neg (by rw [tmod_eq_zero_of_dvd hdvd]; omega),
          ih hdims.2 (Int.tdiv_nonneg hfree hdims.1), given_cons hd,
          count_cons_of_ne hd, tdiv_eq_ediv_of_nonneg hfree,
          ediv_ediv_of_nonneg hdims.1]
        simp [hd, hdvd]
      · rw [if_pos (.inr fun hmod => hdvd (dvd_of_tmod_eq_zero hmod)),
          if_neg fun hall => hdvd (hall d mem_cons_self hd)]

/-- The entries of the grid where the array has a zero. -/
def filled : List ℤ → List ℤ → List ℤ
  | d :: dims, r :: result => if d = 0 then r :: filled dims result else filled dims result
  | _, _ => []

def Keeps (dims result : List ℤ) : Prop := List.Forall₂ (fun d r => d ≠ 0 → r = d) dims result

theorem fillDims_keeps (dims : List ℤ) (procs : List ℕ) : Keeps dims (fillDims dims procs) := by
  induction dims generalizing procs with
  | nil => exact List.Forall₂.nil
  | cons d dims ih =>
    by_cases hd : d = 0
    · cases procs with
      | nil =>
        simp only [fillDims, if_pos hd]
        exact List.Forall₂.cons (fun _ => rfl) (ih [])
      | cons p procs =>
        simp only [fillDims, if_pos hd]
        exact List.Forall₂.cons (fun h => absurd hd h) (ih procs)
    · simp only [fillDims, if_neg hd]
      exact List.Forall₂.cons (fun _ => rfl) (ih procs)

theorem filled_fillDims {procs : List ℕ} (h : procs.length = dims.count 0) :
    filled dims (fillDims dims procs) = procs.map (↑) := by
  induction dims generalizing procs with
  | nil =>
    rw [length_eq_zero_iff.1 h]
    rfl
  | cons d dims ih =>
    by_cases hd : d = 0
    · rw [hd, count_cons_self] at h
      cases procs with
      | nil => simp at h
      | cons p procs =>
        simp only [fillDims, if_pos hd, filled, ih (Nat.succ.inj h), map_cons]
    · rw [count_cons_of_ne hd] at h
      simp only [fillDims, if_neg hd, filled, ih h]

theorem Keeps.prod_eq {result : List ℤ} (h : Keeps dims result) :
    result.prod = given dims * (filled dims result).prod := by
  induction h with
  | nil => rfl
  | @cons d r dims result hd _ ih =>
    by_cases hzero : d = 0
    · rw [hzero, given_zero, filled, if_pos rfl, prod_cons, prod_cons, ih]
      ring
    · rw [given_cons hzero, filled, if_neg hzero, prod_cons, ih, hd hzero]
      ring

theorem keeps_ones (dims : List ℤ) : Keeps dims (dims.map fun d => if d = 0 then 1 else d) := by
  apply forall₂_map_right_iff.2
  exact forall₂_same.2 fun d _ hd => if_neg hd

theorem filled_ones (dims : List ℤ) :
    filled dims (dims.map fun d => if d = 0 then 1 else d) = replicate (dims.count 0) 1 := by
  induction dims with
  | nil => rfl
  | cons d dims ih =>
    by_cases hd : d = 0
    · simp [filled, hd, ih, replicate_succ]
    · simp [filled, hd, ih]

end Dimensions

/-- A call with at least one node and at least one dimension, none of them negative. -/
structure DimsCall where
  paramCheck : Bool
  nnodes : ℤ
  dims : List ℤ
  nnodes_pos : 1 ≤ nnodes
  nnodes_int : IsInt nnodes
  dims_ne : dims ≠ []
  dims_nonneg : ∀ d ∈ dims, 0 ≤ d
  dims_int : ∀ d ∈ dims, IsInt d

namespace DimsCall

variable (c : DimsCall)

def run : Except DimsError (List ℤ) := dimsCreate c.paramCheck c.nnodes c.dims

/-- The call succeeds exactly when the given entries can be completed to a grid of all nodes,
and then it completes them, in decreasing order. -/
def Meets : Prop :=
  ((∃ result, c.run = .ok result) ↔
    given c.dims ∣ c.nnodes ∧ (0 ∉ c.dims → given c.dims = c.nnodes)) ∧
  ∀ result, c.run = .ok result →
    result.prod = c.nnodes ∧ Keeps c.dims result ∧ (filled c.dims result).Pairwise (· ≥ ·)

/-- Every given entry divides the number of nodes, their product does not, and the division
rounds down to a number of free processes the call accepts. -/
def Truncates : Prop :=
  (∀ d ∈ c.dims, d ≠ 0 → d ∣ c.nnodes) ∧ ¬ given c.dims ∣ c.nnodes ∧
    given c.dims ≤ c.nnodes ∧ (0 ∉ c.dims → c.nnodes < 2 * given c.dims)

/-- The largest `int` is left to be factored. -/
def Overflows : Prop := c.nnodes = 2 ^ 31 - 1 ∧ 0 ∈ c.dims ∧ ∀ d ∈ c.dims, d = 0 ∨ d = 1

variable {c}

theorem run_eq : c.run = if ∀ d ∈ c.dims, d ≠ 0 → d ∣ c.nnodes then
      if 0 ∉ c.dims then
        if c.nnodes / given c.dims = 1 then .ok c.dims else .error .errDims
      else if c.nnodes / given c.dims < 1 then .error .errDims
      else if c.nnodes / given c.dims = 1 then
        .ok (c.dims.map fun d => if d = 0 then 1 else d)
      else do
        let primes ← getprimes (c.nnodes / given c.dims).toNat
        let factors ← getfactors (c.nnodes / given c.dims).toNat primes
        let procs ← assignnodes (c.dims.count 0) primes factors
        .ok (fillDims c.dims procs)
    else .error .errDims := by
  have hlength := length_pos_of_ne_nil c.dims_ne
  have hnnodes := c.nnodes_pos
  rw [run, dimsCreate, if_neg (by omega), freeLoop_eq c.dims_nonneg (by omega)]
  by_cases hall : ∀ d ∈ c.dims, d ≠ 0 → d ∣ c.nnodes
  · rw [if_pos hall, if_pos hall]
    simp only [Nat.zero_add, count_eq_zero]
  · rw [if_neg hall, if_neg hall]

/-- What a call with a free dimension leaves to be filled in is filled in, unless the table of
primes runs to the largest `int`. -/
theorem run_free (hall : ∀ d ∈ c.dims, d ≠ 0 → d ∣ c.nnodes) (hzero : 0 ∈ c.dims)
    (hfree : 1 ≤ c.nnodes / given c.dims) (hmax : c.nnodes / given c.dims + 1 ≠ 2 ^ 31) :
    ∃ result, c.run = .ok result ∧ Keeps c.dims result ∧
      (filled c.dims result).prod = c.nnodes / given c.dims ∧
      (filled c.dims result).Pairwise (· ≥ ·) := by
  rw [run_eq, if_pos hall, if_neg (not_not.2 hzero), if_neg (by omega)]
  by_cases hone : c.nnodes / given c.dims = 1
  · rw [if_pos hone]
    refine ⟨_, rfl, keeps_ones c.dims, ?_, ?_⟩
    · rw [filled_ones, hone, prod_replicate, one_pow]
    · rw [filled_ones]
      exact pairwise_replicate.2 (.inr le_rfl)
  · have hnnodes := c.nnodes_int.2
    have hle : c.nnodes / given c.dims ≤ c.nnodes := ediv_le_self _ (by have := c.nnodes_pos; omega)
    obtain ⟨primes, hprimes, hne, hprime, hlarge⟩ :=
      @getprimes_ok (c.nnodes / given c.dims).toNat (by omega) (by omega)
    obtain ⟨counts, hcounts, hproduct⟩ := getfactors_ok (by omega) hne hprime hlarge
    have hcount : c.dims.count 0 ≠ 0 := fun h => count_eq_zero.1 h hzero
    obtain ⟨procs, hprocs, hlength, hprod, hsorted⟩ := assignnodes_ok hcount primes counts
    rw [if_neg hone, hprimes]
    change ∃ result, (getfactors _ primes >>= _) = _ ∧ _
    rw [hcounts]
    change ∃ result, (assignnodes _ primes counts >>= _) = _ ∧ _
    rw [hprocs]
    refine ⟨_, rfl, fillDims_keeps c.dims procs, ?_, ?_⟩
    · rw [filled_fillDims hlength, ← Nat.cast_list_prod, hprod, hproduct]
      exact toNat_of_nonneg (by omega)
    · rw [filled_fillDims hlength, pairwise_map]
      exact hsorted.imp fun h => Int.ofNat_le.2 h

theorem run_overflow (hall : ∀ d ∈ c.dims, d ≠ 0 → d ∣ c.nnodes) (hzero : 0 ∈ c.dims)
    (hmax : c.nnodes / given c.dims + 1 = 2 ^ 31) : c.run = .error .overflow := by
  rw [run_eq, if_pos hall, if_neg (not_not.2 hzero), if_neg (by omega), if_neg (by omega),
    getprimes_overflow (by omega)]
  rfl

theorem overflows_iff : c.Overflows ↔ 0 ∈ c.dims ∧ c.nnodes / given c.dims + 1 = 2 ^ 31 := by
  have hgiven := given_pos c.dims_nonneg
  have hnnodes := c.nnodes_int.2
  have hpos := c.nnodes_pos
  constructor
  · rintro ⟨hmax, hzero, hones⟩
    have hone : given c.dims = 1 := by
      apply prod_eq_one
      intro d hd
      obtain ⟨hmem, hne⟩ := mem_filter.1 hd
      exact (hones d hmem).resolve_left (by simpa using hne)
    rw [hone, ediv_one]
    exact ⟨hzero, by omega⟩
  · rintro ⟨hzero, hmax⟩
    have hle : c.nnodes / given c.dims ≤ c.nnodes := ediv_le_self _ (by omega)
    have hone : given c.dims = 1 := by
      by_contra hne
      have hlt : c.nnodes / given c.dims < c.nnodes :=
        ediv_lt_self_of_pos_of_ne_one (by omega) (by omega)
      omega
    refine ⟨by omega, hzero, ?_⟩
    intro d hd
    by_cases hne : d = 0
    · exact .inl hne
    · have hdvd := dvd_given hd hne
      rw [hone] at hdvd
      exact .inr (Int.eq_one_of_dvd_one (c.dims_nonneg d hd) hdvd)

theorem meets_of_refused (hall : ¬ ∀ d ∈ c.dims, d ≠ 0 → d ∣ c.nnodes) : c.Meets := by
  have hrun : c.run = .error .errDims := by rw [run_eq, if_neg hall]
  have hndvd : ¬ given c.dims ∣ c.nnodes := fun hdvd =>
    hall fun d hd hne => (dvd_given hd hne).trans hdvd
  rw [Meets, hrun]
  exact ⟨iff_of_false nofun fun h => hndvd h.1, nofun⟩

theorem meets_full_iff (hall : ∀ d ∈ c.dims, d ≠ 0 → d ∣ c.nnodes) (hzero : 0 ∉ c.dims) :
    c.Meets ↔ (c.nnodes / given c.dims = 1 → given c.dims ∣ c.nnodes) := by
  have hgiven := given_pos c.dims_nonneg
  have hpos := c.nnodes_pos
  have hself : Keeps c.dims c.dims := forall₂_same.2 fun _ _ _ => rfl
  have hnone : ∀ dims : List ℤ, 0 ∉ dims → filled dims dims = [] := by
    intro dims
    induction dims with
    | nil => exact fun _ => rfl
    | cons d dims ih =>
      intro h
      rw [mem_cons, not_or] at h
      rw [filled, if_neg (Ne.symm h.1), ih h.2]
  have hprod : c.dims.prod = given c.dims := by
    rw [hself.prod_eq, hnone _ hzero, prod_nil, mul_one]
  rw [Meets, run_eq, if_pos hall, if_pos hzero]
  by_cases hone : c.nnodes / given c.dims = 1
  · rw [if_pos hone]
    constructor
    · intro ⟨hiff, _⟩ _
      exact (hiff.1 ⟨_, rfl⟩).1
    · intro hdvd
      have heq : given c.dims = c.nnodes := by
        have hmul := Int.ediv_mul_cancel (hdvd hone)
        rw [hone] at hmul
        omega
      refine ⟨iff_of_true ⟨_, rfl⟩ ⟨hdvd hone, fun _ => heq⟩, ?_⟩
      intro result hresult
      cases hresult
      rw [hprod, hnone _ hzero]
      exact ⟨heq, hself, List.Pairwise.nil⟩
  · rw [if_neg hone]
    refine iff_of_true ⟨iff_of_false nofun ?_, nofun⟩ fun h => absurd h hone
    intro ⟨_, heq⟩
    rw [heq hzero, Int.ediv_self (by omega)] at hone
    exact hone rfl

theorem meets_free_iff (hall : ∀ d ∈ c.dims, d ≠ 0 → d ∣ c.nnodes) (hzero : 0 ∈ c.dims) :
    c.Meets ↔ (1 ≤ c.nnodes / given c.dims → given c.dims ∣ c.nnodes) ∧
      c.nnodes / given c.dims + 1 ≠ 2 ^ 31 := by
  have hgiven := given_pos c.dims_nonneg
  have hpos := c.nnodes_pos
  by_cases hmax : c.nnodes / given c.dims + 1 = 2 ^ 31
  · refine iff_of_false ?_ fun h => h.2 hmax
    obtain ⟨-, -, hones⟩ := overflows_iff.2 ⟨hzero, hmax⟩
    have hdvd : given c.dims ∣ c.nnodes := by
      have hone : given c.dims = 1 := by
        apply prod_eq_one
        intro d hd
        obtain ⟨hmem, hne⟩ := mem_filter.1 hd
        exact (hones d hmem).resolve_left (by simpa using hne)
      exact hone ▸ one_dvd _
    rintro ⟨hiff, _⟩
    obtain ⟨result, hrun⟩ := hiff.2 ⟨hdvd, fun h => absurd hzero h⟩
    rw [run_overflow hall hzero hmax] at hrun
    cases hrun
  · by_cases hfree : 1 ≤ c.nnodes / given c.dims
    · obtain ⟨result, hrun, hkeeps, hprod, hsorted⟩ := run_free hall hzero hfree hmax
      rw [Meets, hrun]
      constructor
      · intro ⟨hiff, _⟩
        exact ⟨fun _ => (hiff.1 ⟨_, rfl⟩).1, hmax⟩
      · intro ⟨hdvd, _⟩
        refine ⟨iff_of_true ⟨_, rfl⟩ ⟨hdvd hfree, fun h => absurd hzero h⟩, ?_⟩
        intro _ hresult
        cases hresult
        refine ⟨?_, hkeeps, hsorted⟩
        rw [hkeeps.prod_eq, hprod, Int.mul_ediv_cancel' (hdvd hfree)]
    · have hrun : c.run = .error .errDims := by
        rw [run_eq, if_pos hall, if_neg (not_not.2 hzero), if_pos (by omega)]
      refine iff_of_true ?_ ⟨fun h => absurd h hfree, hmax⟩
      rw [Meets, hrun]
      refine ⟨iff_of_false nofun ?_, nofun⟩
      intro ⟨hdvd, _⟩
      have hle := Int.le_of_dvd (by omega) hdvd
      exact hfree ((Int.le_ediv_iff_mul_le hgiven).2 (by omega))

/-- The call meets its purpose exactly where no division truncates and the table of primes
does not run to the largest `int`. -/
theorem meets_iff (c : DimsCall) : c.Meets ↔ ¬ c.Truncates ∧ ¬ c.Overflows := by
  have hgiven := given_pos c.dims_nonneg
  by_cases hall : ∀ d ∈ c.dims, d ≠ 0 → d ∣ c.nnodes
  · have hquot : 1 ≤ c.nnodes / given c.dims ↔ given c.dims ≤ c.nnodes := by
      rw [Int.le_ediv_iff_mul_le hgiven, one_mul]
    have hquot' : c.nnodes / given c.dims < 2 ↔ c.nnodes < 2 * given c.dims :=
      Int.ediv_lt_iff_lt_mul hgiven
    rw [overflows_iff]
    by_cases hzero : 0 ∈ c.dims
    · rw [meets_free_iff hall hzero, hquot, Truncates]
      constructor
      · intro ⟨hdvd, hmax⟩
        exact ⟨fun h => h.2.1 (hdvd h.2.2.1), fun h => hmax h.2⟩
      · intro ⟨htrunc, hmax⟩
        refine ⟨fun hle => ?_, fun h => hmax ⟨hzero, h⟩⟩
        by_contra hndvd
        exact htrunc ⟨hall, hndvd, hle, fun h => absurd hzero h⟩
    · rw [meets_full_iff hall hzero, Truncates]
      constructor
      · intro hdvd
        refine ⟨fun h => h.2.1 (hdvd ?_), fun h => hzero h.1⟩
        have hlt := h.2.2.2 hzero
        omega
      · intro ⟨htrunc, _⟩ hone
        by_contra hndvd
        exact htrunc ⟨hall, hndvd, by omega, fun _ => by omega⟩
  · refine iff_of_true (meets_of_refused hall) ⟨fun h => hall h.1, fun h => hall ?_⟩
    intro d hd hne
    rw [(h.2.2 d hd).resolve_left hne]
    exact one_dvd _

/-- Six nodes on a grid with two given dimensions of two: the call makes it a grid of four. -/
theorem twoByTwo_not_meets : ¬ ∀ c : DimsCall, c.Meets := by
  intro hall
  have hmeets := hall ⟨true, 6, [2, 2, 0], by decide, by decide, by decide, by decide, by decide⟩
  have hprod := (hmeets.2 [2, 2, 1] (by decide)).1
  exact absurd hprod (by decide)

end DimsCall

end Topo

end Ulfm
