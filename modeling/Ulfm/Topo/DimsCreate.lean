import Ulfm.Foundation.ExchangeSort
import Ulfm.Foundation.Loops

/-!
# `MPI_Dims_create`

`dims_create.c` divides the number of nodes by the dimensions that are given, factors what is
left with a table of primes, and distributes the factors over the free dimensions. The
allocations succeed.
-/

namespace Ulfm

open List

namespace Topo

/-- How a call ends without success: with the class of an error, or nowhere, an `int` having
overflowed. -/
inductive DimsError where
  | errDims
  | errIntern
  | overflow
deriving DecidableEq

/-- The first loop: `freeprocs` and `freedims`, `none` where an entry is refused. -/
def freeLoop (nnodes : ℤ) : List ℤ → ℤ → ℕ → Option (ℤ × ℕ)
  | [], freeprocs, freedims => some (freeprocs, freedims)
  | p :: dims, freeprocs, freedims =>
    if p = 0 then freeLoop nnodes dims freeprocs (freedims + 1)
    else if p < 0 ∨ nnodes.tmod p ≠ 0 then none
    else freeLoop nnodes dims (freeprocs.tdiv p) freedims

/-- The loop of `getprimes`, with fuel for `num` steps. A number is compared with the primes
from the second on; `n += 2` is computed with an `int`. -/
def primesLoop (num size : ℕ) : ℕ → ℕ → List ℕ → Except DimsError (List ℕ)
  | 0, _, primes => .ok primes
  | fuel + 1, n, primes =>
    if num < n then .ok primes
    else if primes.tail.all (n % · ≠ 0) ∧ size ≤ primes.length then .error .errDims
    else if ¬ IsInt (n + 2) then .error .overflow
    else
      primesLoop num size fuel (n + 2)
        (if primes.tail.all (n % · ≠ 0) then primes ++ [n] else primes)

/-- `getprimes` -/
def getprimes (num : ℕ) : Except DimsError (List ℕ) := primesLoop num (num / 2 + 1) num 3 [2]

/-- The inner loop of `getfactors`: how often the prime divides, and what is left. The numbers
it runs on are positive and the primes are greater than 1. -/
def divideOut (num p : ℕ) : ℕ × ℕ :=
  if _h : num % p = 0 ∧ 0 < num ∧ 1 < p then
    ((divideOut (num / p) p).1 + 1, (divideOut (num / p) p).2)
  else (0, num)
termination_by num
decreasing_by all_goals exact Nat.div_lt_self _h.2.1 _h.2.2

/-- The loop of `getfactors`, from the last prime to the first. -/
def factorsLoop (primes : List ℕ) (num : ℕ) : List ℕ × ℕ :=
  primes.foldr
    (fun p (counts, num) => ((divideOut num p).1 :: counts, (divideOut num p).2)) ([], num)

/-- `getfactors` -/
def getfactors (num : ℕ) (primes : List ℕ) : Except DimsError (List ℕ) :=
  if primes.length = 0 then .error .errIntern
  else if (factorsLoop primes num).2 ≠ 1 then .error .errIntern
  else .ok (factorsLoop primes num).1

/-- `pmin`: the first of the smallest bins. -/
def pmin (bins : List ℕ) : ℕ :=
  (range' 1 (bins.length - 1)).foldl
    (fun pmin p => if bins.getD p 0 < bins.getD pmin 0 then p else pmin) 0

def assignFactor (bins : List ℕ) (f : ℕ) : List ℕ := bins.modify (pmin bins) (· * f)

/-- `assignnodes`: the factors from the highest to the lowest, each as often as it counts. -/
def assignnodes (ndim : ℕ) (pfacts counts : List ℕ) : Except DimsError (List ℕ) :=
  if ndim = 0 then .error .errDims
  else
    let bins := (pfacts.zip counts).foldr
      (fun (f, n) bins => (replicate n f).foldl assignFactor bins) (replicate ndim 1)
    .ok (exchangeSort bins)

/-- The free dimensions take the entries of `procs` in order. -/
def fillDims : List ℤ → List ℕ → List ℤ
  | [], _ => []
  | d :: dims, procs =>
    if d = 0 then
      match procs with
      | [] => d :: fillDims dims []
      | p :: procs => (p : ℤ) :: fillDims dims procs
    else d :: fillDims dims procs

/-- `MPI_Dims_create`, on an array of `ndims` dimensions. -/
def dimsCreate (paramCheck : Bool) (nnodes : ℤ) (dims : List ℤ) : Except DimsError (List ℤ) :=
  if paramCheck ∧ dims.length < 1 then .error .errDims
  else
    match freeLoop nnodes dims nnodes 0 with
    | none => .error .errDims
    | some (freeprocs, freedims) =>
      if freedims = 0 then
        if freeprocs = 1 then .ok dims else .error .errDims
      else if freeprocs < 1 then .error .errDims
      else if freeprocs = 1 then .ok (dims.map fun d => if d = 0 then 1 else d)
      else do
        let primes ← getprimes freeprocs.toNat
        let factors ← getfactors freeprocs.toNat primes
        let procs ← assignnodes freedims primes factors
        .ok (fillDims dims procs)

end Topo

end Ulfm
