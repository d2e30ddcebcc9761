import Ulfm.Comm.Definitions
import Ulfm.Foundation.Loops

/-!
# The algebra of groups

The functions of `group.c` and `group_plist.c` that build a group from one or two others, as the
loops that they are. A result is `none` where C leaves the operation undefined: a lookup or a write
outside an array, and an `int` that overflows.
-/

namespace Ulfm

open List

/-- A triplet of `MPI_Group_range_incl`. -/
structure Triplet where
  first : ℤ
  last : ℤ
  stride : ℤ
  firstInt : IsInt first
  lastInt : IsInt last
  strideInt : IsInt stride

/-- The three loops over the ranks of a triplet. No loop goes through more than all the `int`s. -/
def Triplet.forRanks {σ : Type} (t : Triplet) (body : σ → ℤ → Option σ) (st : σ) : Option σ :=
  if t.first < t.last then strideLoop body (· ≤ t.last) t.stride (2 ^ 32 + 1) t.first st
  else if t.first > t.last then strideLoop body (· ≥ t.last) t.stride (2 ^ 32 + 1) t.first st
  else body st t.first

/-- The ranks that a triplet stands for. There is none if the stride has the wrong sign. -/
def Triplet.expanded (t : Triplet) : List ℤ :=
  (range ((t.last - t.first).fdiv t.stride + 1).toNat).map fun k : ℕ => t.first + k * t.stride

/-- `MPI_IDENT`, `MPI_SIMILAR` and `MPI_UNEQUAL`. -/
inductive CompareResult where
  | ident
  | similar
  | unequal
deriving DecidableEq

namespace Group

variable {P : Type} [DecidableEq P]

/-- `MPI_GROUP_EMPTY`. -/
def empty : Group P := .dense groupEmptyPtr [] mpiUndefined

/-- The inner loop that looks for a process, with the rank at which it stops. -/
def search (group : Group P) (proc : P) : List ℕ → Option (Option ℕ)
  | [] => some none
  | k :: ks => do
      let q ← group.getProcPtr k
      if proc = q then some (some k) else search group proc ks

def matchOf (group : Group P) (proc : P) : Option (Option ℕ) :=
  group.search proc (range group.procCount)

/-- A loop over the ranks of a group, with their processes. -/
def forProcs {σ : Type} (group : Group P) (body : σ → ℕ → P → Option σ) (st : σ) : Option σ :=
  (range group.procCount).foldlM (fun st (k : ℕ) => do
    let proc ← group.getProcPtr k
    body st k proc) st

/-- `my_proc_pointer`, if the rank of the caller is not `MPI_UNDEFINED`. -/
def myProc (group : Group P) : Option (Option P) :=
  if group.myRank = mpiUndefined then some none else (group.getProcPtr group.myRank).map some

/-- The end of the functions that fill a dense group. The rank of the caller comes from the first
group, or from the second one. -/
def fill (group1 group2 : Group P) (size : ℕ) (procs : List P) (ptr : ℕ) : Option (Group P) := do
  let myProc1 ← group1.myProc
  let myProc ← (match myProc1 with
    | some proc => some (some proc)
    | none => group2.myProc)
  -- an entry that has not been written is undefined
  if procs.length ≠ size then none
  else match myProc with
    | none => some (.dense ptr procs mpiUndefined)
    | some proc => some (.dense ptr procs (setGroupRank procs proc))

/-- `ompi_group_union`. -/
def union (group1 group2 : Group P) (ptr : ℕ) : Option (Group P) := do
  let newGroupSize ← group2.forProcs (fun size _ proc2 => do
    let found ← group1.matchOf proc2
    if found.isSome then some size else intSucc size) group1.procCount
  if newGroupSize = 0 then some empty
  else do
    let procs ← group1.forProcs (fun procs _ proc1 => push newGroupSize procs proc1) []
    let procs ← group2.forProcs (fun procs _ proc2 => do
      let found ← group1.matchOf proc2
      if found.isSome then some procs else push newGroupSize procs proc2) procs
    fill group1 group2 newGroupSize procs ptr

/-- `ompi_group_intersection`. -/
def intersection (sparse : Bool) (before : ℤ) (group1 group2 : Group P) (ptr : ℕ) :
    Option (Group P) := do
  let k := if group1.procCount > group2.procCount then group2.procCount else group1.procCount
  let ranksIncluded ← group1.forProcs (fun ranks rank proc1 => do
    let found ← group2.matchOf proc1
    if found.isSome then push k ranks rank else some ranks) []
  group1.incl sparse before ranksIncluded ptr

/-- `ompi_group_incl` on an array of `int`s. A negative rank is before the array of the group. -/
def inclRanks (sparse : Bool) (before : ℤ) (group : Group P) (ranks : List ℤ) (ptr : ℕ) :
    Option (Group P) := do
  let ranks ← ranks.mapM Int.toNat?
  group.incl sparse before ranks ptr

def ranksIncluded (group : Group P) (capacity : ℕ) (excluded : List ℤ) : Option (List ℕ) :=
  (range group.procCount).foldlM (fun included (i : ℕ) =>
    if (i : ℤ) ∈ excluded then some included else push capacity included i) []

/-- The loop of the range functions that counts the ranks. -/
def countRanks (ranges : List Triplet) : Option ℕ :=
  ranges.foldlM (fun count t => t.forRanks (fun count _ => intSucc count) count) 0

/-- The loop of the range functions that lists the ranks. -/
def listRanks (count : ℕ) (ranges : List Triplet) : Option (List ℤ) :=
  ranges.foldlM (fun ranks t => t.forRanks (push count) ranks) []

/-- `ompi_group_range_incl`. -/
def rangeIncl (sparse : Bool) (before : ℤ) (group : Group P) (ranges : List Triplet) (ptr : ℕ) :
    Option (Group P) := do
  let count ← countRanks ranges
  let ranksIncluded ← listRanks count ranges
  group.inclRanks sparse before ranksIncluded ptr

/-- The loop of `ompi_group_compare`, with `similar` and `identical`. -/
def compareLoop (group1 group2 : Group P) : List ℕ → Bool → Bool → Option (Bool × Bool)
  | [], similar, identical => some (similar, identical)
  | proc1 :: ks, similar, identical => do
      let proc ← group1.getProcPtr proc1
      let found ← group2.matchOf proc
      match found with
      | none => some (false, false)
      | some proc2 =>
        compareLoop group1 group2 ks similar (if proc1 ≠ proc2 then false else identical)

/-- `ompi_group_compare`. -/
def compare (group1 group2 : Group P) : Option CompareResult :=
  if group1.ptr = group2.ptr then some .ident
  else if groupEmptyPtr = group1.ptr ∨ groupEmptyPtr = group2.ptr then some .unequal
  else if group1.procCount ≠ group2.procCount then some .unequal
  else do
    let (similar, identical) ← compareLoop group1 group2 (range group1.procCount) true true
    if identical then some .ident
    else if similar then some .similar
    else some .unequal

end Group

end Ulfm
