import Mathlib.Algebra.Order.Ring.Int
import Ulfm.Group.Definitions

/-!
# Sparse groups

`ompi_group_incl` can store the ranks of the new group in its parent instead of process
pointers: an offset and a stride, a list of runs, or a bitmap. This module has the four
formats, the rank translation of each, and the functions that build them. A group is
immutable once it is built, so it is a value here that holds its parent; its address is
`ptr`, which is what the code compares.

A result is `none` where C leaves the operation undefined or where the function does not
write its result. Some of the code reads the word before the array `ranks`. It is the
parameter `before`, and it can hold anything.
-/

namespace Ulfm

open List

/-- `MPI_UNDEFINED`. -/
def mpiUndefined : ℤ := -32766

/-- `MPI_PROC_NULL`. -/
def mpiProcNull : ℤ := -2

/-- `BSIZE`. -/
def bSize : Nat := 8

/-- `sparse_data`. An entry of the sporadic list is `rank_first` and `length`. -/
inductive SparseData where
  | strided (stride offset lastElement : ℤ)
  | sporadic (list : List (Nat × Nat))
  | bitmap (array : List Nat)
deriving DecidableEq

namespace SparseData

/-- `ompi_group_translate_ranks_strided`, for a rank that is not `MPI_PROC_NULL`. -/
def translateStrided (stride offset lastElement rank : ℤ) : Option ℤ :=
  if rank - offset < 0 then some mpiUndefined
  else if stride = 0 then none
  else if (rank - offset).tmod stride = 0 ∧ rank ≤ lastElement then
    some ((rank - offset).tdiv stride)
  else some mpiUndefined

/-- The loop of `ompi_group_translate_ranks_sporadic`. -/
def translateSporadic (rank count : ℤ) : List (Nat × Nat) → ℤ
  | [] => mpiUndefined
  | (first, length) :: rest =>
    if first ≤ rank ∧ rank ≤ first + length - 1 then rank - first + count
    else translateSporadic rank (count + length) rest

/-- The loop of `ompi_group_translate_ranks_sporadic_reverse`. -/
def translateSporadicReverse (rank count : ℤ) : List (Nat × Nat) → Option ℤ
  | [] => none
  | (first, length) :: rest =>
    if rank > count + length - 1 then translateSporadicReverse rank (count + length) rest
    else some (first + (rank - count))

/-- Whether the bit of a rank of the parent is set in the bitmap. -/
def bitSet (array : List Nat) (p : Nat) : Bool :=
  (array.getD (p / bSize) 0) &&& (1 <<< (p % bSize)) = 1 <<< (p % bSize)

/-- The two loops of `ompi_group_translate_ranks_bmap`, over the bits up to that of the
rank. -/
def countBits (array : List Nat) (m : Nat) : Nat :=
  (range (m + 1)).foldl (fun count p => if bitSet array p then count + 1 else count) 0

/-- `ompi_group_translate_ranks_bmap`. With a negative rank, such as `MPI_UNDEFINED`, the
shift `1 << (m % BSIZE)` is by a negative count, and the byte is before the array. -/
def translateBmap (array : List Nat) (rank : ℤ) : Option ℤ :=
  if rank < 0 then none
  else if array.length ≤ rank.toNat / bSize then none
  else if bitSet array rank.toNat then some (countBits array rank.toNat - 1)
  else some mpiUndefined

/-- The two loops of `ompi_group_translate_ranks_bmap_reverse`, over the given bits. -/
def translateBmapReverse (array : List Nat) (rank count : ℤ) : List Nat → Option ℤ
  | [] => none
  | p :: ps =>
    let count := if bitSet array p then count + 1 else count
    if rank = count - 1 then some p else translateBmapReverse array rank count ps

def translate (data : SparseData) (rank : ℤ) : Option ℤ :=
  if rank = mpiProcNull then some mpiProcNull
  else match data with
    | .strided stride offset lastElement => translateStrided stride offset lastElement rank
    | .sporadic list => some (translateSporadic rank 0 list)
    | .bitmap array => translateBmap array rank

def translateReverse (data : SparseData) (rank : ℤ) : Option ℤ :=
  if rank = mpiProcNull then some mpiProcNull
  else match data with
    | .strided stride offset _ => some (stride * rank + offset)
    | .sporadic list => translateSporadicReverse rank 0 list
    | .bitmap array => translateBmapReverse array rank 0 (range (array.length * bSize))

end SparseData

/-- `ompi_group_t`. -/
inductive Group (P : Type) where
  | dense (ptr : Nat) (procs : List P) (myRank : ℤ)
  | sparse (ptr : Nat) (parent : Group P) (data : SparseData) (procCount : Nat) (myRank : ℤ)
deriving DecidableEq

/-- The address of `MPI_GROUP_EMPTY`. -/
def groupEmptyPtr : Nat := 0

namespace Group

variable {P : Type}

def ptr : Group P → Nat
  | dense ptr _ _ => ptr
  | sparse ptr _ _ _ _ => ptr

/-- `grp_proc_count`. -/
def procCount : Group P → Nat
  | dense _ procs _ => procs.length
  | sparse _ _ _ procCount _ => procCount

/-- `grp_my_rank`. -/
def myRank : Group P → ℤ
  | dense _ _ myRank => myRank
  | sparse _ _ _ _ myRank => myRank

/-- `grp_parent_group_ptr` of a sparse group, with its data. -/
def sparse? : Group P → Option (Nat × SparseData)
  | dense _ _ _ => none
  | sparse _ parent data _ _ => some (parent.ptr, data)

/-- `ompi_group_get_proc_ptr`. The rank translation there is from a child to its parent. -/
def getProcPtr : Group P → ℤ → Option P
  | dense _ procs _, rank => if rank < 0 then none else procs[rank.toNat]?
  | sparse _ parent data _ _, rank => (data.translateReverse rank).bind parent.getProcPtr

variable [DecidableEq P]

/-- The loop of `ompi_group_translate_ranks` over the ranks of the second group. -/
def findProc (g : Group P) (p : P) : ℤ :=
  match (range g.procCount).find? (fun k : Nat => g.getProcPtr k = some p) with
  | some k => k
  | none => mpiUndefined

/-- `ompi_group_translate_ranks` on one rank. -/
def translateRank (g₁ g₂ : Group P) (rank : ℤ) : Option ℤ :=
  if g₁.ptr = groupEmptyPtr ∨ g₂.ptr = groupEmptyPtr then some mpiUndefined
  else match g₁.sparse?, g₂.sparse? with
    | some (parent₁, data₁), some (parent₂, data₂) =>
      if parent₁ = g₂.ptr then data₁.translateReverse rank
      else if parent₂ = g₁.ptr then data₂.translate rank
      else loop
    | some (parent₁, data₁), none =>
      if parent₁ = g₂.ptr then data₁.translateReverse rank else loop
    | none, some (parent₂, data₂) =>
      if parent₂ = g₁.ptr then data₂.translate rank else loop
    | none, none => loop
where
  loop : Option ℤ :=
    if rank = mpiProcNull then some mpiProcNull else (g₁.getProcPtr rank).map g₂.findProc

/-- `ompi_group_translate_ranks`. -/
def translateRanks (g₁ g₂ : Group P) (ranks : List ℤ) : Option (List ℤ) :=
  ranks.mapM (translateRank g₁ g₂)

/-- `ompi_set_group_rank`: the last rank of the process. -/
def setGroupRank (procs : List P) (p : P) : ℤ :=
  (range procs.length).foldl
    (fun (rank : ℤ) (k : Nat) => if procs[k]? = some p then (k : ℤ) else rank) mpiUndefined

/-- `ompi_group_incl_plist`. -/
def inclPlist (group : Group P) (ranks : List Nat) (ptr : Nat) : Option (Group P) := do
  let procs ← ranks.mapM fun r : Nat => group.getProcPtr r
  if group.myRank ≠ mpiUndefined then
    let p ← group.getProcPtr group.myRank
    some (dense ptr procs (setGroupRank procs p))
  else some (dense ptr procs mpiUndefined)

/-- The end of the functions for the sparse formats. -/
def inclSparse (group : Group P) (data : SparseData) (procCount ptr : Nat) : Option (Group P) :=
  (group.translateRank (sparse ptr group data procCount mpiUndefined) group.myRank).map
    (sparse ptr group data procCount)

end Group

section Formats

/-- The loop of `check_stride`. -/
def checkStrideLoop (s : ℤ) : List Nat → ℤ
  | a :: b :: rest => if (b : ℤ) - a ≠ s then -1 else checkStrideLoop s (b :: rest)
  | _ => s

/-- `check_stride`. -/
def checkStride (ranks : List Nat) : ℤ :=
  let s : ℤ := match ranks with
    | a :: b :: _ => b - a
    | _ => 1
  if s < 0 then -1 else checkStrideLoop s ranks

/-- The loop that counts the runs, with the word before the rest of the array. -/
def sporadicLenLoop (l : Nat) (before : ℤ) : List Nat → Nat
  | [] => l
  | r :: rest =>
    if (r : ℤ) = before + 1 then sporadicLenLoop (if l = 0 then l + 1 else l) r rest
    else sporadicLenLoop (l + 1) r rest

/-- The loop of `ompi_group_incl_spor` that fills the list, with its last entry and the
rank before. -/
def sporadicListLoop (entry : Nat × Nat) (before : Nat) : List Nat → List (Nat × Nat)
  | [] => [entry]
  | r :: rest =>
    if r = before + 1 then sporadicListLoop (entry.1, entry.2 + 1) r rest
    else entry :: sporadicListLoop (r, 1) r rest

/-- The sporadic list of `ompi_group_incl_spor`. -/
def sporadicList : List Nat → List (Nat × Nat)
  | [] => []
  | r :: rest => sporadicListLoop (r, 1) r rest

/-- `check_ranks`. -/
def checkRanks : List Nat → Bool
  | a :: b :: rest => if a > b then false else checkRanks (b :: rest)
  | _ => true

/-- `ompi_group_div_ceil`. -/
def groupDivCeil (num den : Nat) : Nat := if num % den = 0 then num / den else num / den + 1

/-- The bitmap of `ompi_group_incl_bmap`. -/
def bitmapArray (parentCount : Nat) (ranks : List Nat) : List Nat :=
  ranks.foldl (fun array r => array.modify (r / bSize) (· ||| 1 <<< (r % bSize)))
    (replicate (groupDivCeil parentCount bSize) 0)

inductive GroupMethod where
  | plist
  | strided
  | sporadic
  | bitmap
deriving DecidableEq

/-- The lengths that `ompi_group_incl` compares, `-1` for a format that does not apply. -/
def groupCalc (parentCount : Nat) (before : ℤ) (ranks : List Nat) : GroupMethod → ℤ
  | .plist => 8 * ranks.length
  | .strided => if checkStride ranks = -1 then -1 else 4 * 3
  | .sporadic => 8 * sporadicLenLoop 0 before ranks
  | .bitmap => if checkRanks ranks then groupDivCeil parentCount bSize else -1

/-- `ompi_group_minloc` on these lengths. -/
def groupMinloc (len : GroupMethod → ℤ) : GroupMethod :=
  ([.plist, .strided, .sporadic, .bitmap].foldl
    (fun best m => if best.1 > len m ∧ len m ≠ -1 then (len m, m) else best)
    (len .plist, .plist)).2

/-- The formats that `ompi_group_incl` can choose for a list of ranks. -/
def GroupMethod.Applies (method : GroupMethod) (ranks : List Nat) : Prop :=
  match method with
  | .plist | .sporadic => True
  | .strided => checkStride ranks ≠ -1
  | .bitmap => checkRanks ranks = true

instance : ∀ (method : GroupMethod) (ranks : List Nat), Decidable (method.Applies ranks)
  | .plist, _ | .sporadic, _ => isTrue trivial
  | .strided, ranks => inferInstanceAs (Decidable (checkStride ranks ≠ -1))
  | .bitmap, ranks => inferInstanceAs (Decidable (checkRanks ranks = true))

variable {P : Type} [DecidableEq P]

/-- `ompi_group_incl` with a format, for a list of ranks that is not empty. -/
def Group.inclBy (method : GroupMethod) (before : ℤ) (group : Group P) (ranks : List Nat)
    (ptr : Nat) : Option (Group P) :=
  match method with
  | .plist => group.inclPlist ranks ptr
  | .strided =>
    group.inclSparse (.strided (checkStride ranks) (ranks.headD 0) (ranks.getLastD 0))
      ranks.length ptr
  | .sporadic =>
    -- the list has been allocated with the length that the first loop counts
    if sporadicLenLoop 0 before ranks < (sporadicList ranks).length then none
    else group.inclSparse (.sporadic (sporadicList ranks))
      ((sporadicList ranks).map (·.2)).sum ptr
  | .bitmap => group.inclSparse (.bitmap (bitmapArray group.procCount ranks)) ranks.length ptr

end Formats

/-- One call of `ompi_group_incl`, on a group that exists. The ranks are distinct. -/
structure InclStep where
  parent : Nat
  ranks : List Nat
  nodup : ranks.Nodup
  method : GroupMethod
  before : ℤ

section Runs

variable {P : Type} [DecidableEq P]

/-- The rank of a process in a list, or `MPI_UNDEFINED`. -/
def rankOf {α : Type} [DecidableEq α] (a : α) (l : List α) : ℤ :=
  if a ∈ l then l.idxOf a else mpiUndefined

/-- `MPI_GROUP_EMPTY` and some dense groups, at the process `me`. -/
def initialGroups (me : P) (bases : List (ProcGroup P)) : List (Group P) :=
  .dense groupEmptyPtr [] mpiUndefined ::
    bases.zipIdx.map fun b => .dense (b.2 + 1) b.1.procs (rankOf me b.1.procs)

/-- `ompi_group_incl` among the groups of a process. -/
def inclGroup (groups : List (Group P)) (step : InclStep) : Option (List (Group P)) :=
  if step.ranks = [] then some groups
  else do
    let parent ← groups[step.parent]?
    let g ← parent.inclBy step.method step.before step.ranks groups.length
    some (groups ++ [g])

def inclGroups (groups : List (Group P)) : List InclStep → Option (List (Group P))
  | [] => some groups
  | step :: steps => (inclGroup groups step).bind fun groups => inclGroups groups steps

end Runs

end Ulfm
