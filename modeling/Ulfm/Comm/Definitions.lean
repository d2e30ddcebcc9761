import Mathlib.Data.List.Sort
import Ulfm.Group.Sparse

/-!
# Splitting a communicator

`ompi_comm_split` of `comm.c`, with `ompi_comm_set` and `ompi_comm_copy_topo`. The
collectives and the choice of the context identifier are taken to be correct: every
process has the colours and the keys of its own side, and in an inter-communicator those
of the other one. A collective that only some processes of its communicator call does not
end. An allocation, of no bytes too, succeeds. `none` is behaviour that the code leaves
undefined, or a call that does not return.
-/

namespace Ulfm

/-- `mca_topo_base_comm_t`. The flag `cart` is `OMPI_COMM_CART`, without it the topology is
a graph. -/
structure TopoComm where
  cart : Bool
  ndimsOrNnodes : ℕ
  dimsOrIndex : List ℕ
  periodsOrEdges : List ℤ
  coords : List ℕ
  reorder : Bool
deriving DecidableEq

/-- `ompi_communicator_t`. -/
structure Comm (P : Type) where
  localGroup : Group P
  remoteGroup : Group P
  myRank : ℤ
  inter : Bool
  topo : Option TopoComm
deriving DecidableEq

/-- What a process finds in its memory: the words before its two arrays of ranks, and the
addresses of the groups that it allocates. -/
structure Heap where
  lbefore : ℤ
  rbefore : ℤ
  lptr : ℕ
  rptr : ℕ

/-- `ompi_comm_copy_topo`. The edges of a graph are counted by the last entry of its
index. -/
def copyTopo (oldt : TopoComm) : Option TopoComm :=
  if oldt.cart ∧ oldt.ndimsOrNnodes = 0 then
    some { oldt with dimsOrIndex := [], periodsOrEdges := [], coords := [] }
  else
    let dimsOrIndex := oldt.dimsOrIndex.take oldt.ndimsOrNnodes
    if oldt.cart then
      some { oldt with
        dimsOrIndex := dimsOrIndex
        periodsOrEdges := oldt.periodsOrEdges.take oldt.ndimsOrNnodes
        coords := oldt.coords.take oldt.ndimsOrNnodes }
    else if oldt.ndimsOrNnodes = 0 then none
    else dimsOrIndex[oldt.ndimsOrNnodes - 1]?.map fun index =>
      { oldt with
        dimsOrIndex := dimsOrIndex
        periodsOrEdges := oldt.periodsOrEdges.take index
        coords := [] }

/-- `rankkeycompare`, on pairs of a rank and a key. -/
def rankkeycompare (a b : ℕ × ℤ) : ℤ :=
  if a.2 < b.2 then -1
  else if a.2 > b.2 then 1
  else if a.1 < b.1 then -1
  else if a.1 = b.1 then 0
  else 1

/-- The pairs of a rank and a key with a colour. An entry of `results` is a colour and a
key. -/
def sameColor (results : List (ℤ × ℤ)) (color : ℤ) : List (ℕ × ℤ) :=
  results.zipIdx.filterMap fun (info, i) => if info.1 = color then some (i, info.2) else none

/-- The ranks with a colour, as they are after `qsort`. -/
def splitRanks (results : List (ℤ × ℤ)) (color : ℤ) : List ℕ :=
  let sorted := sameColor results color
  let sorted :=
    if 1 < sorted.length then sorted.insertionSort fun a b => rankkeycompare a b ≤ 0
    else sorted
  sorted.map (·.1)

section Split

variable {P : Type} [DecidableEq P]

/-- The format that `ompi_group_incl` chooses. The sparse ones are an option of the build and
of the run. -/
def inclMethod (sparse : Bool) (procCount : ℕ) (before : ℤ) (ranks : List ℕ) : GroupMethod :=
  if sparse then groupMinloc (groupCalc procCount before ranks) else .plist

/-- `ompi_group_incl`. -/
def Group.incl (sparse : Bool) (before : ℤ) (group : Group P) (ranks : List ℕ) (ptr : ℕ) :
    Option (Group P) :=
  if ranks = [] then some (.dense groupEmptyPtr [] mpiUndefined)
  else group.inclBy (inclMethod sparse group.procCount before ranks) before ranks ptr

/-- The topology that `ompi_comm_set` gives the new communicator, if it is to have one. -/
def setTopo (oldcomm : Comm P) (passOnTopo : Bool) : Option (Option TopoComm) :=
  match if passOnTopo then oldcomm.topo else none with
  | none => some none
  | some oldt => (copyTopo oldt).map some

/-- `ompi_comm_set` with lists of ranks. Without remote processes the remote group is the
local one, and the local communicator is not duplicated. -/
def commSet (sparse : Bool) (heap : Heap) (oldcomm : Comm P) (localRanks remoteRanks : List ℕ)
    (passOnTopo dupEnds : Bool) : Option (Comm P) := do
  let localGroup ← oldcomm.localGroup.incl sparse heap.lbefore localRanks heap.lptr
  let remoteGroup ←
    (if 0 < remoteRanks.length then
      oldcomm.remoteGroup.incl sparse heap.rbefore remoteRanks heap.rptr
    else some localGroup)
  let topo ← setTopo oldcomm passOnTopo
  if 0 < remoteRanks.length ∧ dupEnds = false then none
  else some ⟨localGroup, remoteGroup, localGroup.myRank, 0 < remoteRanks.length, topo⟩

/-- The processes of a side that duplicate its local communicator are all of them or none. -/
def dupEnds (results rresults : List (ℤ × ℤ)) : Bool :=
  let joined := fun info : ℤ × ℤ => 0 < (splitRanks rresults info.1).length
  results.all joined || results.all fun info => !joined info

/-- `ompi_comm_split`, with the results of its two allgathers. A result without a
communicator is `MPI_COMM_NULL`. -/
def commSplit (sparse : Bool) (heap : Heap) (comm : Comm P) (color : ℤ)
    (results rresults : List (ℤ × ℤ)) (passOnTopo : Bool) : Option (Option (Comm P)) := do
  let lranks := splitRanks results color
  let rranks := if comm.inter then splitRanks rresults color else []
  let newcomp ← commSet sparse heap comm lranks rranks passOnTopo (dupEnds results rresults)
  -- `ompi_comm_nextcid` waits for the processes of both sides
  if comm.inter ∧ (dupEnds results rresults && dupEnds rresults results) = false then none
  -- the communicator has been set up in full before it is freed
  else some (if color = mpiUndefined then none else some newcomp)

end Split

end Ulfm
