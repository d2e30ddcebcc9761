import Ulfm.Foundation.MixedRadix
import Ulfm.Group.Sparse

/-!
# Cartesian topologies

The rank of a process in a grid is a mixed radix number with its coordinates as digits.
`topo_base_cart_coords.c`, `topo_base_cart_rank.c` and `topo_base_cart_shift.c` each compute
with it on their own. A result that does not fit in an `int` is no result.
-/

namespace Ulfm

namespace Topo

/-- `ord + disp` and `ord - disp` are computed with an `int`. -/
def intResult (x : ℤ) : Option ℤ := if -2 ^ 31 ≤ x ∧ x < 2 ^ 31 then some x else none

/-- The loop of `mca_topo_base_cart_coords`. -/
def coordsLoop : List ℕ → ℕ → ℕ → List ℕ
  | [], _, _ => []
  | dim :: dims, remprocs, rank =>
    let remprocs := remprocs / dim
    rank / remprocs :: coordsLoop dims remprocs (rank % remprocs)

/-- `mca_topo_base_cart_coords`, on a communicator of `size` processes. -/
def cartCoords (size : ℕ) (dims : List ℕ) (rank maxdims : ℕ) : List ℕ :=
  coordsLoop (dims.take maxdims) size rank

/-- A coordinate that is out of range is normalised. -/
def normalise (dim : ℕ) (ord : ℤ) : ℤ :=
  if ord < 0 ∨ dim ≤ ord then
    if ord.tmod dim < 0 then ord.tmod dim + dim else ord.tmod dim
  else ord

/-- `mca_topo_base_cart_rank`. The loop runs from the last dimension to the first one. -/
def cartRank (dims : List ℕ) (coords : List ℤ) : ℤ :=
  ((dims.zip coords).foldr
    (fun (dim, ord) (prank, factor) => (prank + factor * normalise dim ord, factor * dim))
    ((0 : ℤ), (1 : ℤ))).1

/-- What `mca_topo_base_cart_shift` knows when its loop stops. -/
structure Direction where
  thisdirection : ℕ
  thisperiod : Bool
  ord : ℕ
  factor : ℕ

/-- The loop of `mca_topo_base_cart_shift`. -/
def shiftLoop (size : ℕ) (dims : List ℕ) (periods : List Bool) (rank direction : ℕ) : Direction :=
  ((dims.zip periods).take (direction + 1)).foldl
    (fun s (dim, period) => ⟨dim, period, s.ord % s.factor, s.factor / dim⟩) ⟨0, false, rank, size⟩

/-- The process at a displaced coordinate. -/
def displaced (s : Direction) (rank ord : ℕ) (moved : ℤ) : ℤ :=
  if (moved < 0 ∨ s.thisdirection ≤ moved) ∧ s.thisperiod = false then mpiProcNull
  else
    let moved := moved.tmod s.thisdirection
    let moved := if moved < 0 then moved + s.thisdirection else moved
    rank + (moved - ord) * s.factor

/-- `mca_topo_base_cart_shift`: the source and the destination. -/
def cartShift (size : ℕ) (dims : List ℕ) (periods : List Bool) (rank direction : ℕ) (disp : ℤ) :
    Option (ℤ × ℤ) :=
  if disp = 0 then some (rank, rank)
  else do
    let s := shiftLoop size dims periods rank direction
    let ord := s.ord / s.factor
    let srcord ← intResult (ord - disp)
    let destord ← intResult (ord + disp)
    some (displaced s rank ord srcord, displaced s rank ord destord)

end Topo

end Ulfm
