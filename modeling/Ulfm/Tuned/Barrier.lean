import Ulfm.Foundation.Dissemination
import Ulfm.Tuned.Folding
import Ulfm.Tuned.Ring

/-!
# Barriers

The barriers send empty messages with one tag, so the messages of a barrier cannot be told from
those of the next one. A synchronous send waits until its message is received.

In the double ring the left neighbour of the rank `0` is `-1 % size`, which is `-1` and stands
for any source. The sums and powers of two are `int`s as long as there are fewer than `2 ^ 30`
processes.
-/

namespace Ulfm

inductive BarrierKind where
  | doublering
  | recursivedoubling
  | bruck
  | tree
deriving DecidableEq

/-- `MPI_ANY_SOURCE`. -/
def anySource : ℤ := -1

/-- A receive from a source that can be `MPI_ANY_SOURCE`. -/
def recvAt (src : ℤ) : TokenAct := if src = anySource then .recvAny else .recv src.toNat

/-- `ompi_coll_tuned_sendrecv_actual`. -/
def sendrecvActual (dst src : ℕ) : List TokenAct := [.send dst, .recv src]

/-- `ompi_coll_tuned_barrier_intra_doublering`. -/
def barrierIntraDoublering (size rank : ℕ) : List TokenAct :=
  let left : ℤ := ((rank : ℤ) - 1).tmod size
  let right := (rank + 1) % size
  (if rank > 0 then [recvAt left] else []) ++ [.send right] ++
    (if rank = 0 then [recvAt left] else []) ++
    (if rank > 0 then [recvAt left] else []) ++ [.send right, .sync right] ++
    (if rank = 0 then [recvAt left] else [])

/-- A loop over the powers of two below a bound. -/
def doublingLoop (bound : ℕ) (body : ℕ → List TokenAct) : ℕ → ℕ → List TokenAct
  | 0, _ => []
  | fuel + 1, jump =>
    if jump < bound then body jump ++ doublingLoop bound body fuel (jump <<< 1) else []

def maskActs (adjsize rank mask : ℕ) : List TokenAct :=
  let remote := rank ^^^ mask
  if remote ≥ adjsize then [] else sendrecvActual remote remote

/-- `ompi_coll_tuned_barrier_intra_recursivedoubling`. -/
def barrierIntraRecursivedoubling (size rank : ℕ) : List TokenAct :=
  let adjsize := nextPowerOfTwo size >>> 1
  (if adjsize ≠ size then
    if rank ≥ adjsize then sendrecvActual (rank - adjsize) (rank - adjsize)
    else if rank < size - adjsize then [.recv (rank + adjsize)] else []
  else []) ++
  (if rank < adjsize then doublingLoop adjsize (maskActs adjsize rank) adjsize 1 else []) ++
  (if adjsize ≠ size then
    if rank < size - adjsize then [.send (rank + adjsize), .sync (rank + adjsize)] else []
  else [])

/-- `ompi_coll_tuned_barrier_intra_bruck`. -/
def barrierIntraBruck (size rank : ℕ) : List TokenAct :=
  doublingLoop size (fun distance =>
    sendrecvActual ((rank + distance) % size) ((rank + size - distance) % size)) size 1

/-- `opal_next_poweroftwo_inclusive`. -/
def nextPowerOfTwoInclusive (value : ℕ) : ℕ := loop value 1
where
  loop : ℕ → ℕ → ℕ
    | 0, power2 => power2
    | fuel + 1, power2 => if power2 < value then loop fuel (power2 <<< 1) else power2

/-- The message with the partner at a jump: the higher rank sends up to the lower one, and gets
an answer on the way down. -/
def treeUpAct (size rank jump : ℕ) : List TokenAct :=
  let partner := rank ^^^ jump
  if partner &&& (jump - 1) = 0 ∧ partner < size then
    if partner > rank then [.recv partner] else if partner < rank then [.send partner] else []
  else []

def treeDownAct (size rank jump : ℕ) : List TokenAct :=
  let partner := rank ^^^ jump
  if partner &&& (jump - 1) = 0 ∧ partner < size then
    if partner > rank then [.send partner] else if partner < rank then [.recv partner] else []
  else []

def treeDown (size rank : ℕ) : ℕ → ℕ → List TokenAct
  | 0, _ => []
  | fuel + 1, jump =>
    if jump > 0 then treeDownAct size rank jump ++ treeDown size rank fuel (jump >>> 1) else []

/-- `ompi_coll_tuned_barrier_intra_tree`. -/
def barrierIntraTree (size rank : ℕ) : List TokenAct :=
  let depth := nextPowerOfTwoInclusive size
  doublingLoop depth (treeUpAct size rank) depth 1 ++ treeDown size rank depth (depth >>> 1)

def BarrierKind.acts : BarrierKind → ℕ → ℕ → List TokenAct
  | doublering => barrierIntraDoublering
  | recursivedoubling => barrierIntraRecursivedoubling
  | bruck => barrierIntraBruck
  | tree => barrierIntraTree

structure RoundOf where
  snd : ℕ → Option ℕ
  rcv : ℕ → Option ℕ

namespace RoundOf

variable (n : ℕ)

def doublering (t : ℕ) : RoundOf where
  snd p := if t < 2 * n ∧ t % n = p then some ((p + 1) % n) else none
  rcv q := if t < 2 * n ∧ (t % n + 1) % n = q then some (t % n) else none

def bruck (t : ℕ) : RoundOf where
  snd p := if 2 ^ t < n then some ((p + 2 ^ t) % n) else none
  rcv q := if 2 ^ t < n then some ((q + n - 2 ^ t) % n) else none

/-- The extra ranks are folded in first and get their message last. -/
def recursivedoubling (L t : ℕ) : RoundOf where
  snd p :=
    if t = 0 then if 2 ^ L ≤ p then some (p - 2 ^ L) else none
    else if t ≤ L then if p < 2 ^ L then some (p ^^^ 2 ^ (t - 1)) else none
    else if t = L + 1 ∧ p < n - 2 ^ L then some (p + 2 ^ L) else none
  rcv q :=
    if t = 0 then if q < n - 2 ^ L then some (q + 2 ^ L) else none
    else if t ≤ L then if q < 2 ^ L then some (q ^^^ 2 ^ (t - 1)) else none
    else if t = L + 1 ∧ 2 ^ L ≤ q then some (q - 2 ^ L) else none

def treeJump (D t : ℕ) : ℕ := if t < D then t else 2 * D - 1 - t

/-- A rank has a message with its partner at a jump. -/
def TreePair (j p : ℕ) : Prop := (p ^^^ 2 ^ j) % 2 ^ j = 0 ∧ p ^^^ 2 ^ j < n

instance (j p : ℕ) : Decidable (TreePair n j p) := inferInstanceAs (Decidable (_ ∧ _))

def tree (D t : ℕ) : RoundOf where
  snd p :=
    let j := treeJump D t
    if t < 2 * D ∧ TreePair n j p ∧ (if t < D then p ^^^ 2 ^ j < p else p < p ^^^ 2 ^ j) then
      some (p ^^^ 2 ^ j) else none
  rcv q :=
    let j := treeJump D t
    if t < 2 * D ∧ TreePair n j q ∧ (if t < D then q < q ^^^ 2 ^ j else q ^^^ 2 ^ j < q) then
      some (q ^^^ 2 ^ j) else none

end RoundOf

end Ulfm
