import Ulfm.Foundation.LocalTree

/-!
# The topologies of the tuned collectives

Each process computes its own place in a tree from its rank, the size of the communicator
and the root, without communication (`coll_tuned_topo.c`). A builder gives no tree where
the code returns `NULL`, divides by zero, computes a number that is no `int`, or does not
end within the steps given to its loops. Numbers up to the size need no check.
-/

namespace Ulfm

open List

/-- `MAXTREEFANOUT`. -/
def maxTreeFanout : ℕ := 32

/-- A number that an `int` holds. -/
def asInt (n : ℕ) : Option ℕ := if n < 2 ^ 31 then some n else none

theorem asInt_of_lt {n : ℕ} (h : n < 2 ^ 31) : asInt n = some n := if_pos h

theorem asInt_of_ge {n : ℕ} (h : 2 ^ 31 ≤ n) : asInt n = none := if_neg h.not_gt

/-- `pown`. -/
def pown (fanout num : ℕ) : Option ℕ :=
  if num = 1 then some fanout
  else if fanout = 2 then asInt (1 <<< num)
  else (range num).foldlM (fun p _ => asInt (p * fanout)) 1

/-- The loop of `calculate_level`. -/
def calculateLevelLoop (fanout rank : ℕ) : ℕ → ℕ → ℕ → Option ℕ
  | 0, _, _ => none
  | fuel + 1, level, num =>
    if num ≤ rank then do
      let p ← pown fanout level
      let num ← asInt (num + p)
      calculateLevelLoop fanout rank fuel (level + 1) num
    else some level

/-- `calculate_level`. -/
def calculateLevel (fanout rank : ℕ) : Option ℕ :=
  (calculateLevelLoop fanout rank (rank + 2) 0 0).map (· - 1)

/-- `calculate_num_nodes_up_to_level`. -/
def calculateNumNodesUpToLevel (fanout level : ℕ) : Option ℕ :=
  if fanout - 1 = 0 then none else (pown fanout level).map fun p => (p - 1) / (fanout - 1)

/-- The loop of `ompi_coll_tuned_topo_build_tree` that finds the children, from `i` on. -/
def findChildren (size root shifted delta : ℕ) : ℕ → ℕ → Option (List ℕ)
  | 0, _ => some []
  | n + 1, i => do
    let schild ← asInt (shifted + delta * (i + 1))
    if schild < size then do
      let child ← asInt (schild + root)
      let next ← findChildren size root shifted delta n (i + 1)
      some (child % size :: next)
    else some []

/-- The loop of `ompi_coll_tuned_topo_build_tree` that finds the parent. -/
def findParentLoop (slimit step : ℕ) : ℕ → ℕ → Option ℕ
  | 0, _ => none
  | fuel + 1, sparent =>
    if sparent ≥ slimit then findParentLoop slimit step fuel (sparent - step) else some sparent

/-- The parent in `ompi_coll_tuned_topo_build_tree`. -/
def findParent (fanout slimit delta shifted : ℕ) : Option ℕ :=
  if shifted < fanout then some 0
  else findParentLoop slimit (delta / fanout) (shifted + 1) shifted

/-- `ompi_coll_tuned_topo_build_tree`. -/
def buildTree (fanout size root rank : ℕ) : Option NodeView :=
  if fanout < 1 then none
  else if fanout > maxTreeFanout then none
  else if size < 2 then some ⟨-1, []⟩
  else do
    let shifted := shiftedRank size root rank
    let level ← calculateLevel fanout shifted
    let delta ← pown fanout level
    let next ← findChildren size root shifted delta fanout 0
    let slimit ← calculateNumNodesUpToLevel fanout level
    let sparent ← findParent fanout slimit delta shifted
    let parent ← asInt (sparent + root)
    some ⟨(parent % size : ℕ), next⟩

/-- `opal_next_poweroftwo`, with a power of two of any size: whether it is an `int` is
left to the callers. -/
def nextPowerOfTwo (value : ℕ) : ℕ := loop value value 1
where
  loop : ℕ → ℕ → ℕ → ℕ
    | 0, _, power2 => power2
    | fuel + 1, value, power2 =>
      if value > 0 then loop fuel (value >>> 1) (power2 <<< 1) else power2

/-- A rank that is shifted by the root once. -/
def unshift (size root v : ℕ) : Option ℕ :=
  (asInt (v + root)).map fun remote => if remote ≥ size then remote - size else remote

/-- The loop of `ompi_coll_tuned_topo_build_bmtree` that fills the children. -/
def bmtreeChilds (size root index : ℕ) : ℕ → ℕ → List ℕ → Option (List ℕ)
  | 0, _, _ => none
  | fuel + 1, mask, childs =>
    if mask < size then
      if index ^^^ mask ≥ size then some childs
      else do
        let remote ← unshift size root (index ^^^ mask)
        if childs.length = maxTreeFanout then none
        else do
          let mask ← asInt (mask <<< 1)
          bmtreeChilds size root index fuel mask (childs ++ [remote])
    else some childs

/-- `ompi_coll_tuned_topo_build_bmtree`. -/
def buildBmtree (size root rank : ℕ) : Option NodeView := do
  let index := shiftedRank size root rank
  let mask ← asInt (nextPowerOfTwo index)
  let prev ← if root = rank then some root else unshift size root (index ^^^ (mask >>> 1))
  let childs ← bmtreeChilds size root index (size + 1) mask []
  some ⟨prev, childs⟩

/-- The loop of `ompi_coll_tuned_topo_build_in_order_bmtree`, with the parent so far. -/
def inOrderBmtreeLoop (size root vrank : ℕ) : ℕ → ℕ → ℤ → List ℕ → Option NodeView
  | 0, _, _, _ => none
  | fuel + 1, mask, prev, childs =>
    if mask < size then
      if vrank ^^^ mask < vrank then do
        let remote ← asInt ((vrank ^^^ mask) + root)
        some ⟨(remote % size : ℕ), childs⟩
      else do
        let childs ← if vrank ^^^ mask < size then do
            let remote ← asInt ((vrank ^^^ mask) + root)
            let childs := childs ++ [remote % size]
            if childs.length = maxTreeFanout then none else some childs
          else some childs
        let mask ← asInt (mask <<< 1)
        inOrderBmtreeLoop size root vrank fuel mask prev childs
    else some ⟨prev, childs⟩

/-- `ompi_coll_tuned_topo_build_in_order_bmtree`. The field `tree_prev` is not set before
the loop except at the root; it is `uninitialized` then. -/
def buildInOrderBmtree (uninitialized : ℤ) (size root rank : ℕ) : Option NodeView := do
  let vrank ← asInt (rank + size - root)
  inOrderBmtreeLoop size root (vrank % size) (size + 1) 1
    (if root = rank then root else uninitialized) []

/-- The head and the length of the chain of a process, from `column`. -/
def chainPlace (maxchainlen mark srank : ℕ) : Option (ℕ × ℕ) := do
  let long ← asInt (mark * maxchainlen)
  if srank - 1 < long then
    let column := (srank - 1) / maxchainlen
    some (1 + column * maxchainlen, maxchainlen)
  else if maxchainlen - 1 = 0 then none
  else
    let column := mark + (srank - 1 - long) / (maxchainlen - 1)
    some (long + 1 + (column - mark) * (maxchainlen - 1), maxchainlen - 1)

/-- The children of the root in `ompi_coll_tuned_topo_build_chain`, from `i` on: the heads
of the chains, each after the one before it. -/
def chainRootNext (size maxchainlen mark : ℕ) : ℕ → ℕ → ℕ → Option (List ℕ)
  | 0, _, _ => some []
  | n + 1, i, next => do
    let sum ← asInt (next + maxchainlen)
    let next := (if i > mark then sum - 1 else sum) % size
    let rest ← chainRootNext size maxchainlen mark n (i + 1) next
    some (next :: rest)

/-- `ompi_coll_tuned_topo_build_chain`. -/
def buildChain (fanout size root rank : ℕ) : Option NodeView :=
  let fanout := if fanout < 1 then 1 else fanout
  let fanout := if fanout > maxTreeFanout then maxTreeFanout else fanout
  let fanout := if size - 1 < fanout then size - 1 else fanout
  let srank := shiftedRank size root rank
  if fanout = 1 then do
    let prev ← if srank = 0 then some (-1 : ℤ)
      else (asInt (srank - 1 + root)).map fun prev => ((prev % size : ℕ) : ℤ)
    let next ← if srank + 1 ≥ size then some []
      else (asInt (srank + 1 + root)).map fun next => [next % size]
    some ⟨prev, next⟩
  else if size = 1 then some ⟨-1, []⟩
  else
    let maxchainlen :=
      if (size - 1) % fanout ≠ 0 then (size - 1) / fanout + 1 else (size - 1) / fanout
    let mark := if (size - 1) % fanout ≠ 0 then (size - 1) % fanout else fanout + 1
    if rank = root then do
      let first := (root + 1) % size
      let next ← chainRootNext size maxchainlen mark (fanout - 1) 1 first
      some ⟨-1, first :: next⟩
    else do
      let (head, len) ← chainPlace maxchainlen mark srank
      let prev ← asInt ((if srank = head then 0 else srank - 1) + root)
      let next ← if srank = head + len - 1 then some []
        else if srank + 1 < size then (asInt (srank + 1 + root)).map fun next => [next % size]
        else some []
      some ⟨(prev % size : ℕ), next⟩

inductive TopoBuilder where
  | tree (fanout : ℕ)
  | bmtree
  | inOrderBmtree
  | chain (fanout : ℕ)
deriving DecidableEq

namespace TopoBuilder

def build (b : TopoBuilder) (uninitialized : ℤ) (size root rank : ℕ) : Option NodeView :=
  match b with
  | tree fanout => buildTree fanout size root rank
  | bmtree => buildBmtree size root rank
  | inOrderBmtree => buildInOrderBmtree uninitialized size root rank
  | chain fanout => buildChain fanout size root rank

def Accepts : TopoBuilder → Prop
  | tree fanout | chain fanout => 1 ≤ fanout ∧ fanout ≤ maxTreeFanout
  | bmtree | inOrderBmtree => True

instance (b : TopoBuilder) : Decidable b.Accepts :=
  match b with
  | tree fanout | chain fanout => inferInstanceAs (Decidable (1 ≤ fanout ∧ fanout ≤ maxTreeFanout))
  | bmtree | inOrderBmtree => inferInstanceAs (Decidable True)

end TopoBuilder

end Ulfm
