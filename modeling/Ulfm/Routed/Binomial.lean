import Mathlib.Data.Nat.Bitwise
import Mathlib.Data.Nat.Size
import Ulfm.Routed.Route

/-!
# Binomial routing between daemons

The children of a daemon in the binomial tree have one more bit set, above its highest one. When a
daemon is dead, its children are inherited by the daemon above it. `binomial_tree` finds the parent,
the children and the relatives of a daemon in one search from the root, and searches the tree from
the root again for each child.

`get_route` works with the tree of the last update. It updates the tree when it meets a dead child.
-/

namespace Ulfm

namespace Routed

namespace Binomial

/-- `opal_cube_dim`. -/
def cubeDim (value : ℕ) : ℕ := if 1 ≥ value then 0 else (value - 1).size

/-- `opal_hibit`, plus one. -/
def hibitSucc (value start : ℕ) : ℕ := (value &&& ((1 <<< start) - 1)).size

/-- The peers that a loop over the bits above the highest one visits. -/
def peersOf (numProcs rank : ℕ) : List ℕ :=
  let bitmap := cubeDim numProcs
  let first := hibitSucc rank bitmap
  ((List.range' first (bitmap - first)).map fun i => rank ||| (1 <<< i)).filter (· < numProcs)

structure Procs where
  isRunning : ℕ → Bool
  epoch : ℕ → ℕ

/-- The process has been started and is dead. -/
def Procs.dead (k : Procs) (vpid : ℕ) : Bool := !k.isRunning vpid && decide (0 < k.epoch vpid)

/-- What `binomial_tree` returns, the children that it appends and the bits that it sets. -/
structure Output where
  found : ℤ
  children : List Child
  bits : List ℕ

/-- The search among the children of a rank. -/
def searchLoop (k : Procs) (parent : ℕ) (visit : ℕ → Option Output) : List ℕ → Option Output
  | [] => some ⟨-1, [], []⟩
  | peer :: rest => do
      let out ← visit peer
      if 0 ≤ out.found then
        if k.dead out.found.toNat then some { out with found := parent } else some out
      else
        let others ← searchLoop k parent visit rest
        some ⟨others.found, out.children ++ others.children, out.bits ++ others.bits⟩

/-- `binomial_tree`. -/
def binomialTree (numProcs : ℕ) (k : Procs) : ℕ → ℕ → ℕ → ℕ → Bool → Option Output
  | 0, _, _, _, _ => none
  | fuel + 1, rank, parent, me, mine =>
    if me = rank then do
      let outs ← (peersOf numProcs rank).mapM fun peer => do
        if k.dead peer ∧ k.epoch peer ≠ invalid then
          let inherited ← binomialTree numProcs k fuel 0 0 peer mine
          let out ← binomialTree numProcs k fuel 0 0 peer false
          some (inherited.children ++ out.children, inherited.bits ++ out.bits)
        else
          let out ← binomialTree numProcs k fuel 0 0 peer false
          if mine then some (⟨peer, out.bits⟩ :: out.children, [])
          else some (out.children, peer :: out.bits)
      some ⟨parent, outs.flatMap (·.1), outs.flatMap (·.2)⟩
    else
      searchLoop k parent (fun peer => binomialTree numProcs k fuel peer rank me mine)
        (peersOf numProcs rank)

/-- The parent and the children of a daemon. -/
structure RoutingTree where
  parent : ℤ
  children : List Child
deriving DecidableEq

/-- The depth of the search, for each level of the tree. -/
def treeFuel (numProcs : ℕ) : ℕ := (cubeDim numProcs + 1) * (cubeDim numProcs + 1)

/-- `update_routing_tree`. There is no bitmap for the relatives of the daemon itself. -/
def updateRoutingTree (numProcs : ℕ) (k : Procs) (myVpid : ℕ) : Option RoutingTree :=
  (binomialTree numProcs k (treeFuel numProcs) 0 0 myVpid true).map fun out =>
    ⟨out.found, out.children⟩

/-- The first child that is the daemon or above it. -/
def searchChild (daemon : Name) : List Child → Option Child :=
  List.find? fun child => child.vpid = daemon.vpid ∨ daemon.vpid ∈ child.relatives

/-- The search of `get_route`, which starts over with the dead child in the place of the daemon. -/
def searchTree (numProcs : ℕ) (k : Procs) (l : Local) :
    ℕ → Name → RoutingTree → Option (Name × RoutingTree)
  | 0, _, _ => none
  | fuel + 1, daemon, tree =>
    match searchChild daemon tree.children with
    | none => some (l.withVpid daemon tree.parent.toNat, tree)
    | some child =>
      if child.vpid = daemon.vpid then some (l.withVpid daemon daemon.vpid, tree)
      else if !k.isRunning child.vpid then do
        let tree ← updateRoutingTree numProcs k l.myName.vpid
        searchTree numProcs k l fuel { daemon with vpid := child.vpid } tree
      else some (l.withVpid daemon child.vpid, tree)

/-- `get_route` and the tree that it leaves. -/
def getRoute (numProcs : ℕ) (k : Procs) (l : Local) (tree : RoutingTree) (target : Name) :
    Option (Option Name × RoutingTree) :=
  match { l with myParent := { l.myParent with vpid := tree.parent.toNat } }.lookup target with
  | .found route => some (route, tree)
  | .search daemon => (searchTree numProcs k l (numProcs + 1) daemon tree).map fun x =>
      (some x.1, x.2)

end Binomial

end Routed

end Ulfm
