import Mathlib.Data.List.Basic

/-!
# The fault-tolerant tree

The tree of an agreement is an array of nodes linked by first child and next
sibling; the index `treeSize` ends every chain. Node `i` stands for the rank
`rankInComm`, `none` once it has been removed. The builders fill the array for
the ranks that are not agreed to have failed, and `eraTreeRemoveNode` takes a
failed rank out. `eraParent` and `eraNextChild` remove the failed nodes they meet
and go on, so that the tree is repaired only where it is looked at.

Removed nodes are cleared as in a debug build. A loop over a chain carries the
number of cells it may still visit, which the callers set to the size of the
array.
-/

namespace Ulfm

/-- `era_tree_t`; `none` is the rank `-1` of a removed node. -/
structure EraNode where
  rankInComm : Option ℕ
  parent : ℕ
  nextSibling : ℕ
  firstChild : ℕ
deriving DecidableEq

structure EraTree where
  treeSize : ℕ
  node : ℕ → EraNode

namespace EraTree

variable (t : EraTree)

def modify (i : ℕ) (f : EraNode → EraNode) : EraTree :=
  { t with node := Function.update t.node i (f (t.node i)) }

def setParent (i p : ℕ) : EraTree := t.modify i fun n => { n with parent := p }

def setNextSibling (i s : ℕ) : EraTree := t.modify i fun n => { n with nextSibling := s }

def setFirstChild (i c : ℕ) : EraTree := t.modify i fun n => { n with firstChild := c }

def clear (i : ℕ) : EraTree := t.modify i fun _ =>
  { rankInComm := none, parent := t.treeSize, nextSibling := t.treeSize, firstChild := t.treeSize }

end EraTree

/-! ### Builders -/

/-- The links that a builder gives to node `m` of an array of `size` nodes. -/
abbrev TreeFn := ℕ → ℕ → ℕ × ℕ × ℕ

/-- `era_tree_fn_star`: parent, first child and next sibling of node `m`. -/
def eraTreeFnStar : TreeFn := fun size m =>
  (0, if m = 0 then 1 else size, if m = 0 then size else m + 1)

/-- `era_tree_fn_string`. -/
def eraTreeFnString : TreeFn := fun size m =>
  (if 0 < m then m - 1 else 0, m + 1, size)

/-- `era_tree_fn_binary`. -/
def eraTreeFnBinary : TreeFn := fun size m =>
  (if 0 < m then (m - 1) / 2 else 0, if 2 * m + 1 < size then 2 * m + 1 else size,
    if m % 2 ≠ 0 ∧ m + 1 < size then m + 1 else size)

/-- The builder that `mca_coll_ftbasic_agreement_era_init` selects for the
absolute value of the topology parameter. -/
def eraTreeFn (topology : Int) : TreeFn :=
  match topology.natAbs with
  | 1 => eraTreeFnBinary
  | 2 => eraTreeFnString
  | 3 => eraTreeFnStar
  | _ => eraTreeFnBinary

def EraTree.fill (f : TreeFn) (t : EraTree) : EraTree :=
  { t with node := fun m =>
      if m < t.treeSize then
        { t.node m with
          parent := (f t.treeSize m).1
          firstChild := (f t.treeSize m).2.1
          nextSibling := (f t.treeSize m).2.2 }
      else t.node m }

/-- The inner loop of `era_build_tree_structure` that steps over agreed failed
ranks: the remaining failed ranks and the offset for node `m`. -/
def skipFailed (m : ℕ) : List ℕ → ℕ → List ℕ × ℕ
  | [], offset => ([], offset)
  | d :: ds, offset =>
    if m + offset = d then skipFailed m ds (offset + 1) else (d :: ds, offset)

/-- The ranks given to the nodes `m`, `m + 1`, … of the array. -/
def rankLoop : ℕ → ℕ → List ℕ → ℕ → List ℕ
  | 0, _, _, _ => []
  | k + 1, m, afr, offset =>
    let r := skipFailed m afr offset
    (m + r.2) :: rankLoop k (m + 1) r.1 r.2

/-- The ranks of a communicator of `n` processes without the agreed failed ones,
as `era_build_tree_structure` enumerates them. -/
def treeRanks (n : ℕ) (afr : List ℕ) : List ℕ := rankLoop (n - afr.length) 0 afr 0

def EraTree.ofRanks (ranks : List ℕ) : EraTree where
  treeSize := ranks.length
  node m :=
    { rankInComm := ranks[m]?, parent := m, nextSibling := ranks.length,
      firstChild := ranks.length }

/-- Put node `m` into the group of its daemon; a daemon met for the first time
opens a group, of which `m` is the representative. -/
def addToGroup (d m : ℕ) : List (ℕ × List ℕ) → List (ℕ × List ℕ)
  | [] => [(d, [m])]
  | (e, g) :: gs => if e = d then (e, g ++ [m]) :: gs else (e, g) :: addToGroup d m gs

/-- The nodes grouped by the daemon of their rank. -/
def daemonGroups (daemon : ℕ → ℕ) (ranks : List ℕ) : List (List ℕ) :=
  (ranks.zipIdx.foldl (fun gs x => addToGroup (daemon x.1) x.2 gs) []).map Prod.snd

/-- The node at the end of the sibling chain that starts at `s`. -/
def lastSibling (t : EraTree) : ℕ → ℕ → ℕ
  | 0, s => s
  | k + 1, s =>
    if (t.node s).nextSibling = t.treeSize then s
    else lastSibling t k (t.node s).nextSibling

/-- Translate the index `i` of the tree of the group `g` to an index of the
whole tree; the end of the group becomes the end of the tree. -/
def groupIndex (size : ℕ) (g : List ℕ) (i : ℕ) : ℕ := g.getD i size

/-- Copy the tree of one group into the whole tree. -/
def copyGroup (f : TreeFn) (t : EraTree) (g : List ℕ) : EraTree :=
  (List.range g.length).foldl
    (fun t s => t.modify (g.getD s 0) fun n =>
      { n with
        parent := g.getD (f g.length s).1 0
        nextSibling := groupIndex t.treeSize g (f g.length s).2.2
        firstChild := groupIndex t.treeSize g (f g.length s).2.1 })
    t

/-- Hang the representative of group `r` into the tree of the representatives. -/
def linkGroup (f : TreeFn) (reps : List ℕ) (t : EraTree) (r : ℕ) : EraTree :=
  let size := reps.length
  let rr := reps.getD r 0
  let t := t.setParent rr (reps.getD (f size r).1 0)
  let t :=
    if (f size r).2.2 = size then t
    else
      let next := reps.getD (f size r).2.2 0
      if (t.node rr).nextSibling = t.treeSize then t.setNextSibling rr next
      else
        let s := (t.node rr).nextSibling
        let s := lastSibling t t.treeSize (t.node s).nextSibling
        t.setNextSibling s next
  if (f size r).2.1 = size then t
  else
    let next := reps.getD (f size r).2.1 0
    if (t.node rr).firstChild = t.treeSize then t.setFirstChild rr next
    else t.setNextSibling (lastSibling t t.treeSize (t.node rr).firstChild) next

/-- `era_call_tree_fn`. With a positive topology the processes of one daemon form
a subtree under the first of them, unless some process belongs to another job
(`none`). -/
def eraCallTreeFn (topology : Int) (daemon : ℕ → Option ℕ) (ranks : List ℕ) : EraTree :=
  let f := eraTreeFn topology
  let t := EraTree.ofRanks ranks
  if 0 < topology ∧ ranks.all fun r => (daemon r).isSome then
    let groups := daemonGroups (fun r => (daemon r).getD 0) ranks
    let reps := groups.map fun g => g.headD 0
    (List.range groups.length).foldl
      (fun t r => linkGroup f reps (copyGroup f t (groups.getD r [])) r) t
  else t.fill f

/-- `era_build_tree_structure` for a communicator of `n` processes with the agreed
failed ranks `afr`. -/
def eraBuildTreeStructure (topology : Int) (daemon : ℕ → Option ℕ) (n : ℕ)
    (afr : List ℕ) : EraTree :=
  eraCallTreeFn topology daemon (treeRanks n afr)

/-! ### Repair -/

/-- Search downwards from index `i` for the node of rank `r`. -/
def rankSearch (t : EraTree) (r : ℕ) : ℕ → Option ℕ
  | 0 => if (t.node 0).rankInComm = some r then some 0 else none
  | i + 1 =>
    if (t.node (i + 1)).rankInComm = some r then some (i + 1) else rankSearch t r i

/-- `era_tree_rank_from_comm_rank`; `none` is the assertion that fails when the
rank is not in the tree. -/
def eraTreeRankFromCommRank (t : EraTree) (r : ℕ) : Option ℕ :=
  rankSearch t r (if t.treeSize ≤ r then t.treeSize - 1 else r)

/-- Give the parent `p` to the chain of siblings from `c` on; the last of them
comes back with the tree. -/
def reattach (p : ℕ) : ℕ → ℕ → EraTree → ℕ × EraTree
  | 0, c, t => (c, t)
  | k + 1, c, t =>
    let t := t.setParent c p
    if (t.node c).nextSibling = t.treeSize then (c, t)
    else reattach p k (t.node c).nextSibling t

/-- The sibling right before `r` in the chain from `s` on. -/
def prevSibling (t : EraTree) (r : ℕ) : ℕ → ℕ → ℕ
  | 0, s => s
  | k + 1, s =>
    if (t.node s).nextSibling = r then s
    else prevSibling t r k (t.node s).nextSibling

/-- `era_tree_remove_node` for a node with the parent `p`: its children take its
place among the children of `p`. -/
def removeInner (t : EraTree) (r p : ℕ) : EraTree :=
  let size := t.treeSize
  let s := (t.node r).firstChild
  let ct := if s = size then (s, t) else reattach p size s t
  let c := ct.1
  let t := ct.2
  if (t.node p).firstChild = r then
    if s = size then t.setFirstChild p (t.node r).nextSibling
    else (t.setFirstChild p s).setNextSibling c (t.node r).nextSibling
  else
    let b := prevSibling t r size (t.node p).firstChild
    if s = size then t.setNextSibling b (t.node r).nextSibling
    else (t.setNextSibling b s).setNextSibling c (t.node r).nextSibling

/-- The scan of the children of a removed root from `p` on: the smallest child so
far, the last child seen and the child before the smallest. -/
def scanRoot (t : EraTree) : ℕ → ℕ → ℕ → Option ℕ → Option ℕ → ℕ × Option ℕ × Option ℕ
  | 0, _, newRoot, lastSib, prevRoot => (newRoot, lastSib, prevRoot)
  | k + 1, p, newRoot, lastSib, prevRoot =>
    if p = t.treeSize then (newRoot, lastSib, prevRoot)
    else if p < newRoot then
      scanRoot t k (t.node p).nextSibling p (some p) lastSib
    else scanRoot t k (t.node p).nextSibling newRoot (some p) prevRoot

/-- Give the parent `p` to the siblings from `c` on up to `last`. -/
def adopt (p : ℕ) (last : Option ℕ) : ℕ → ℕ → EraTree → EraTree
  | 0, _, t => t
  | k + 1, c, t =>
    if c = t.treeSize then t
    else
      let t := t.setParent c p
      if some c = last then t else adopt p last k (t.node c).nextSibling t

/-- `era_tree_remove_node` for the root: its smallest child becomes the root and
adopts the other children, which come before its own. -/
def removeRoot (t : EraTree) (r : ℕ) : EraTree :=
  let size := t.treeSize
  let first := (t.node r).firstChild
  let scan := scanRoot t size first first none none
  let newRoot := scan.1
  let prevRoot := scan.2.2
  let lastSib := if scan.2.1 = some newRoot then prevRoot else scan.2.1
  let nextRoot := (t.node newRoot).nextSibling
  let t := match prevRoot with
    | some b => t.setNextSibling b nextRoot
    | none => t
  let t := (t.setNextSibling newRoot size).setParent newRoot newRoot
  let firstChild :=
    if newRoot ≠ first then first
    else if nextRoot ≠ size then nextRoot
    else (t.node newRoot).firstChild
  if firstChild ≠ (t.node newRoot).firstChild then
    let t := match lastSib with
      | some b => t.setNextSibling b (t.node newRoot).firstChild
      | none => t
    adopt newRoot lastSib size firstChild (t.setFirstChild newRoot firstChild)
  else t

/-- `era_tree_remove_node`. -/
def eraTreeRemoveNode (t : EraTree) (r : ℕ) : EraTree :=
  let p := (t.node r).parent
  (if p ≠ r then removeInner t r p else removeRoot t r).clear r

/-- The loop of `era_parent` for the node `i`: remove failed parents until the
parent is active. -/
def parentLoop (failed : List ℕ) (i : ℕ) : ℕ → EraTree → Option (ℕ × EraTree)
  | 0, _ => none
  | k + 1, t =>
    let p := (t.node i).parent
    match (t.node p).rankInComm with
    | none => none
    | some r => if r ∈ failed then parentLoop failed i k (eraTreeRemoveNode t p) else some (r, t)

/-- `era_parent` at the process of rank `me`, with the repaired tree. -/
def eraParent (failed : List ℕ) (me : ℕ) (t : EraTree) : Option (ℕ × EraTree) := do
  let i ← eraTreeRankFromCommRank t me
  parentLoop failed i (t.treeSize + 1) t

/-- The loop of `era_next_child`: `link` reads the first child of the caller or
the next sibling of the previous child. Failed nodes found there are removed;
the inner `none` says that no child is left. -/
def childLoop (failed : List ℕ) (link : EraTree → ℕ) : ℕ → EraTree → Option (Option ℕ × EraTree)
  | 0, _ => none
  | k + 1, t =>
    let c := link t
    if c = t.treeSize then some (none, t)
    else
      match (t.node c).rankInComm with
      | none => none
      | some r =>
        if r ∈ failed then childLoop failed link k (eraTreeRemoveNode t c)
        else some (some r, t)

/-- `era_next_child` at the process of rank `me`; `none` as previous child asks
for the first one. -/
def eraNextChild (failed : List ℕ) (me : ℕ) (prev : Option ℕ) (t : EraTree) :
    Option (Option ℕ × EraTree) :=
  match prev with
  | none => do
      let i ← eraTreeRankFromCommRank t me
      childLoop failed (fun t => (t.node i).firstChild) (t.treeSize + 1) t
  | some c => do
      let i ← eraTreeRankFromCommRank t c
      childLoop failed (fun t => (t.node i).nextSibling) (t.treeSize + 1) t

/-- The loops over `era_next_child`: the children in the order of the calls, up
to the first one that fails the test `ok`; the flag says whether all passed. -/
def eraChildrenWhile (failed : List ℕ) (me : ℕ) (ok : ℕ → Bool) :
    ℕ → Option ℕ → EraTree → Option (List ℕ × Bool × EraTree)
  | 0, _, _ => none
  | k + 1, prev, t => do
      let (next, t) ← eraNextChild failed me prev t
      match next with
      | none => some ([], true, t)
      | some r =>
        if ok r then
          let (rs, all, t) ← eraChildrenWhile failed me ok k (some r) t
          some (r :: rs, all, t)
        else some ([r], false, t)

/-- All the children of `me`. -/
def eraChildren (failed : List ℕ) (me : ℕ) (t : EraTree) : Option (List ℕ × EraTree) := do
  let (rs, _, t) ← eraChildrenWhile failed me (fun _ => true) (t.treeSize + 1) none t
  some (rs, t)

end Ulfm
