import Mathlib.Algebra.BigOperators.Intervals
import Mathlib.Algebra.Order.BigOperators.Group.Finset
import Ulfm.Routed.Route

/-!
# Radix routing between daemons

The daemons are numbered level by level, and a level is `radix` times as large as the one above it.
The children of a daemon are at strides of the size of its level, and a daemon finds its parent as a
remainder by the size of the level above.

All the numbers are `int`s. A computation that leaves their range has no result.
-/

namespace Ulfm

open List Function Option

namespace Routed

namespace Radix

def addInt (a b : ℕ) : Option ℕ := if a + b < 2 ^ 31 then some (a + b) else none

def mulInt (a b : ℕ) : Option ℕ := if a * b < 2 ^ 31 then some (a * b) else none

/-- The loop that computes how many daemons are at the level of `rank`. The variables are `Sum` and
`NInLevel`. -/
def levelLoop (radix rank : ℕ) : ℕ → ℕ → ℕ → Option (ℕ × ℕ)
  | 0, _, _ => none
  | fuel + 1, sum, nInLevel =>
    if sum < rank + 1 then do
      let nInLevel ← mulInt nInLevel radix
      let sum ← addInt sum nInLevel
      levelLoop radix rank fuel sum nInLevel
    else some (sum, nInLevel)

def level (radix rank : ℕ) : Option (ℕ × ℕ) := levelLoop radix rank (rank + 1) 1 1

/-- The loop over the peers, with what is done for those that exist. -/
def peerLoop {α : Type} (numProcs nInLevel : ℕ) (body : ℕ → Option (List α)) :
    ℕ → ℕ → Option (List α)
  | 0, _ => some []
  | count + 1, peer => do
      let here ← (if peer < numProcs then body peer else some [])
      let next ← addInt peer nInLevel
      let rest ← peerLoop numProcs nInLevel body count next
      some (here ++ rest)

variable (radix numProcs : ℕ)

/-- `radix_tree` without a list of children: the bits that are set for `rank`. -/
def relatives : ℕ → ℕ → Option (List ℕ)
  | 0, _ => none
  | fuel + 1, rank => do
      let (_, nInLevel) ← level radix rank
      let peer ← addInt rank nInLevel
      peerLoop numProcs nInLevel (fun peer => (relatives fuel peer).map (peer :: ·)) radix peer

/-- `radix_tree` with a list of children. -/
def radixTree (rank : ℕ) : Option (List Child) := do
  let (_, nInLevel) ← level radix rank
  let peer ← addInt rank nInLevel
  peerLoop numProcs nInLevel
    (fun peer => (relatives radix numProcs numProcs peer).map fun rel => [⟨peer, rel⟩]) radix peer

/-- The parent and the children of a daemon. The parent of the root is `-1`. -/
structure RoutingTree where
  parent : ℤ
  children : List Child
deriving DecidableEq

/-- `update_routing_tree`. -/
def updateRoutingTree (myVpid : ℕ) : Option RoutingTree := do
  let (sum, nInLevel) ← level radix myVpid
  let sum := sum - nInLevel
  let nInPrevLevel := nInLevel / radix
  if myVpid ≠ 0 ∧ nInPrevLevel = 0 then none
  else
    let children ← radixTree radix numProcs myVpid
    some ⟨if myVpid = 0 then -1 else ((myVpid - sum) % nInPrevLevel + (sum - nInPrevLevel) : ℕ),
      children⟩

end Radix

open Nat

/-- `get_route`. -/
def Local.getRoute (l : Local) (children : List Child) (target : Name) : Option Name :=
  match l.lookup target with
  | .found route => route
  | .search daemon => some (l.searchTree daemon children)

namespace Radix

def RoutingTree.view (t : RoutingTree) : NodeView := ⟨t.parent, t.children.map (·.vpid)⟩

/-- The message for `target` goes from the daemon `a` to the daemon `b`. -/
def Hop (n : ℕ) (loc : ℕ → Local) (tree : ℕ → RoutingTree) (target : Name) (a b : ℕ) : Prop :=
  ∃ name, (loc a).getRoute (tree a).children target = some name ∧ name.vpid = b ∧ b < n

/-- The daemons compute one tree, they know who is below their children, and the routes lead to the
daemon that hosts the target. -/
structure Correct (radix n : ℕ) (tree : ℕ → RoutingTree) : Prop where
  update : ∀ v < n, updateRoutingTree radix n v = some (tree v)
  spanning : SpanningViews n 0 fun v => (tree v).view
  relatives : ∀ v < n, ∀ c ∈ (tree v).children, ∀ j,
    j ∈ c.relatives ↔ Below (fun v => ((tree v).view).next) c.vpid j
  routes : ∀ (jobid : ℕ) (loc : ℕ → Local) (target : Name) (d : ℕ), IsJob n jobid loc →
    (∀ v < n, v ≠ 0 → ((loc v).myParent.vpid : ℤ) = (tree v).parent) →
    Hosted n jobid loc target d → ∀ v < n, Relation.ReflTransGen (Hop n loc tree target) v d

section Level

variable {radix r k L : ℕ}

def levelStart (radix L : ℕ) : ℕ := ∑ i ∈ Finset.range L, radix ^ i

theorem levelStart_succ (radix L : ℕ) :
    levelStart radix (L + 1) = levelStart radix L + radix ^ L := Finset.sum_range_succ _ _

theorem levelStart_mono (radix : ℕ) (h : k ≤ L) : levelStart radix k ≤ levelStart radix L := by
  induction L, h using le_induction with
  | base => exact le_refl _
  | succ L _ ih =>
    rw [levelStart_succ]
    omega

theorem le_levelStart (hradix : 1 ≤ radix) (L : ℕ) : L ≤ levelStart radix L := by
  induction L with
  | zero => exact Nat.zero_le _
  | succ L ih =>
    have := one_le_pow L radix hradix
    rw [levelStart_succ]
    omega

/-- The rank `r` is at the level `L`. -/
def InLevel (radix L r : ℕ) : Prop := levelStart radix L ≤ r ∧ r < levelStart radix (L + 1)

theorem exists_inLevel (hradix : 1 ≤ radix) (r : ℕ) : ∃ L, InLevel radix L r := by
  have hex : ∃ L, r < levelStart radix L := ⟨r + 1, le_levelStart hradix (r + 1)⟩
  have hspec := Nat.find_spec hex
  have hne : Nat.find hex ≠ 0 := by
    intro hzero
    rw [hzero] at hspec
    exact absurd hspec (Nat.not_lt_zero r)
  refine ⟨Nat.find hex - 1, not_lt.1 (Nat.find_min hex (by omega)), ?_⟩
  rwa [Nat.sub_add_cancel (by omega)]

theorem InLevel.unique (h : InLevel radix L r) {L' : ℕ} (h' : InLevel radix L' r) : L = L' := by
  rcases lt_trichotomy L L' with hlt | heq | hgt
  · have := levelStart_mono radix (show L + 1 ≤ L' from hlt)
    have := h.2
    have := h'.1
    omega
  · exact heq
  · have := levelStart_mono radix (show L' + 1 ≤ L from hgt)
    have := h.1
    have := h'.2
    omega

theorem InLevel.sum_lt_iff (h : InLevel radix L r) (hk : k ≤ L) :
    levelStart radix (k + 1) < r + 1 ↔ k < L := by
  constructor
  · intro hlt
    by_contra hge
    obtain rfl : k = L := by omega
    have := h.2
    omega
  · intro hlt
    have := levelStart_mono radix (show k + 1 ≤ L from hlt)
    have := h.1
    omega

theorem InLevel.levelLoop_eq (h : InLevel radix L r) (hradix : 1 ≤ radix) (k fuel : ℕ) (hk : k ≤ L)
    (hfuel : L < k + fuel) (hint : r + radix ^ L < 2 ^ 31) :
    levelLoop radix r fuel (levelStart radix (k + 1)) (radix ^ k) =
      some (levelStart radix (L + 1), radix ^ L) := by
  induction fuel generalizing k with
  | zero => omega
  | succ fuel ih =>
    rw [levelLoop]
    by_cases hlt : k < L
    · have hpow : radix ^ (k + 1) ≤ radix ^ L := Nat.pow_le_pow_right hradix hlt
      have hsum := levelStart_mono radix (show k + 1 + 1 ≤ L + 1 by omega)
      have hstart := levelStart_succ radix L
      have hmul : mulInt (radix ^ k) radix = some (radix ^ (k + 1)) := by
        rw [mulInt, ← pow_succ, if_pos (by omega)]
      have hadd : addInt (levelStart radix (k + 1)) (radix ^ (k + 1)) =
          some (levelStart radix (k + 1 + 1)) := by
        have := h.1
        rw [addInt, ← levelStart_succ, if_pos (by omega)]
      rw [if_pos ((h.sum_lt_iff hk).2 hlt), hmul]
      simp only [bind_eq_bind, bind_some]
      rw [hadd]
      exact ih (k + 1) hlt (by omega)
    · obtain rfl : k = L := by omega
      rw [if_neg (fun hs => hlt ((h.sum_lt_iff hk).1 hs))]

theorem InLevel.levelLoop_some (h : InLevel radix L r) (k fuel : ℕ) (hk : k ≤ L) {x : ℕ × ℕ}
    (hloop : levelLoop radix r fuel (levelStart radix (k + 1)) (radix ^ k) = some x) :
    x.2 = radix ^ L := by
  induction fuel generalizing k with
  | zero => cases hloop
  | succ fuel ih =>
    rw [levelLoop] at hloop
    by_cases hlt : k < L
    · rw [if_pos ((h.sum_lt_iff hk).2 hlt)] at hloop
      obtain ⟨m, hm, hloop⟩ := bind_eq_some_iff.1 hloop
      obtain ⟨s, hs, hloop⟩ := bind_eq_some_iff.1 hloop
      rw [mulInt, ← pow_succ, ite_none_right_eq_some] at hm
      obtain rfl := Option.some.inj hm.2
      rw [addInt, ← levelStart_succ, ite_none_right_eq_some] at hs
      obtain rfl := Option.some.inj hs.2
      exact ih (k + 1) hlt hloop
    · rw [if_neg (fun hs => hlt ((h.sum_lt_iff hk).1 hs))] at hloop
      obtain rfl : k = L := by omega
      obtain rfl := Option.some.inj hloop
      rfl

theorem levelStart_one : levelStart radix 1 = 1 := by
  rw [levelStart_succ, pow_zero]
  rfl

theorem InLevel.level_eq (h : InLevel radix L r) (hradix : 1 ≤ radix)
    (hint : r + radix ^ L < 2 ^ 31) :
    level radix r = some (levelStart radix (L + 1), radix ^ L) := by
  have hL : L ≤ r := (le_levelStart hradix L).trans h.1
  have hloop := h.levelLoop_eq hradix 0 (r + 1) (Nat.zero_le L) (by omega) hint
  rwa [Nat.zero_add, levelStart_one, pow_zero] at hloop

theorem InLevel.level_some (h : InLevel radix L r) {x : ℕ × ℕ} (hx : level radix r = some x) :
    x.2 = radix ^ L := by
  refine h.levelLoop_some 0 (r + 1) (Nat.zero_le L) ?_
  rwa [Nat.zero_add, levelStart_one, pow_zero]

end Level

section Tree

variable {radix n r c L : ℕ}

/-- No product and no sum leaves the range of `int`: a level that is not empty is followed by one
that could be filled. -/
def Fits (radix n : ℕ) : Prop :=
  ∀ L, levelStart radix L < n → n - 1 + radix ^ L * (radix + 1) < 2 ^ 31

theorem Fits.lt (h : Fits radix n) (hr : r < n) (hL : InLevel radix L r) :
    r + radix ^ L * (radix + 1) < 2 ^ 31 := by
  have := h L (hL.1.trans_lt hr)
  omega

theorem Fits.level_eq (h : Fits radix n) (hradix : 1 ≤ radix) (hr : r < n)
    (hL : InLevel radix L r) : level radix r = some (levelStart radix (L + 1), radix ^ L) := by
  have hlt := h.lt hr hL
  rw [mul_add, mul_one] at hlt
  exact hL.level_eq hradix (by omega)

/-- The parent of a rank at the level `L + 1`. -/
def parentOf (radix c : ℕ) : ℕ :=
  match level radix c with
  | none => 0
  | some (sum, nInLevel) =>
    (c - (sum - nInLevel)) % (nInLevel / radix) + (sum - nInLevel - nInLevel / radix)

def peers (radix n r : ℕ) : List ℕ :=
  match level radix r with
  | none => []
  | some (_, nInLevel) => ((range radix).map fun i => r + nInLevel + i * nInLevel).filter (· < n)

theorem Fits.parentOf_eq (h : Fits radix n) (hradix : 1 ≤ radix) (hc : c < n)
    (hL : InLevel radix (L + 1) c) :
    parentOf radix c = (c - levelStart radix (L + 1)) % radix ^ L + levelStart radix L := by
  have hstart := levelStart_succ radix L
  have hnext := levelStart_succ radix (L + 1)
  rw [parentOf, h.level_eq hradix hc hL]
  simp only
  rw [show levelStart radix (L + 1 + 1) - radix ^ (L + 1) = levelStart radix (L + 1) by omega,
    pow_succ, Nat.mul_div_cancel _ hradix, show levelStart radix (L + 1) - radix ^ L =
      levelStart radix L by omega]

theorem exists_inLevel_succ (hradix : 1 ≤ radix) (hc : 0 < c) : ∃ L, InLevel radix (L + 1) c := by
  obtain ⟨L, hL⟩ := exists_inLevel hradix c
  cases L with
  | zero =>
    have := hL.2
    rw [Nat.zero_add, levelStart_one] at this
    omega
  | succ L => exact ⟨L, hL⟩

theorem Fits.virtualTree (h : Fits radix n) (hradix : 1 ≤ radix) :
    VirtualTree n (parentOf radix) (peers radix n) := by
  have hparent {c L : ℕ} (hc : c < n) (hL : InLevel radix (L + 1) c) :
      InLevel radix L (parentOf radix c) ∧ parentOf radix c < c := by
    have hstart := levelStart_succ radix L
    have hmod := mod_lt (c - levelStart radix (L + 1)) (Nat.pow_pos hradix : 0 < radix ^ L)
    have hle := hL.1
    rw [h.parentOf_eq hradix hc hL]
    generalize (c - levelStart radix (L + 1)) % radix ^ L = m at hmod ⊢
    refine ⟨⟨?_, ?_⟩, ?_⟩
    · omega
    · omega
    · omega
  refine ⟨fun {c} hpos hc => ?_, fun {p c} hp => ?_, fun {p} hp => ?_⟩
  · obtain ⟨L, hL⟩ := exists_inLevel_succ hradix hpos
    exact (hparent hc hL).2
  · obtain ⟨L, hL⟩ := exists_inLevel hradix p
    have hpow : 0 < radix ^ L := Nat.pow_pos hradix
    have hstart := levelStart_succ radix L
    have hnext := levelStart_succ radix (L + 1)
    have hpsucc : radix ^ (L + 1) = radix ^ L * radix := pow_succ _ _
    rw [peers, h.level_eq hradix hp hL]
    simp only [mem_filter, List.mem_map, mem_range, decide_eq_true_eq]
    constructor
    · rintro ⟨⟨i, hi, rfl⟩, hc⟩
      have hmul : (i + 1) * radix ^ L ≤ radix * radix ^ L := Nat.mul_le_mul_right _ hi
      rw [succ_mul, Nat.mul_comm radix] at hmul
      have hlow := hL.1
      have hhigh := hL.2
      have hlevel : InLevel radix (L + 1) (p + radix ^ L + i * radix ^ L) := ⟨by omega, by omega⟩
      refine ⟨by omega, hc, ?_⟩
      rw [h.parentOf_eq hradix hc hlevel, show p + radix ^ L + i * radix ^ L -
        levelStart radix (L + 1) = p - levelStart radix L + i * radix ^ L by omega,
        add_mul_mod_self_right, mod_eq_of_lt (by omega)]
      omega
    · rintro ⟨hpos, hc, rfl⟩
      obtain ⟨L', hL'⟩ := exists_inLevel_succ hradix hpos
      obtain rfl : L' = L := (hparent hc hL').1.unique hL
      set y := c - levelStart radix (L' + 1) with hy
      have hlow := hL'.1
      have hhigh := hL'.2
      have hdiv := div_add_mod y (radix ^ L')
      refine ⟨⟨y / radix ^ L', ?_, ?_⟩, hc⟩
      · exact Nat.div_lt_of_lt_mul (by omega)
      · rw [h.parentOf_eq hradix hc hL', ← hy, Nat.mul_comm (y / radix ^ L')]
        omega
  · obtain ⟨L, hL⟩ := exists_inLevel hradix p
    have hpow : 0 < radix ^ L := Nat.pow_pos hradix
    rw [peers, h.level_eq hradix hp hL]
    refine List.Nodup.filter _ (List.Nodup.map (fun i j hij => ?_) nodup_range)
    have hij' : i * radix ^ L = j * radix ^ L := by
      omega
    exact eq_of_mul_eq_mul_right hpow hij'

end Tree

section Loop

variable {radix n r L : ℕ} {α : Type} {body : ℕ → Option (List α)}

theorem peerLoop_eq {nInLevel : ℕ} {f : ℕ → List α} (count peer : ℕ)
    (hint : peer + count * nInLevel < 2 ^ 31)
    (hbody : ∀ i < count, peer + i * nInLevel < n →
      body (peer + i * nInLevel) = some (f (peer + i * nInLevel))) :
    peerLoop n nInLevel body count peer =
      some ((((range count).map fun i => peer + i * nInLevel).filter (· < n)).flatMap f) := by
  induction count generalizing peer with
  | zero => rfl
  | succ count ih =>
    rw [succ_mul] at hint
    have hnext (i : ℕ) : peer + nInLevel + i * nInLevel = peer + (i + 1) * nInLevel := by
      rw [succ_mul]
      omega
    have hadd : addInt peer nInLevel = some (peer + nInLevel) := by
      rw [addInt, if_pos]
      have := Nat.zero_le (count * nInLevel)
      omega
    have hrest := ih (peer + nInLevel) (by omega) fun i hi hlt => by
      rw [hnext] at hlt ⊢
      exact hbody (i + 1) (by omega) hlt
    have hhere : (if peer < n then body peer else some []) =
        some (if peer < n then f peer else []) := by
      split_ifs with hlt
      · have := hbody 0 (by omega)
        rw [Nat.zero_mul, Nat.add_zero] at this
        exact this hlt
      · rfl
    rw [peerLoop, hhere]
    simp only [bind_eq_bind, bind_some]
    rw [hadd]
    simp only [bind_some]
    rw [hrest]
    simp only [bind_some, range_succ_eq_map, map_cons, List.map_map,
      comp_def, Nat.zero_mul, Nat.add_zero, succ_eq_add_one, ← hnext]
    rw [filter_cons]
    by_cases hlt : peer < n
    · simp only [hlt, decide_true, if_true, flatMap_cons]
    · simp only [hlt, decide_false, if_false, nil_append, Bool.false_eq_true]

theorem peerLoop_lt {nInLevel : ℕ} {l : List α} (count peer : ℕ) (hpeer : peer < 2 ^ 31)
    (h : peerLoop n nInLevel body count peer = some l) : peer + count * nInLevel < 2 ^ 31 := by
  induction count generalizing peer l with
  | zero =>
    rw [Nat.zero_mul]
    exact hpeer
  | succ count ih =>
    rw [peerLoop] at h
    obtain ⟨here, -, h⟩ := bind_eq_some_iff.1 h
    obtain ⟨next, hnext, h⟩ := bind_eq_some_iff.1 h
    obtain ⟨rest, hrest, -⟩ := bind_eq_some_iff.1 h
    rw [addInt, ite_none_right_eq_some] at hnext
    obtain rfl := Option.some.inj hnext.2
    have := ih _ hnext.1 hrest
    rw [succ_mul]
    omega

theorem Fits.addInt_eq (h : Fits radix n) (hr : r < n) (hL : InLevel radix L r) :
    addInt r (radix ^ L) = some (r + radix ^ L) := by
  have hlt := h.lt hr hL
  rw [mul_add, mul_one] at hlt
  rw [addInt, if_pos]
  have := Nat.zero_le (radix ^ L * radix)
  omega

theorem Fits.peerLoop_eq (h : Fits radix n) (hradix : 1 ≤ radix) (hr : r < n)
    (hL : InLevel radix L r) {f : ℕ → List α}
    (hbody : ∀ c ∈ peers radix n r, body c = some (f c)) :
    peerLoop n (radix ^ L) body radix (r + radix ^ L) = some ((peers radix n r).flatMap f) := by
  have hlt := h.lt hr hL
  rw [mul_add, mul_one, Nat.mul_comm] at hlt
  have hpeers : peers radix n r = ((List.range radix).map fun i =>
      r + radix ^ L + i * radix ^ L).filter (· < n) := by
    rw [peers, h.level_eq hradix hr hL]
  rw [hpeers] at hbody ⊢
  refine Radix.peerLoop_eq radix _ (by omega) fun i hi hlt => hbody _ ?_
  simp only [mem_filter, List.mem_map, mem_range, decide_eq_true_eq]
  exact ⟨⟨i, hi, rfl⟩, hlt⟩

theorem Fits.relatives_eq (h : Fits radix n) (hradix : 1 ≤ radix) (fuel r : ℕ) (hr : r < n)
    (hfuel : n - r ≤ fuel) : ∃ rel, relatives radix n fuel r = some rel ∧
      ∀ j, j ∈ rel ↔ Below (peers radix n) r j := by
  induction fuel generalizing r with
  | zero => omega
  | succ fuel ih =>
    obtain ⟨L, hL⟩ := exists_inLevel hradix r
    have htree := (h.virtualTree hradix).liveTree (by omega)
    have hpeer : ∀ c ∈ peers radix n r, ∃ rel, relatives radix n fuel c = some rel ∧
        ∀ j, j ∈ rel ↔ Below (peers radix n) c j := fun c hc => by
      have hlt := htree.lt_child hr hc
      exact ih c (htree.child_live hr hc) (by omega)
    choose! rel hrel hmem using hpeer
    refine ⟨(peers radix n r).flatMap fun c => c :: rel c, ?_, fun j => ?_⟩
    · rw [relatives, h.level_eq hradix hr hL]
      simp only [bind_eq_bind, bind_some]
      rw [h.addInt_eq hr hL]
      simp only [bind_some]
      refine h.peerLoop_eq hradix hr hL fun c hc => ?_
      rw [hrel c hc]
      rfl
    · rw [mem_flatMap, below_iff]
      refine exists_congr fun c => and_congr_right fun hc => ?_
      rw [mem_cons, hmem c hc]

end Loop

section Correct

variable {radix n : ℕ}

theorem Fits.update_eq (h : Fits radix n) (hradix : 1 ≤ radix) : ∃ rel : ℕ → List ℕ,
    (∀ c < n, ∀ j, j ∈ rel c ↔ Below (peers radix n) c j) ∧
    ∀ v < n, updateRoutingTree radix n v = some ⟨if v = 0 then -1 else (parentOf radix v : ℕ),
      (peers radix n v).map fun c => ⟨c, rel c⟩⟩ := by
  have hrel : ∀ c < n, ∃ rel, relatives radix n n c = some rel ∧
      ∀ j, j ∈ rel ↔ Below (peers radix n) c j := fun c hc =>
    h.relatives_eq hradix n c hc (sub_le n c)
  choose! rel hrel hmem using hrel
  refine ⟨rel, hmem, fun v hv => ?_⟩
  obtain ⟨L, hL⟩ := exists_inLevel hradix v
  have htree := (h.virtualTree hradix).liveTree (by omega)
  have hchildren : radixTree radix n v = some ((peers radix n v).map fun c => ⟨c, rel c⟩) := by
    rw [radixTree, h.level_eq hradix hv hL]
    simp only [bind_eq_bind, bind_some]
    rw [h.addInt_eq hv hL]
    simp only [bind_some]
    rw [map_eq_flatMap]
    refine h.peerLoop_eq hradix hv hL fun c hc => ?_
    rw [hrel c (htree.child_live hv hc)]
    rfl
  have hprev : ¬(v ≠ 0 ∧ radix ^ L / radix = 0) := by
    rintro ⟨hne, hzero⟩
    obtain ⟨L', hL'⟩ := exists_inLevel_succ hradix (Nat.pos_of_ne_zero hne)
    obtain rfl := hL.unique hL'
    rw [pow_succ, Nat.mul_div_cancel _ hradix] at hzero
    exact (Nat.pow_pos hradix : 0 < radix ^ L').ne' hzero
  rw [updateRoutingTree, parentOf, h.level_eq hradix hv hL]
  simp only [bind_eq_bind, bind_some]
  rw [if_neg hprev, hchildren]
  rfl

theorem Fits.routes (h : Fits radix n) (hradix : 1 ≤ radix) {rel : ℕ → List ℕ}
    (hrel : ∀ c < n, ∀ j, j ∈ rel c ↔ Below (peers radix n) c j) {tree : ℕ → RoutingTree}
    (htree : ∀ v, tree v = ⟨if v = 0 then -1 else (parentOf radix v : ℕ),
      (peers radix n v).map fun c => ⟨c, rel c⟩⟩) {jobid d v : ℕ} {loc : ℕ → Local}
    {target : Name} (hjob : IsJob n jobid loc)
    (hparent : ∀ v < n, v ≠ 0 → ((loc v).myParent.vpid : ℤ) = (tree v).parent)
    (hosted : Hosted n jobid loc target d) (hv : v < n) :
    Relation.ReflTransGen (Hop n loc tree target) v d := by
  have hlive := (h.virtualTree hradix).liveTree (show 0 < n by omega)
  have hparent' (v : ℕ) (hv : v < n) (hne : v ≠ 0) : (loc v).myParent.vpid = parentOf radix v := by
    have heq := hparent v hv hne
    rw [htree, if_neg hne] at heq
    exact Int.ofNat_inj.1 heq
  suffices hroutes : LiveTree.Routes (· < n) (parentOf radix) (peers radix n) d
      (Hop n loc tree target) fun _ => False by
    obtain ⟨w, hpath, rfl | ⟨-, hfalse⟩⟩ := hlive.reaches hroutes hosted.lt hv
    · exact hpath
    · exact hfalse.elim
  intro v hv hne
  have hhop {name : Name} {b : ℕ} (hname : (loc v).getRoute (tree v).children target = some name)
      (hvpid : name.vpid = b) (hb : b < n) : Hop n loc tree target v b := ⟨name, hname, hvpid, hb⟩
  rw [Local.getRoute, hjob.lookup_eq hosted hv, if_neg hne] at hhop
  by_cases hhnp : (loc v).myHnp = target
  · obtain rfl : 0 = d := by
      rw [← hosted.self (by rw [← hhnp, (hjob.hnp_eq v hv).1]), ← hhnp, (hjob.hnp_eq v hv).2]
    rw [if_pos hhnp] at hhop
    refine .inr (.inl ⟨fun hbelow => ?_, ?_⟩)
    · exact absurd (hlive.live_of_below hv hbelow).2 (Nat.not_lt_zero v)
    · split_ifs at hhop
      · exact .inl (hhop rfl (hparent' v hv hne) (hlive.parent_live hv hne))
      · exact .inr (hhop rfl (hjob.hnp_eq v hv).2 hosted.lt)
  · rw [if_neg hhnp, htree] at hhop
    rcases (loc v).searchTree_cases ⟨jobid, d, (loc v).myDaemon.epoch⟩
      ((peers radix n v).map fun c => ⟨c, rel c⟩) with ⟨c, hc, hcases, hvpid⟩ | ⟨hnone, hvpid⟩
    · obtain ⟨c', hc', rfl⟩ := List.mem_map.1 hc
      have hlt := hlive.child_live hv hc'
      refine .inl ⟨c', hc', ?_, hhop rfl hvpid hlt⟩
      rwa [← hrel c' hlt]
    · have hbelow : ¬Below (peers radix n) v d := by
        rw [below_iff]
        rintro ⟨c, hc, hcd⟩
        have hc' := hnone ⟨c, rel c⟩ (List.mem_map.2 ⟨c, hc, rfl⟩)
        rcases hcd with rfl | hcd
        · exact hc'.1 rfl
        · exact hc'.2 ((hrel c (hlive.child_live hv hc) d).2 hcd)
      have hzero : v ≠ 0 := by
        rintro rfl
        exact hbelow (hlive.below_zero hosted.lt (Ne.symm hne))
      exact .inr (.inl ⟨hbelow, .inl (hhop rfl (hvpid.trans (hparent' v hv hzero))
        (hlive.parent_live hv hzero))⟩)

theorem Correct.fits {tree : ℕ → RoutingTree} (h : Correct radix n tree) (hradix : 1 ≤ radix)
    (hn : 0 < n) : Fits radix n := by
  intro L hL
  obtain ⟨L', hL'⟩ := exists_inLevel hradix (n - 1)
  have hle : L ≤ L' := by
    by_contra hlt
    have := levelStart_mono radix (show L' + 1 ≤ L by omega)
    have := hL'.2
    omega
  have hpow : radix ^ L ≤ radix ^ L' := Nat.pow_le_pow_right hradix hle
  have hupdate := h.update (n - 1) (by omega)
  rw [updateRoutingTree] at hupdate
  obtain ⟨⟨s, m⟩, hlevel, hupdate⟩ := bind_eq_some_iff.1 hupdate
  simp only [bind_eq_bind, ite_none_left_eq_some] at hupdate
  obtain ⟨cs, hcs, -⟩ := bind_eq_some_iff.1 hupdate.2
  rw [radixTree, hlevel] at hcs
  simp only [bind_eq_bind, bind_some] at hcs
  obtain ⟨peer, hpeer, hloop⟩ := bind_eq_some_iff.1 hcs
  rw [addInt, ite_none_right_eq_some] at hpeer
  obtain rfl := Option.some.inj hpeer.2
  have hlt := peerLoop_lt radix _ hpeer.1 hloop
  rw [show m = radix ^ L' from hL'.level_some hlevel, Nat.mul_comm] at hlt
  have hmul := Nat.mul_le_mul_right (radix + 1) hpow
  rw [mul_add (radix ^ L'), mul_one] at hmul
  omega

/-- The daemons compute one tree and reach each other exactly when the products and sums are
`int`s. -/
theorem radix_correct (hradix : 1 ≤ radix) (hn : 0 < n) :
    (∃ tree, Correct radix n tree) ↔ Fits radix n := by
  constructor
  · rintro ⟨tree, h⟩
    exact h.fits hradix hn
  · intro h
    obtain ⟨rel, hrel, hupdate⟩ := h.update_eq hradix
    have hlive := (h.virtualTree hradix).liveTree hn
    refine ⟨_, hupdate, ?_, fun v hv c hc j => ?_,
      fun jobid loc target d hjob hparent hosted v hv =>
      h.routes hradix hrel (fun _ => rfl) hjob hparent hosted hv⟩
    · refine (h.virtualTree hradix).spanningViews_zero hn (fun v _ => ?_) fun v _ hne => ?_
      · simp only [RoutingTree.view, List.map_map, comp_def, List.map_id']
      · simp only [RoutingTree.view, hne, if_false]
    · obtain ⟨c', hc', rfl⟩ := List.mem_map.1 hc
      have hview : (fun v => (RoutingTree.view ⟨if v = 0 then -1 else (parentOf radix v : ℕ),
          (peers radix n v).map fun c => ⟨c, rel c⟩⟩).next) = peers radix n := by
        funext v
        simp only [RoutingTree.view, List.map_map, comp_def, List.map_id']
      rw [hview]
      exact hrel c' (hlive.child_live hv hc') j

theorem radix_correct_binary : ∃ tree, Correct 2 7 tree := by
  refine (radix_correct (by decide) (by decide)).2 fun L hL => ?_
  have hlt : L < 7 := (le_levelStart (by decide) L).trans_lt hL
  have hbound : ∀ L < 7, levelStart 2 L < 7 → 7 - 1 + 2 ^ L * (2 + 1) < 2 ^ 31 := by decide
  exact hbound L hlt hL

/-- With the default radix the seventh level has `2 ^ 30` places, and the second child of its first
daemon has a negative number. -/
theorem not_correct_default : ¬∃ tree, Correct 32 34636834 tree := by
  rintro ⟨tree, h⟩
  have hfits := h.fits (by decide) (by decide) 6 (by decide)
  exact absurd hfits (by decide)

end Correct

end Radix

end Routed

end Ulfm
