import Ulfm.Comm.Split
import Ulfm.Foundation.Selection
import Ulfm.Topo.Coordinates

/-!
# Cartesian sub-grids

`mca_topo_base_cart_sub` splits a Cartesian communicator by the number that the dropped
coordinates of a process make, ordered by the number of the retained ones. The topology that
the split has copied is then overwritten, except for the periods.
-/

namespace Ulfm

open List Option ProcGroup SplitCall Nat

namespace Topo

/-- What the loop of `mca_topo_base_cart_sub` computes. -/
structure SubLoop where
  colour : ℕ
  key : ℕ
  colfactor : ℕ
  keyfactor : ℕ
  ndim : ℕ
deriving DecidableEq

/-- The loop of `mca_topo_base_cart_sub`, from the last dimension to the first one. -/
def subLoop (dims coords : List ℕ) (remainDims : List Bool) : SubLoop :=
  (dims.zip (coords.zip remainDims)).foldr
    (fun (dim, c, r) s =>
      if r = false then
        { s with colour := s.colour + s.colfactor * c, colfactor := s.colfactor * dim }
      else
        { s with
          ndim := s.ndim + 1
          key := s.key + s.keyfactor * c
          keyfactor := s.keyfactor * dim })
    ⟨0, 0, 1, 1, 0⟩

/-- The loop on the topology of a communicator. -/
def subOf (topo : TopoComm) (remainDims : List Bool) : SubLoop :=
  subLoop (topo.dimsOrIndex.take topo.ndimsOrNnodes) (topo.coords.take topo.ndimsOrNnodes)
    remainDims

/-- The colour for the split. Without a retained dimension every process is alone. -/
def subColour (myRank : ℤ) (s : SubLoop) : ℤ := if s.ndim = 0 then myRank else s.colour

def overwrite {α : Type} (array values : List α) : List α := values ++ array.drop values.length

def fillTopo (topo : TopoComm) (remainDims : List Bool) (ndim size rank : ℕ)
    (newTopo : TopoComm) : TopoComm :=
  if 1 ≤ ndim then
    let dims := topo.dimsOrIndex.take topo.ndimsOrNnodes
    let dims := overwrite newTopo.dimsOrIndex (((dims.zip remainDims).filter (·.2)).map (·.1))
    { newTopo with
      ndimsOrNnodes := ndim
      dimsOrIndex := dims
      coords := overwrite newTopo.coords (cartCoords size (dims.take ndim) rank ndim) }
  else { newTopo with ndimsOrNnodes := ndim }

/-- `mca_topo_base_cart_sub`, with the results of the allgather of the split. -/
def cartSub {P : Type} [DecidableEq P] (sparse : Bool) (heap : Heap) (comm : Comm P)
    (remainDims : List Bool) (results : List (ℤ × ℤ)) : Option (Option (Comm P)) := do
  let topo ← comm.topo
  let s := subOf topo remainDims
  let tempComm ← commSplit sparse heap comm (subColour comm.myRank s) results [] true
  match tempComm with
  | none => some none
  | some tempComm => do
      let newTopo ← tempComm.topo
      let newTopo := fillTopo topo remainDims s.ndim tempComm.localGroup.procCount
        tempComm.myRank.toNat newTopo
      some (some { tempComm with topo := some newTopo })

section Lists

variable {dims coords : List ℕ} {remainDims : List Bool}

theorem subLoop_eq (hcoords : coords.length = dims.length)
    (hremain : remainDims.length = dims.length) :
    subLoop dims coords remainDims =
      ⟨mixedValue (chosen false remainDims dims) (chosen false remainDims coords),
        mixedValue (chosen true remainDims dims) (chosen true remainDims coords),
        (chosen false remainDims dims).prod, (chosen true remainDims dims).prod,
        (chosen true remainDims dims).length⟩ := by
  induction dims generalizing coords remainDims with
  | nil =>
    obtain rfl := eq_nil_of_length_eq_zero hremain
    rfl
  | cons d dims ih =>
    cases coords with
    | nil => exact nomatch hcoords
    | cons c coords =>
      cases remainDims with
      | nil => exact nomatch hremain
      | cons r remainDims =>
        have hrest := ih (succ.inj hcoords) (succ.inj hremain)
        rw [subLoop] at hrest ⊢
        rw [zip_cons_cons, zip_cons_cons, foldr_cons, hrest]
        cases r with
        | false =>
          simp only [chosen, if_true, if_false, mixedValue, prod_cons, Bool.false_eq_true]
          rw [Nat.add_comm, Nat.mul_comm _ c, Nat.mul_comm _ d]
        | true =>
          simp only [chosen, if_true, if_false, mixedValue, prod_cons,
            Bool.true_eq_false, length_cons]
          rw [Nat.add_comm (mixedValue _ _), Nat.mul_comm _ c, Nat.mul_comm _ d]

theorem chosen_false_eq {α : Type} {bs : List Bool} {xs : List α} (hlength : xs.length = bs.length)
    (h : chosen true bs xs = []) : chosen false bs xs = xs := by
  induction bs generalizing xs with
  | nil => exact (eq_nil_of_length_eq_zero hlength).symm
  | cons b bs ih =>
    cases xs with
    | nil => exact nomatch hlength
    | cons x xs =>
      cases b with
      | true => exact nomatch h
      | false => exact congrArg (x :: ·) (ih (succ.inj hlength) h)

theorem take_overwrite {α : Type} {array values : List α} {n : ℕ} (h : values.length = n) :
    (overwrite array values).take n = values := by
  rw [overwrite, take_append_of_le_length h.ge, ← h, take_length]

end Lists

/-- The topology is that of a grid, at the process with the given coordinates. -/
structure GridTopo (topo : TopoComm) (dims : List ℕ) (periods : List ℤ) (coords : List ℕ) :
    Prop where
  cart : topo.cart = true
  ndims : topo.ndimsOrNnodes = dims.length
  dims : topo.dimsOrIndex.take topo.ndimsOrNnodes = dims
  periods : topo.periodsOrEdges.take topo.ndimsOrNnodes = periods
  coords : topo.coords.take topo.ndimsOrNnodes = coords

theorem copyTopo_cart {topo : TopoComm} (hcart : topo.cart = true) :
    copyTopo topo = some { topo with
      dimsOrIndex := topo.dimsOrIndex.take topo.ndimsOrNnodes
      periodsOrEdges := topo.periodsOrEdges.take topo.ndimsOrNnodes
      coords := topo.coords.take topo.ndimsOrNnodes } := by
  rw [copyTopo]
  by_cases hn : topo.ndimsOrNnodes = 0
  · rw [if_pos ⟨hcart, hn⟩, hn, take_zero, take_zero, take_zero, ← hn]
  · rw [if_neg fun h => hn h.2, if_pos hcart]

end Topo

/-- A call of `mca_topo_base_cart_sub` by all processes of a grid. -/
structure CartSubCall (P : Type) [DecidableEq P] where
  group : ProcGroup P
  dims : List ℕ
  dimsPos : ∀ d ∈ dims, 0 < d
  sizeEq : group.size = dims.prod
  periods : List ℤ
  remainDims : List Bool
  remainLength : remainDims.length = dims.length
  comm : P → Comm P
  topo : P → TopoComm
  sparse : P → Bool
  heap : P → Heap
  localGroup : ∀ p ∈ group, Denotes p (comm p).localGroup group
  myRank : ∀ p ∈ group, (comm p).myRank = (comm p).localGroup.myRank
  intra : ∀ p ∈ group, (comm p).inter = false
  fresh : ∀ p ∈ group, Fresh (comm p).localGroup (heap p).lptr
  hasTopo : ∀ p ∈ group, (comm p).topo = some (topo p)
  gridTopo : ∀ p ∈ group, Topo.GridTopo (topo p) dims periods
    (Topo.cartCoords dims.prod dims (group.procs.idxOf p) dims.length)

namespace CartSubCall

open Topo

variable {P : Type} [DecidableEq P] (call : CartSubCall P) {p q : P} {r v : ℕ}

def coords (p : P) : List ℕ :=
  cartCoords call.dims.prod call.dims (call.group.procs.idxOf p) call.dims.length

def split : SplitCall P where
  inter := false
  side b := if b then ProcGroup.empty else call.group
  apart _ _ := ProcGroup.not_mem_empty _
  intra _ := rfl
  occupied := nofun
  comm := call.comm
  localGroup := by
    rintro (_ | _) p hp
    · exact call.localGroup p hp
    · exact absurd hp (ProcGroup.not_mem_empty p)
  remoteGroup := nofun
  interFlag := by
    rintro (_ | _) p hp
    · exact call.intra p hp
    · exact absurd hp (ProcGroup.not_mem_empty p)
  topoCopied := by
    rintro (_ | _) p hp t ht
    · obtain rfl := some.inj ((call.hasTopo p hp).symm.trans ht)
      rw [copyTopo_cart (call.gridTopo p hp).cart]
      rfl
    · exact absurd hp (ProcGroup.not_mem_empty p)
  sparse := call.sparse
  heap := call.heap
  localFresh := by
    rintro (_ | _) p hp
    · exact call.fresh p hp
    · exact absurd hp (ProcGroup.not_mem_empty p)
  remoteFresh := nofun
  color p := subColour (call.comm p).myRank (subOf (call.topo p) call.remainDims)
  key p := (subOf (call.topo p) call.remainDims).key
  passOnTopo := true

def result (p : P) : Option (Option (Comm P)) :=
  cartSub (call.sparse p) (call.heap p) (call.comm p) call.remainDims (call.split.infos false)

/-- The dimensions, periods or coordinates that are retained. -/
def retained {α : Type} (xs : List α) : List α := chosen true call.remainDims xs

def dropped {α : Type} (xs : List α) : List α := chosen false call.remainDims xs

/-- The communicator is the sub-grid of the process `p`, with the given periods. -/
structure SubGrid (p : P) (periods : List ℤ) (c : Comm P) (m : ProcGroup P) (t : TopoComm) :
    Prop where
  intra : c.inter = false
  group : Denotes p c.localGroup m
  myRank : c.myRank = rankOf p m.procs
  mem : ∀ q, q ∈ m ↔ q ∈ call.group ∧ call.dropped (call.coords q) = call.dropped (call.coords p)
  coords : ∀ r q, m.peerLookup r = some q →
    cartCoords m.size (call.retained call.dims) r (call.retained call.dims).length =
      call.retained (call.coords q)
  topo : c.topo = some t
  gridTopo : GridTopo t (call.retained call.dims) periods (call.retained (call.coords p))

variable {call}

section Coordinates

theorem idxOf_lt (hp : p ∈ call.group) : call.group.procs.idxOf p < call.dims.prod := by
  rw [← call.sizeEq]
  exact idxOf_lt_length_of_mem hp

theorem coords_eq (p : P) : call.coords p = mixedDigits call.dims (call.group.procs.idxOf p) :=
  cartCoords_eq call.dimsPos _

theorem digits_coords (hp : p ∈ call.group) : Digits call.dims (call.coords p) := by
  rw [coords_eq]
  exact digits_mixedDigits call.dimsPos (idxOf_lt hp)

theorem length_coords (hp : p ∈ call.group) : (call.coords p).length = call.dims.length :=
  (digits_coords hp).length_eq

theorem mixedValue_coords (hp : p ∈ call.group) :
    mixedValue call.dims (call.coords p) = call.group.procs.idxOf p := by
  rw [coords_eq]
  exact mixedValue_mixedDigits (idxOf_lt hp) call.dimsPos

theorem exists_coords {cs : List ℕ} (hcs : Digits call.dims cs) :
    ∃ q ∈ call.group, call.coords q = cs := by
  have hlt : mixedValue call.dims cs < call.group.size := by
    rw [call.sizeEq]
    exact mixedValue_lt hcs
  obtain ⟨q, hq⟩ := peerLookup_eq_some_of_lt hlt
  have hidx : call.group.procs.idxOf q = mixedValue call.dims cs := by
    obtain ⟨hlt', rfl⟩ := List.getElem?_eq_some_iff.1 hq
    exact call.group.nodup.idxOf_getElem _ hlt'
  refine ⟨q, mem_iff_peerLookup.2 ⟨_, hq⟩, ?_⟩
  rw [coords_eq, hidx]
  exact mixedDigits_mixedValue hcs

theorem mixedValue_chosen_inj {b : Bool} (hp : p ∈ call.group) (hq : q ∈ call.group)
    (h : mixedValue (chosen b call.remainDims call.dims)
      (chosen b call.remainDims (call.coords p)) =
      mixedValue (chosen b call.remainDims call.dims) (chosen b call.remainDims (call.coords q))) :
    chosen b call.remainDims (call.coords p) = chosen b call.remainDims (call.coords q) := by
  rw [← mixedDigits_mixedValue ((digits_coords hp).chosen b call.remainDims), h]
  exact mixedDigits_mixedValue ((digits_coords hq).chosen b call.remainDims)

/-- The place among the retained coordinates. -/
def subRank (call : CartSubCall P) (p : P) : ℕ :=
  mixedValue (call.retained call.dims) (call.retained (call.coords p))

theorem subOf_eq (hp : p ∈ call.group) : subOf (call.topo p) call.remainDims =
    ⟨mixedValue (call.dropped call.dims) (call.dropped (call.coords p)), call.subRank p,
      (call.dropped call.dims).prod, (call.retained call.dims).prod,
      (call.retained call.dims).length⟩ := by
  rw [subOf, (call.gridTopo p hp).dims, (call.gridTopo p hp).coords]
  exact subLoop_eq (length_coords hp) call.remainLength

theorem color_eq (hp : p ∈ call.group) : call.split.color p =
    (mixedValue (call.dropped call.dims) (call.dropped (call.coords p)) : ℕ) := by
  change subColour _ _ = _
  rw [subOf_eq hp, subColour]
  by_cases hnone : (call.retained call.dims).length = 0
  · have hdims : call.dropped call.dims = call.dims :=
      chosen_false_eq call.remainLength.symm (eq_nil_of_length_eq_zero hnone)
    have hcoords : call.dropped (call.coords p) = call.coords p := by
      apply chosen_false_eq ((length_coords hp).trans call.remainLength.symm)
      apply eq_nil_of_length_eq_zero
      exact (length_chosen_congr (length_coords hp)).trans hnone
    rw [if_pos hnone, hdims, hcoords, mixedValue_coords hp, call.myRank p hp,
      (call.localGroup p hp).myRank]
    exact if_pos hp
  · exact if_neg hnone

theorem color_eq_iff (hp : p ∈ call.group) (hq : q ∈ call.group) :
    call.split.color q = call.split.color p ↔
      call.dropped (call.coords q) = call.dropped (call.coords p) := by
  rw [color_eq hp, color_eq hq, Nat.cast_inj]
  constructor
  · exact mixedValue_chosen_inj hq hp
  · exact congrArg _

theorem key_eq (hp : p ∈ call.group) : call.split.key p = call.subRank p := by
  change ((subOf (call.topo p) call.remainDims).key : ℤ) = _
  rw [subOf_eq hp]

end Coordinates

section Members

variable {m : ProcGroup P}

/-- The processes with the dropped coordinates of `p`, in the order of the retained ones. -/
abbrev IsSubGroup (call : CartSubCall P) (p : P) (m : ProcGroup P) : Prop :=
  SplitOf call.group call.split.color call.split.key (call.split.color p) m

section

variable (h : call.IsSubGroup p m) (hp : p ∈ call.group)
include h hp

theorem IsSubGroup.mem_iff :
    q ∈ m ↔ q ∈ call.group ∧ call.dropped (call.coords q) = call.dropped (call.coords p) :=
  (h.mem q).trans (and_congr_right fun hq => color_eq_iff hp hq)

theorem IsSubGroup.increasing : m.procs.Pairwise fun q q' => call.subRank q < call.subRank q' := by
  apply h.order.imp_of_mem
  intro q q' hq hq' hbefore
  obtain ⟨hqg, hqd⟩ := (h.mem_iff hp).1 hq
  obtain ⟨hqg', hqd'⟩ := (h.mem_iff hp).1 hq'
  rw [key_eq hqg, key_eq hqg', cast_lt, Nat.cast_inj] at hbefore
  rcases hbefore with hlt | ⟨heq, hrank⟩
  · exact hlt
  · -- two processes at one place have all coordinates in common
    have hcoords : call.coords q = call.coords q' := by
      apply eq_of_chosen_eq ((length_coords hqg).trans call.remainLength.symm)
        ((length_coords hqg').trans call.remainLength.symm)
      intro b
      cases b with
      | false => exact hqd.trans hqd'.symm
      | true => exact mixedValue_chosen_inj hqg hqg' heq
    have hidx : call.group.procs.idxOf q = call.group.procs.idxOf q' := by
      rw [← mixedValue_coords hqg, hcoords, mixedValue_coords hqg']
    rw [rankOf, rankOf, if_pos (ProcGroup.mem_def.1 hqg), if_pos (ProcGroup.mem_def.1 hqg'),
      hidx] at hrank
    exact absurd hrank (lt_irrefl _)

theorem IsSubGroup.exists_subRank :
    v < (call.retained call.dims).prod ↔ ∃ q ∈ m.procs, call.subRank q = v := by
  have hpos : ∀ d ∈ call.retained call.dims, 0 < d := pos_of_mem_chosen call.dimsPos
  constructor
  · intro hv
    obtain ⟨hdigits, hkept, hdropped⟩ := Digits.weave call.remainLength
      (digits_mixedDigits hpos hv) ((digits_coords hp).chosen false call.remainDims)
    obtain ⟨q, hq, hcoords⟩ := exists_coords hdigits
    refine ⟨q, (h.mem_iff hp).2 ⟨hq, ?_⟩, ?_⟩
    · rw [hcoords]
      exact hdropped
    · rw [subRank, hcoords]
      exact (congrArg _ hkept).trans (mixedValue_mixedDigits hv hpos)
  · rintro ⟨q, hq, rfl⟩
    exact mixedValue_lt ((digits_coords ((h.mem_iff hp).1 hq).1).chosen true call.remainDims)

theorem IsSubGroup.map_subRank : m.procs.map call.subRank = range (call.retained call.dims).prod :=
  map_eq_range (h.increasing hp) fun _ => h.exists_subRank hp

theorem IsSubGroup.size_eq : m.size = (call.retained call.dims).prod := by
  have hlength := congrArg List.length (h.map_subRank hp)
  rwa [length_map, length_range] at hlength

theorem IsSubGroup.rank_eq (hq : m.peerLookup r = some q) : call.subRank q = r := by
  have hmap : (m.procs.map call.subRank)[r]? = some (call.subRank q) := by
    rw [getElem?_map]
    exact congrArg (Option.map _) hq
  rw [h.map_subRank hp] at hmap
  exact ((getElem?_range ((h.size_eq hp) ▸ lt_size_of_peerLookup hq)).symm.trans
    hmap |> Option.some.inj).symm

theorem IsSubGroup.cartCoords_eq (hq : m.peerLookup r = some q) :
    cartCoords m.size (call.retained call.dims) r (call.retained call.dims).length =
      call.retained (call.coords q) := by
  have hmem : q ∈ call.group := ((h.mem_iff hp).1 (mem_iff_peerLookup.2 ⟨r, hq⟩)).1
  have hpos : ∀ d ∈ call.retained call.dims, 0 < d := pos_of_mem_chosen call.dimsPos
  rw [h.size_eq hp, Topo.cartCoords_eq hpos, ← h.rank_eq hp hq]
  exact mixedDigits_mixedValue ((digits_coords hmem).chosen true call.remainDims)

end

end Members

section Result

theorem gridTopo_fillTopo (hp : p ∈ call.group) {m : ProcGroup P} (hm : call.IsSubGroup p m)
    (hr : m.peerLookup r = some p) {newTopo : TopoComm}
    (hcopy : copyTopo (call.topo p) = some newTopo) :
    GridTopo (fillTopo (call.topo p) call.remainDims (call.retained call.dims).length
      m.size r newTopo)
      (call.retained call.dims) (call.periods.take (call.retained call.dims).length)
      (call.retained (call.coords p)) := by
  obtain ⟨hcart, -, hdims, hperiods, -⟩ := call.gridTopo p hp
  rw [copyTopo_cart hcart, hdims, hperiods] at hcopy
  obtain rfl := Option.some.inj hcopy
  have hkept : ((call.dims.zip call.remainDims).filter (·.2)).map (·.1) =
      call.retained call.dims := by
    rw [retained, chosen_eq_filter]
    simp only [beq_true]
  have hlength : (call.retained (call.coords p)).length = (call.retained call.dims).length :=
    length_chosen_congr (length_coords hp)
  rw [fillTopo]
  dsimp only
  rw [hdims, hkept, take_overwrite rfl, hm.cartCoords_eq hp hr]
  split_ifs with hsome
  · exact ⟨hcart, rfl, take_overwrite rfl, rfl, take_overwrite hlength⟩
  · -- nothing is left of a grid without dimensions
    have hzero : (call.retained call.dims).length = 0 := lt_one_iff.1 (not_le.1 hsome)
    have hdims₀ : call.retained call.dims = [] := eq_nil_of_length_eq_zero hzero
    have hcoords₀ : call.retained (call.coords p) = [] :=
      eq_nil_of_length_eq_zero (hlength.trans hzero)
    refine ⟨hcart, rfl, ?_, rfl, ?_⟩
    · rw [hdims₀]
      rfl
    · rw [hdims₀, hcoords₀]
      rfl

theorem exists_subGrid (hp : p ∈ call.group) : ∃ c m t, call.result p = some (some c) ∧
    call.SubGrid p (call.periods.take (call.retained call.dims).length) c m t := by
  have hside : p ∈ call.split.side false := hp
  have hcolor : call.split.color p ≠ mpiUndefined := by
    rw [color_eq hp, mpiUndefined]
    omega
  have hout : ¬call.split.LeftOut false p := not_or.2 ⟨hcolor, fun h => by cases h.1⟩
  have hends : call.split.Ends := fun h => by cases h
  have hbitmap : call.split.NoRemoteBitmap := fun h => by cases h
  obtain ⟨c, hc, hformed⟩ := exists_newcomp hends hbitmap hside
  obtain ⟨hinter, ⟨m, hm, hdenotes⟩, -, hmyRank⟩ := hformed hout
  have hsplit : commSplit (call.sparse p) (call.heap p) (call.comm p)
      (subColour (call.comm p).myRank (subOf (call.topo p) call.remainDims))
      (call.split.infos false) [] true = some (some c) := by
    change call.split.result false p = _
    rw [result_eq hends hside, hc, map_some, if_neg hcolor]
  obtain ⟨newTopo, hnewTopo, htopo⟩ : ∃ t, copyTopo (call.topo p) = some t ∧ c.topo = some t := by
    have hset := newcomp_topo hc
    change setTopo (call.comm p) true = _ at hset
    rw [setTopo, if_pos rfl, call.hasTopo p hp] at hset
    obtain ⟨t, ht, heq⟩ := map_eq_some_iff.1 hset
    exact ⟨t, ht, heq.symm⟩
  have hmem : p ∈ m := (IsSubGroup.mem_iff hm hp).2 ⟨hp, rfl⟩
  obtain ⟨r, hr⟩ := mem_iff_peerLookup.1 hmem
  have hrank : c.myRank = r := by
    rw [hmyRank, hdenotes.myRank]
    exact rankOf_eq_of_peerLookup hr
  let t := fillTopo (call.topo p) call.remainDims (call.retained call.dims).length m.size r newTopo
  refine ⟨{ c with topo := some t }, m, t, ?_, ?_⟩
  · rw [result, cartSub, call.hasTopo p hp, bind_eq_bind, bind_some]
    dsimp only
    rw [hsplit, bind_eq_bind, bind_some]
    dsimp only
    rw [htopo, bind_some, hdenotes.procCount, hrank, Int.toNat_natCast, subOf_eq hp]
  · exact ⟨hinter, hdenotes, hmyRank.trans hdenotes.myRank, fun q => IsSubGroup.mem_iff hm hp,
      fun r q hq => IsSubGroup.cartCoords_eq hm hp hq, rfl, gridTopo_fillTopo hp hm hr hnewTopo⟩

end Result

/-- The sub-grids are right exactly if the periods of the retained dimensions are those of
the first ones. -/
theorem subGrid_iff (call : CartSubCall P) :
    (∀ p ∈ call.group, ∃ c m t, call.result p = some (some c) ∧
      call.SubGrid p (call.retained call.periods) c m t) ↔
      call.retained call.periods = call.periods.take (call.retained call.dims).length := by
  constructor
  · intro h
    have hpos : 0 < call.group.size := by
      rw [call.sizeEq]
      exact prod_pos call.dimsPos
    obtain ⟨p, hp⟩ := peerLookup_eq_some_of_lt hpos
    have hmem : p ∈ call.group := mem_iff_peerLookup.2 ⟨0, hp⟩
    obtain ⟨c, m, t, hc, hgrid⟩ := h p hmem
    obtain ⟨c', m', t', hc', hgrid'⟩ := exists_subGrid hmem
    obtain rfl := Option.some.inj (Option.some.inj (hc.symm.trans hc'))
    obtain rfl := Option.some.inj (hgrid.topo.symm.trans hgrid'.topo)
    exact hgrid.gridTopo.periods.symm.trans hgrid'.gridTopo.periods
  · intro hperiods p hp
    rw [hperiods]
    exact exists_subGrid hp

section Example

/-- A grid of two processes, periodic in its first dimension, of which the second one is
retained. -/
def mixedPeriods : CartSubCall ℕ where
  group := ⟨[0, 1], by decide⟩
  dims := [2, 1]
  dimsPos := by decide
  sizeEq := rfl
  periods := [1, 0]
  remainDims := [false, true]
  remainLength := rfl
  comm p := ⟨.dense 1 [0, 1] p, .dense 1 [0, 1] p, p, false,
    some ⟨true, 2, [2, 1], [1, 0], [p, 0], false⟩⟩
  topo p := ⟨true, 2, [2, 1], [1, 0], [p, 0], false⟩
  sparse _ := false
  heap _ := ⟨0, 0, 2, 3⟩
  localGroup := by
    intro p hp
    have hrank : rankOf p [0, 1] = p := by
      rcases mem_pair.1 hp with rfl | rfl <;> rfl
    rw [← hrank]
    exact denotes_dense p 1 ⟨[0, 1], by decide⟩
  myRank _ _ := rfl
  intra _ _ := rfl
  fresh _ _ := ⟨Nat.one_ne_zero, Nat.succ_ne_zero 1, nofun⟩
  hasTopo _ _ := rfl
  gridTopo := by
    intro p hp
    rcases mem_pair.1 hp with rfl | rfl
    · exact ⟨rfl, rfl, rfl, rfl, rfl⟩
    · exact ⟨rfl, rfl, rfl, rfl, rfl⟩

/-- The sub-grid has the period of the dimension that has been dropped. -/
theorem mixedPeriods_kept : mixedPeriods.result 0 = some (some
      ⟨.dense 2 [0] 0, .dense 2 [0] 0, 0, false, some ⟨true, 1, [1, 1], [1, 0], [0, 0], false⟩⟩) ∧
    mixedPeriods.retained mixedPeriods.periods = [0] ∧
    ¬∀ p ∈ mixedPeriods.group, ∃ c m t, mixedPeriods.result p = some (some c) ∧
      mixedPeriods.SubGrid p (mixedPeriods.retained mixedPeriods.periods) c m t := by
  have hresult : mixedPeriods.result 0 = some (some
      ⟨.dense 2 [0] 0, .dense 2 [0] 0, 0, false,
        some ⟨true, 1, [1, 1], [1, 0], [0, 0], false⟩⟩) := by
    decide
  refine ⟨hresult, rfl, fun h => ?_⟩
  obtain ⟨c, m, t, hc, hgrid⟩ := h 0 (mem_cons_self)
  obtain rfl := Option.some.inj (Option.some.inj (hresult.symm.trans hc))
  obtain rfl := Option.some.inj hgrid.topo
  exact absurd hgrid.gridTopo.periods (by decide)

end Example

end CartSubCall

end Ulfm
