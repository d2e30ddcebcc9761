import Ulfm.Comm.Ranks

/-!
# What a split gives

Every process of a communicator builds its groups from the ranks of its colour. The members
of one colour build the same groups, so that they agree on their ranks. The communicator of
a colour that only one side of an inter-communicator has is not `MPI_COMM_NULL`, its
processes do not take part when the others of their side duplicate the local communicator,
and a remote group cannot be stored as a bitmap by a process that is not in it.
-/

namespace Ulfm

open List Option ProcGroup

section Groups

variable {P : Type} [DecidableEq P] {me : P} {g : Group P} {m : ProcGroup P} {ranks : List ℕ}

/-- Nothing lies at the address of a group that is allocated. -/
structure Fresh (g : Group P) (ptr : ℕ) : Prop where
  group : g.ptr ≠ groupEmptyPtr
  address : ptr ≠ groupEmptyPtr
  parent : ∀ s, g.sparse? = some s → s.1 ≠ ptr

theorem applies_inclMethod (sparse : Bool) (n : ℕ) (before : ℤ) (ranks : List ℕ) :
    (inclMethod sparse n before ranks).Applies ranks := by
  cases sparse with
  | false => exact trivial
  | true => exact applies_groupMinloc n before ranks

theorem denotes_dense (me : P) (ptr : ℕ) (m : ProcGroup P) :
    Denotes me (.dense ptr m.procs (rankOf me m.procs)) m := by
  refine ⟨rfl, fun {r p} hp => ?_, rfl⟩
  rw [Group.getProcPtr, if_neg (Int.natCast_nonneg r).not_gt, Int.toNat_natCast]
  exact hp

theorem Denotes.incl (h : Denotes me g m) (hnodup : ranks.Nodup) (hne : ranks ≠ [])
    (hlt : ∀ r ∈ ranks, r < m.size) {ptr : ℕ} (hfresh : Fresh g ptr) (sparse : Bool) (before : ℤ) :
    (CallerKnown me m (inclMethod sparse m.size before ranks) →
      ∃ g', g.incl sparse before ranks ptr = some g' ∧ Denotes me g' (m.inclPlist ranks hnodup)) ∧
    (¬CallerKnown me m (inclMethod sparse m.size before ranks) →
      g.incl sparse before ranks ptr = none) := by
  rw [Group.incl, if_neg hne, h.procCount]
  obtain ⟨hknown, hunknown⟩ := h.inclBy hnodup hne hlt
    (applies_inclMethod sparse m.size before ranks) hfresh.group hfresh.address hfresh.parent before
  constructor
  · intro hcaller
    obtain ⟨g', hg', -, hdenotes, -⟩ := hknown hcaller
    exact ⟨g', hg', hdenotes⟩
  · exact hunknown

end Groups

/-- A call of `ompi_comm_split` by all processes of a communicator. An intra-communicator has
one side, and both sides of an inter-communicator have processes. -/
structure SplitCall (P : Type) [DecidableEq P] where
  inter : Bool
  side : Bool → ProcGroup P
  apart : ∀ p ∈ side false, p ∉ side true
  intra : inter = false → side true = ProcGroup.empty
  occupied : inter = true → ∀ b, ∃ p, p ∈ side b
  comm : P → Comm P
  localGroup : ∀ b, ∀ p ∈ side b, Denotes p (comm p).localGroup (side b)
  remoteGroup : inter = true → ∀ b, ∀ p ∈ side b, Denotes p (comm p).remoteGroup (side !b)
  interFlag : ∀ b, ∀ p ∈ side b, (comm p).inter = inter
  topoCopied : ∀ b, ∀ p ∈ side b, ∀ t, (comm p).topo = some t → (copyTopo t).isSome
  sparse : P → Bool
  heap : P → Heap
  localFresh : ∀ b, ∀ p ∈ side b, Fresh (comm p).localGroup (heap p).lptr
  remoteFresh : inter = true → ∀ b, ∀ p ∈ side b, Fresh (comm p).remoteGroup (heap p).rptr
  color : P → ℤ
  key : P → ℤ
  passOnTopo : Bool

namespace SplitCall

variable {P : Type} [DecidableEq P] (call : SplitCall P) {b b' : Bool} {p q : P}

def infos (b : Bool) : List (ℤ × ℤ) := (call.side b).infos call.color call.key

def result (b : Bool) (p : P) : Option (Option (Comm P)) :=
  commSplit (call.sparse p) (call.heap p) (call.comm p) (call.color p) (call.infos b)
    (call.infos !b) call.passOnTopo

/-- The process is to get `MPI_COMM_NULL`. -/
def LeftOut (b : Bool) (p : P) : Prop :=
  call.color p = mpiUndefined ∨ call.inter = true ∧ ∀ q ∈ call.side !b, call.color q ≠ call.color p

/-- The group has the processes of a side with the colour of `p`, in their order. -/
def GroupOf (b : Bool) (p me : P) (g : Group P) : Prop :=
  ∃ m, SplitOf (call.side b) call.color call.key (call.color p) m ∧ Denotes me g m

/-- The communicator that a process is to get. -/
structure Formed (b : Bool) (p : P) (c : Comm P) : Prop where
  inter : c.inter = call.inter
  localGroup : call.GroupOf b p p c.localGroup
  remoteGroup : call.inter = true → call.GroupOf (!b) p p c.remoteGroup
  myRank : c.myRank = c.localGroup.myRank

/-- Two members agree on a rank: the rank of `p` is its position in the group of `q`. -/
def RanksAgree (b b' : Bool) (p q : P) : Prop :=
  ∀ c d, call.result b p = some (some c) → call.result b' q = some (some d) →
    let group := if b' = b then d.localGroup else d.remoteGroup
    group.getProcPtr c.myRank = some p ∧ group.findProc p = c.myRank

structure Splits : Prop where
  null : ∀ b, ∀ p ∈ call.side b, call.LeftOut b p → call.result b p = some none
  formed : ∀ b, ∀ p ∈ call.side b, ¬call.LeftOut b p →
    ∃ c, call.result b p = some (some c) ∧ call.Formed b p c
  ranks : ∀ b b', ∀ p ∈ call.side b, ∀ q ∈ call.side b', call.color p = call.color q →
    call.RanksAgree b b' p q

/-- Every colour is on both sides of an inter-communicator. -/
def TwoSided : Prop :=
  call.inter = true → ∀ b, ∀ p ∈ call.side b, ∃ q ∈ call.side !b, call.color q = call.color p

/-- No process stores a remote group as a bitmap. -/
def NoRemoteBitmap : Prop :=
  call.inter = true → ∀ b, ∀ p ∈ call.side b, ∀ m,
    SplitOf (call.side !b) call.color call.key (call.color p) m → m.procs ≠ [] →
      inclMethod (call.sparse p) (call.side !b).size (call.heap p).rbefore
        (m.procs.map (call.side !b).procs.idxOf) ≠ .bitmap

section Result

variable {call}

theorem exists_topo (hp : p ∈ call.side b) :
    ∃ topo, setTopo (call.comm p) call.passOnTopo = some topo := by
  unfold setTopo
  cases call.passOnTopo with
  | false => exact ⟨none, rfl⟩
  | true =>
    cases ht : (call.comm p).topo with
    | none => exact ⟨none, rfl⟩
    | some oldt =>
      obtain ⟨t, ht'⟩ := isSome_iff_exists.1 (call.topoCopied b p hp oldt ht)
      exact ⟨some t, congrArg (Option.map some) ht'⟩

/-- The ranks of the colour of `p` on a side. -/
def ranks (call : SplitCall P) (b : Bool) (p : P) : List ℕ :=
  splitRanks (call.infos b) (call.color p)

/-- The processes of the colour of `p` on a side. -/
def members (call : SplitCall P) (b : Bool) (p : P) : ProcGroup P :=
  (call.side b).withColor call.color call.key (call.color p)

theorem groupOf_iff {me : P} {g : Group P} :
    call.GroupOf b p me g ↔ Denotes me g (call.members b p) := by
  constructor
  · rintro ⟨m, hm, hg⟩
    rwa [hm.unique splitOf_withColor] at hg
  · intro hg
    exact ⟨_, splitOf_withColor, hg⟩

theorem ranks_ne_nil (hp : p ∈ call.side b) : call.ranks b p ≠ [] := by
  obtain ⟨r, hr⟩ := mem_iff_peerLookup.1 hp
  exact ne_nil_of_mem (mem_splitRanks.2
    ⟨call.key p, getElem?_infos.2 ⟨p, hr, rfl, rfl⟩⟩)

theorem ranks_eq_nil_iff :
    call.ranks b p = [] ↔ ∀ q ∈ call.side b, call.color q ≠ call.color p := by
  constructor
  · intro hnil q hq hcolor
    have hmem := ranks_ne_nil hq
    rw [ranks, hcolor] at hmem
    exact hmem hnil
  · intro hne
    apply eq_nil_iff_forall_not_mem.2
    intro r hr
    obtain ⟨k, hk⟩ := mem_splitRanks.1 hr
    obtain ⟨q, hq, hcolor, -⟩ := getElem?_infos.1 hk
    exact hne q (mem_iff_peerLookup.2 ⟨r, hq⟩) hcolor

theorem exists_localGroup (hp : p ∈ call.side b) : ∃ g,
    (call.comm p).localGroup.incl (call.sparse p) (call.heap p).lbefore (call.ranks b p)
      (call.heap p).lptr = some g ∧ Denotes p g (call.members b p) :=
  ((call.localGroup b p hp).incl (nodup_splitRanks _ _) (ranks_ne_nil hp)
    (fun _ hr => lt_size_of_mem_splitRanks hr) (call.localFresh b p hp) _ _).1 fun _ => hp

def remoteMethod (call : SplitCall P) (b : Bool) (p : P) : GroupMethod :=
  inclMethod (call.sparse p) (call.side !b).size (call.heap p).rbefore (call.ranks (!b) p)

theorem not_mem_other (hp : p ∈ call.side b) : p ∉ call.side !b := by
  cases b with
  | false => exact call.apart p hp
  | true => exact fun hq => call.apart p hq hp

theorem remoteGroup_cases (hp : p ∈ call.side b) (hinter : call.inter = true)
    (hne : call.ranks (!b) p ≠ []) :
    (call.remoteMethod b p ≠ .bitmap → ∃ g,
      (call.comm p).remoteGroup.incl (call.sparse p) (call.heap p).rbefore (call.ranks (!b) p)
        (call.heap p).rptr = some g ∧ Denotes p g (call.members (!b) p)) ∧
    (call.remoteMethod b p = .bitmap →
      (call.comm p).remoteGroup.incl (call.sparse p) (call.heap p).rbefore (call.ranks (!b) p)
        (call.heap p).rptr = none) := by
  obtain ⟨hknown, hunknown⟩ := (call.remoteGroup hinter b p hp).incl (nodup_splitRanks _ _) hne
    (fun _ hr => lt_size_of_mem_splitRanks hr) (call.remoteFresh hinter b p hp) (call.sparse p)
    (call.heap p).rbefore
  constructor
  · intro hmethod
    exact hknown fun hbitmap => absurd hbitmap hmethod
  · intro hbitmap
    exact hunknown fun hcaller => not_mem_other hp (hcaller hbitmap)

/-- The duplications of the local communicators of both sides end. -/
def Ends (call : SplitCall P) : Prop :=
  call.inter = true → ∀ b, dupEnds (call.infos b) (call.infos !b) = true

theorem dupEnds_iff : dupEnds (call.infos b) (call.infos !b) = true ↔
    (∀ p ∈ call.side b, call.ranks (!b) p ≠ []) ∨ ∀ p ∈ call.side b, call.ranks (!b) p = [] := by
  have hall : ∀ f : ℤ × ℤ → Bool, (call.infos b).all f = true ↔
      ∀ p ∈ call.side b, f (call.color p, call.key p) = true := by
    intro f
    rw [infos, ProcGroup.infos, List.all_map, List.all_eq_true]
    rfl
  rw [dupEnds, Bool.or_eq_true, hall, hall]
  simp only [decide_eq_true_eq, length_pos_iff, Bool.not_eq_true', decide_eq_false_iff_not, not_not]
  exact Iff.rfl

/-- The communicator before it may be freed. -/
def newcomp (call : SplitCall P) (b : Bool) (p : P) : Option (Comm P) :=
  commSet (call.sparse p) (call.heap p) (call.comm p) (call.ranks b p)
    (if call.inter then call.ranks (!b) p else []) call.passOnTopo
    (dupEnds (call.infos b) (call.infos !b))

theorem result_split (hp : p ∈ call.side b) : call.result b p = (call.newcomp b p).bind fun c =>
    if call.inter ∧ (dupEnds (call.infos b) (call.infos !b) &&
      dupEnds (call.infos !b) (call.infos b)) = false then none
    else some (if call.color p = mpiUndefined then none else some c) := by
  rw [result, commSplit, call.interFlag b p hp]
  rfl

theorem ends_iff : call.Ends ↔ ¬(call.inter ∧ (dupEnds (call.infos b) (call.infos !b) &&
    dupEnds (call.infos !b) (call.infos b)) = false) := by
  rw [not_and, Bool.not_eq_false, Bool.and_eq_true, Ends]
  apply imp_congr_right
  intro _
  constructor
  · intro h
    have hother := h !b
    rw [Bool.not_not] at hother
    exact ⟨h b, hother⟩
  · rintro ⟨hown, hother⟩ b'
    by_cases hb : b' = b
    · rw [hb]
      exact hown
    · rw [Bool.eq_not_of_ne hb, Bool.not_not]
      exact hother

theorem result_eq (hends : call.Ends) (hp : p ∈ call.side b) : call.result b p =
    (call.newcomp b p).map fun c => if call.color p = mpiUndefined then none else some c := by
  rw [result_split hp]
  simp only [if_neg (ends_iff.1 hends)]
  cases call.newcomp b p <;> rfl

theorem ends_of_result {c : Option (Comm P)} (hp : p ∈ call.side b)
    (hresult : call.result b p = some c) : call.Ends := by
  rw [result_split hp] at hresult
  obtain ⟨c', -, hresult⟩ := bind_eq_some_iff.1 hresult
  split_ifs at hresult with hnot
  · exact ends_iff.2 hnot
  · exact ends_iff.2 hnot

theorem newcomp_topo {c : Comm P} (h : call.newcomp b p = some c) :
    setTopo (call.comm p) call.passOnTopo = some c.topo := by
  rw [newcomp, commSet] at h
  obtain ⟨g, -, h⟩ := bind_eq_some_iff.1 h
  obtain ⟨g', -, h⟩ := bind_eq_some_iff.1 h
  obtain ⟨topo, htopo, h⟩ := bind_eq_some_iff.1 h
  obtain ⟨-, h⟩ := ite_none_left_eq_some.1 h
  obtain rfl := Option.some.inj h
  exact htopo

theorem newcomp_alone (hp : p ∈ call.side b) (hnil : call.inter = true → call.ranks (!b) p = []) :
    ∃ c, call.newcomp b p = some c ∧ c.inter = false ∧ Denotes p c.localGroup (call.members b p) ∧
      c.myRank = c.localGroup.myRank := by
  obtain ⟨g, hg, hdenotes⟩ := exists_localGroup hp
  obtain ⟨topo, htopo⟩ := exists_topo hp
  have hrranks : (if call.inter then call.ranks (!b) p else []) = [] := by
    split_ifs with hinter
    · exact hnil hinter
    · rfl
  refine ⟨⟨g, g, g.myRank, false, topo⟩, ?_, rfl, hdenotes, rfl⟩
  rw [newcomp, commSet, hg, hrranks]
  simp only [bind_eq_bind, bind_some, length_nil, lt_irrefl, if_false, htopo, false_and]
  rfl

theorem newcomp_joined (hends : call.Ends) (hp : p ∈ call.side b) (hinter : call.inter = true)
    (hne : call.ranks (!b) p ≠ []) :
    (call.remoteMethod b p ≠ .bitmap → ∃ c, call.newcomp b p = some c ∧ c.inter = true ∧
      Denotes p c.localGroup (call.members b p) ∧
      Denotes p c.remoteGroup (call.members (!b) p) ∧ c.myRank = c.localGroup.myRank) ∧
    (call.remoteMethod b p = .bitmap → call.newcomp b p = none) := by
  obtain ⟨g, hg, hdenotes⟩ := exists_localGroup hp
  obtain ⟨topo, htopo⟩ := exists_topo hp
  obtain ⟨hbuilt, hfault⟩ := remoteGroup_cases hp hinter hne
  have hpos : 0 < (call.ranks (!b) p).length := length_pos_of_ne_nil hne
  have hset : call.newcomp b p = ((call.comm p).remoteGroup.incl (call.sparse p)
      (call.heap p).rbefore (call.ranks (!b) p) (call.heap p).rptr).map
        fun g' => ⟨g, g', g.myRank, true, topo⟩ := by
    rw [newcomp, commSet, hg, if_pos hinter]
    simp only [bind_eq_bind, bind_some, hpos, if_true, htopo, decide_true, hends hinter b,
      Bool.true_eq_false, and_false, if_false]
    cases Group.incl (call.sparse p) (call.heap p).rbefore (call.comm p).remoteGroup
      (call.ranks (!b) p) (call.heap p).rptr <;> rfl
  constructor
  · intro hmethod
    obtain ⟨g', hg', hdenotes'⟩ := hbuilt hmethod
    exact ⟨⟨g, g', g.myRank, true, topo⟩, by rw [hset, hg', map_some], rfl, hdenotes,
      hdenotes', rfl⟩
  · intro hbitmap
    rw [hset, hfault hbitmap, map_none]

theorem noRemoteBitmap_iff : call.NoRemoteBitmap ↔
    ∀ b, ∀ p ∈ call.side b, call.inter = true → call.ranks (!b) p ≠ [] →
      call.remoteMethod b p ≠ .bitmap := by
  have hmethod : ∀ b p, inclMethod (call.sparse p) (call.side !b).size (call.heap p).rbefore
      ((call.members (!b) p).procs.map (call.side !b).procs.idxOf) = call.remoteMethod b p :=
    fun b p => congrArg _ idxOf_withColor
  have hnil : ∀ b p, (call.members b p).procs = [] ↔ call.ranks b p = [] := by
    intro b p
    have hidx : (call.members b p).procs.map (call.side b).procs.idxOf = call.ranks b p :=
      idxOf_withColor
    rw [← hidx, map_eq_nil_iff]
  constructor
  · intro h b p hp hinter hne
    rw [← hmethod]
    exact h hinter b p hp _ splitOf_withColor (mt (hnil (!b) p).1 hne)
  · intro h hinter b p hp m hm hne
    obtain rfl := hm.unique splitOf_withColor
    exact (hmethod b p).trans_ne (h b p hp hinter (mt (hnil (!b) p).2 hne))

theorem exists_newcomp (hends : call.Ends) (hbitmap : call.NoRemoteBitmap) (hp : p ∈ call.side b) :
    ∃ c, call.newcomp b p = some c ∧ (¬call.LeftOut b p → call.Formed b p c) := by
  cases hinter : call.inter with
  | false =>
    obtain ⟨c, hc, hflag, hlocal, hrank⟩ := newcomp_alone hp fun h => by
      rw [hinter] at h
      cases h
    refine ⟨c, hc, fun _ => ⟨hflag.trans hinter.symm, groupOf_iff.2 hlocal, fun h => ?_, hrank⟩⟩
    rw [hinter] at h
    cases h
  | true =>
    by_cases hnil : call.ranks (!b) p = []
    · obtain ⟨c, hc, -⟩ := newcomp_alone hp fun _ => hnil
      exact ⟨c, hc, fun hout => absurd (.inr ⟨hinter, ranks_eq_nil_iff.1 hnil⟩) hout⟩
    · obtain ⟨c, hc, hflag, hlocal, hremote, hrank⟩ := (newcomp_joined hends hp hinter hnil).1
        (noRemoteBitmap_iff.1 hbitmap b p hp hinter hnil)
      exact ⟨c, hc, fun _ => ⟨hflag.trans hinter.symm, groupOf_iff.2 hlocal,
        fun _ => groupOf_iff.2 hremote, hrank⟩⟩

theorem members_congr (hcolor : call.color p = call.color q) :
    call.members b p = call.members b q := by
  rw [members, hcolor, members]

theorem inter_of_ne (hp : p ∈ call.side b) (hq : q ∈ call.side b') (hb : b' ≠ b) :
    call.inter = true := by
  by_contra hintra
  have hempty := call.intra (Bool.eq_false_iff.2 hintra)
  cases b with
  | true => exact not_mem_empty p (hempty ▸ hp)
  | false => exact not_mem_empty q (hempty ▸ Bool.eq_true_of_not_eq_false hb ▸ hq)

theorem Formed.ranksAgree {c d : Comm P} (hp : p ∈ call.side b) (hq : q ∈ call.side b')
    (hcolor : call.color p = call.color q) (hc : call.Formed b p c) (hd : call.Formed b' q d) :
    (if b' = b then d.localGroup else d.remoteGroup).getProcPtr c.myRank = some p ∧
      (if b' = b then d.localGroup else d.remoteGroup).findProc p = c.myRank := by
  have hgroup : Denotes q (if b' = b then d.localGroup else d.remoteGroup) (call.members b p) := by
    rw [members_congr hcolor]
    split_ifs with hb
    · rw [← hb]
      exact groupOf_iff.1 hd.localGroup
    · have hother : (!b') = b := (Bool.eq_not_of_ne (Ne.symm hb)).symm
      rw [← hother]
      exact groupOf_iff.1 (hd.remoteGroup (inter_of_ne hp hq hb))
  have hmem : p ∈ call.members b p := mem_withColor.2 ⟨hp, rfl⟩
  have hrank : c.myRank = rankOf p (call.members b p).procs :=
    hc.myRank.trans (groupOf_iff.1 hc.localGroup).myRank
  obtain ⟨r, hr⟩ := mem_iff_peerLookup.1 hmem
  constructor
  · rw [hrank, rankOf_eq_of_peerLookup hr]
    exact hgroup.lookup hr
  · rw [hrank, hgroup.findProc]

theorem result_ne_null (hp : p ∈ call.side b) (hcolor : call.color p ≠ mpiUndefined) :
    call.result b p ≠ some none := by
  intro hnull
  rw [result_eq (ends_of_result hp hnull) hp, map_eq_some_iff] at hnull
  obtain ⟨c, -, hnone⟩ := hnull
  rw [if_neg hcolor] at hnone
  exact nomatch hnone

theorem Splits.exists_result (h : call.Splits) (hp : p ∈ call.side b) :
    ∃ c, call.result b p = some c := by
  by_cases hout : call.LeftOut b p
  · exact ⟨_, h.null b p hp hout⟩
  · obtain ⟨c, hc, -⟩ := h.formed b p hp hout
    exact ⟨_, hc⟩

theorem Splits.joined (h : call.Splits) (hp : p ∈ call.side b) (hinter : call.inter = true)
    (hcolor : call.color p ≠ mpiUndefined) : call.ranks (!b) p ≠ [] := by
  intro hnil
  exact result_ne_null hp hcolor (h.null b p hp (.inr ⟨hinter, ranks_eq_nil_iff.1 hnil⟩))

/-- When no process of a side takes part in the duplication, no process of the other side has a
colour of it. -/
theorem Splits.twoSided (h : call.Splits) : call.TwoSided := by
  intro hinter b p hp
  by_contra hnone
  have hnil : call.ranks (!b) p = [] := by
    apply ranks_eq_nil_iff.2
    intro q hq hqp
    exact hnone ⟨q, hq, hqp⟩
  obtain ⟨c, hc⟩ := h.exists_result hp
  obtain hall | hno := dupEnds_iff.1 (ends_of_result hp hc hinter b)
  · exact hall p hp hnil
  · obtain ⟨q, hq⟩ := call.occupied hinter !b
    have hpcolor : call.color p = mpiUndefined := by
      by_contra hcolor
      exact h.joined hp hinter hcolor hnil
    have hqcolor : call.color q ≠ mpiUndefined := by
      intro hcolor
      exact hnone ⟨q, hq, hcolor.trans hpcolor.symm⟩
    apply h.joined hq hinter hqcolor
    rw [Bool.not_not]
    apply ranks_eq_nil_iff.2
    intro p' hp' hcolor
    exact ranks_eq_nil_iff.1 (hno p' hp') q hq hcolor.symm

theorem TwoSided.ends (h : call.TwoSided) : call.Ends := by
  intro hinter b
  apply dupEnds_iff.2
  apply Or.inl
  intro p hp hnil
  obtain ⟨q, hq, hcolor⟩ := h hinter b p hp
  exact ranks_eq_nil_iff.1 hnil q hq hcolor

end Result

/-- A split does what it should exactly if every colour, `MPI_UNDEFINED` too, is on both sides of
an inter-communicator, and no process stores a remote group as a bitmap. -/
theorem splits_iff : call.Splits ↔ call.TwoSided ∧ call.NoRemoteBitmap := by
  constructor
  · intro h
    refine ⟨h.twoSided, noRemoteBitmap_iff.2 fun b p hp hinter hne hbitmap => ?_⟩
    have hends := h.twoSided.ends
    obtain ⟨c, hc⟩ := h.exists_result hp
    rw [result_eq hends hp, (newcomp_joined hends hp hinter hne).2 hbitmap] at hc
    exact nomatch hc
  · rintro ⟨hsides, hbitmap⟩
    have hends := hsides.ends
    have hnull : ∀ b, ∀ p ∈ call.side b, call.LeftOut b p → call.result b p = some none := by
      intro b p hp hout
      obtain ⟨c, hc, -⟩ := exists_newcomp hends hbitmap hp
      rw [result_eq hends hp, hc, map_some]
      rcases hout with hcolor | ⟨hinter, hnone⟩
      · rw [if_pos hcolor]
      · obtain ⟨q, hq, hqp⟩ := hsides hinter b p hp
        exact absurd hqp (hnone q hq)
    have hformed : ∀ b, ∀ p ∈ call.side b, ¬call.LeftOut b p →
        ∃ c, call.result b p = some (some c) ∧ call.Formed b p c := by
      intro b p hp hout
      obtain ⟨c, hc, hformed⟩ := exists_newcomp hends hbitmap hp
      refine ⟨c, ?_, hformed hout⟩
      rw [result_eq hends hp, hc, map_some, if_neg fun hcolor => hout (.inl hcolor)]
    have hunique : ∀ b, ∀ p ∈ call.side b, ∀ c, call.result b p = some (some c) →
        call.Formed b p c := by
      intro b p hp c hc
      by_cases hout : call.LeftOut b p
      · exact nomatch hc.symm.trans (hnull b p hp hout)
      · obtain ⟨c', hc', hformed'⟩ := hformed b p hp hout
        obtain rfl := Option.some.inj (Option.some.inj (hc.symm.trans hc'))
        exact hformed'
    refine ⟨hnull, hformed, ?_⟩
    intro b b' p hp q hq hcolor c d hc hd
    exact (hunique b p hp c hc).ranksAgree hp hq hcolor (hunique b' q hq d hd)

section Example

/-- Two processes, one on each side of an inter-communicator. -/
def pair (color : ℕ → ℤ) : SplitCall ℕ where
  inter := true
  side b := ⟨[b.toNat], nodup_singleton _⟩
  apart := by
    rintro p hp hq
    exact absurd ((mem_singleton.1 hp).symm.trans (mem_singleton.1 hq)) (by decide)
  intra := nofun
  occupied _ b := ⟨b.toNat, mem_singleton.2 rfl⟩
  comm p := ⟨.dense 1 [p] 0, .dense 2 [1 - p] mpiUndefined, 0, true, none⟩
  localGroup := by
    rintro b p hp
    obtain rfl := mem_singleton.1 hp
    cases b with
    | false => exact denotes_dense 0 1 ⟨[0], nodup_singleton 0⟩
    | true => exact denotes_dense 1 1 ⟨[1], nodup_singleton 1⟩
  remoteGroup := by
    rintro - b p hp
    obtain rfl := mem_singleton.1 hp
    cases b with
    | false => exact denotes_dense 0 2 ⟨[1], nodup_singleton 1⟩
    | true => exact denotes_dense 1 2 ⟨[0], nodup_singleton 0⟩
  interFlag _ _ _ := rfl
  topoCopied _ _ _ := nofun
  sparse _ := false
  heap _ := ⟨0, 0, 3, 4⟩
  localFresh _ _ _ := ⟨Nat.one_ne_zero, Nat.succ_ne_zero 2, nofun⟩
  remoteFresh _ _ _ _ := ⟨Nat.succ_ne_zero 1, Nat.succ_ne_zero 3, nofun⟩
  color := color
  key _ := 0
  passOnTopo := false

theorem pair_splits : (pair fun _ => 4).Splits := by
  apply (pair fun _ => 4).splits_iff.2
  refine ⟨fun _ b p _ => ⟨(!b).toNat, mem_singleton.2 rfl, rfl⟩, fun _ b p _ m _ _ hbitmap => ?_⟩
  exact nomatch hbitmap

/-- The colours of the two sides are 0 and 1. -/
def oneSided : SplitCall ℕ := pair fun p => p

/-- The process 0 gets a communicator of its own, where it is to get `MPI_COMM_NULL`. -/
theorem oneSided_not_null : ¬oneSided.Splits ∧ oneSided.LeftOut false 0 ∧
    oneSided.result false 0 = some (some ⟨.dense 3 [0] 0, .dense 3 [0] 0, 0, false, none⟩) := by
  have hout : oneSided.LeftOut false 0 := by
    refine .inr ⟨rfl, fun q hq => ?_⟩
    obtain rfl := mem_singleton.1 hq
    decide
  have hresult : oneSided.result false 0 =
      some (some ⟨.dense 3 [0] 0, .dense 3 [0] 0, 0, false, none⟩) := by decide
  refine ⟨fun h => ?_, hout, hresult⟩
  have hnull := h.null false 0 (mem_singleton.2 rfl) hout
  exact nomatch hresult.symm.trans hnull

end Example

end SplitCall

end Ulfm
