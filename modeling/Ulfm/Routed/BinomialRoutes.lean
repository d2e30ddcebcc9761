import Mathlib.Data.Finset.Card
import Ulfm.Routed.BinomialTree

/-!
# Routes with dead daemons

All the live daemons know who is dead, but some of them have not updated their trees since. After an
update the live daemons agree on one tree. Before it the routes lead through live daemons, and to
the target, exactly when no live daemon has a dead parent in its tree, and the daemon `0` no dead
child with live daemons below it. `get_route` checks the children only, and after an update it goes
on with the parent, which for the daemon `0` is itself.
-/

namespace Ulfm

open List Function Option

namespace Routed

namespace Binomial

open Relation

variable {n : ℕ} {live : ℕ → Prop} {k : ℕ → Procs}

/-- The tree of the daemon `v` was computed when no more daemons were dead than now. -/
def Computed (n : ℕ) (live : ℕ → Prop) (v : ℕ) (tree : RoutingTree) : Prop :=
  ∃ k₀ live₀, Knows n k₀ live₀ ∧ (∀ u, live u → live₀ u) ∧ updateRoutingTree n k₀ v = some tree

/-- A message for `target` goes to another live daemon, and the daemon that sends it may update its
tree. A daemon that is to send it to itself stops with a routing loop. -/
def Hop (n : ℕ) (live : ℕ → Prop) (k : ℕ → Procs) (loc : ℕ → Local) (target : Name)
    (x y : ℕ × (ℕ → RoutingTree)) : Prop :=
  ∃ name tree, getRoute n (k x.1) (loc x.1) (x.2 x.1) target = some (some name, tree) ∧
    name.vpid = y.1 ∧ y.1 ≠ x.1 ∧ live y.1 ∧ y.2 = Function.update x.2 x.1 tree

/-- Following the routes leads through live daemons to the one that hosts the target. -/
def RoutesLive (n : ℕ) (live : ℕ → Prop) (k : ℕ → Procs) (trees : ℕ → RoutingTree) : Prop :=
  ∀ (jobid : ℕ) (loc : ℕ → Local) (target : Name) (d : ℕ), IsJob n jobid loc →
    Hosted n jobid loc target d → live d → ∀ v, live v →
      ∃ trees', ReflTransGen (Hop n live k loc target) (v, trees) (d, trees')

/-- The parents are live, and no live daemon is below a dead child of the daemon `0`. -/
structure PathsLive (live : ℕ → Prop) (trees : ℕ → RoutingTree) : Prop where
  parents : ∀ v, live v → v ≠ 0 → live (trees v).parent.toNat
  root : ∀ child ∈ (trees 0).children, ¬live child.vpid → ∀ d ∈ child.relatives, ¬live d

def RoutingTree.view (t : RoutingTree) : NodeView := ⟨t.parent, t.children.map (·.vpid)⟩

/-- After an update the live daemons agree on one tree, and know who is below their children. -/
structure Updated (n : ℕ) (live : ℕ → Prop) (k : ℕ → Procs) (trees : ℕ → RoutingTree) : Prop where
  update : ∀ v, live v → updateRoutingTree n (k v) v = some (trees v)
  spanning : SpanningLive live fun v => (trees v).view
  relatives : ∀ v, live v → ∀ c ∈ (trees v).children, ∀ j,
    j ∈ c.relatives ↔ Below (fun v => (trees v).view.next) c.vpid j

section Updated

variable [DecidablePred live]

theorem exists_updated (hzero : live 0) (hknows : ∀ v, live v → Knows n (k v) live) :
    ∃ trees, Updated n live k trees ∧ ∀ v, live v → IsChildren live v (trees v).children ∧
      (trees v).parent = if v = 0 then (0 : ℤ) else (liveParent live v : ℕ) := by
  have hupdate : ∀ v, live v → ∃ cs, updateRoutingTree n (k v) v =
      some ⟨if v = 0 then 0 else (liveParent live v : ℕ), cs⟩ ∧ IsChildren live v cs :=
    fun v hv => (hknows v hv).update_eq ((hknows v hv).live_lt hv)
  choose! cs hupdate hcs using hupdate
  have hnext (v : ℕ) (hv : live v) (c : ℕ) := (hcs v hv).mem c
  have htree := liveTree_of_next hzero hnext
  refine ⟨fun v => ⟨if v = 0 then 0 else (liveParent live v : ℕ), cs v⟩, ⟨hupdate, ?_, ?_⟩,
    fun v hv => ⟨hcs v hv, rfl⟩⟩
  · refine htree.spanningLive (fun v _ => rfl) (fun v _ hne => ?_) fun v hv => (hcs v hv).nodup
    exact if_neg hne
  · intro v hv c hc j
    have hlive : live c.vpid := ((hnext v hv c.vpid).1 (mem_map.2 ⟨c, hc, rfl⟩)).1
    rw [(hcs v hv).relatives c hc]
    exact (below_iff_inSubtree hzero hnext hlive).symm

end Updated

section Stale

variable [DecidablePred live] {v c d : ℕ} {tree : RoutingTree}

/-- What is known about a tree that may be out of date. -/
structure Outdated (n : ℕ) (live live₀ : ℕ → Prop) [DecidablePred live] (v : ℕ)
    (tree : RoutingTree) : Prop where
  sub : ∀ u, live u → live₀ u
  lt : ∀ u, live₀ u → u < n
  children : IsChildren live₀ v tree.children
  parent : v ≠ 0 → live tree.parent.toNat → tree.parent.toNat = liveParent live v

theorem Computed.outdated (h : Computed n live v tree) (hzero : live 0) (hv : live v) :
    ∃ live₀ : ℕ → Prop, Outdated n live live₀ v tree := by
  classical
  obtain ⟨k₀, live₀, hknows, hsub, hupdate⟩ := h
  obtain ⟨cs, heq, hcs⟩ := hknows.update_eq (hknows.live_lt (hsub v hv))
  rw [heq] at hupdate
  obtain rfl := some.inj hupdate
  refine ⟨live₀, hsub, fun _ => hknows.live_lt, hcs, fun hne hlive => ?_⟩
  simp only [hne, if_false, Int.toNat_natCast] at hlive ⊢
  exact liveParent_anti hsub hzero hne hlive

variable {live₀ : ℕ → Prop} {daemon : Name}

theorem Outdated.searchChild_some (h : Outdated n live live₀ v tree) {child : Child}
    (hsome : searchChild daemon tree.children = some child) :
    Next live₀ v child.vpid ∧ InSubtree child.vpid daemon.vpid := by
  have hmem := mem_of_find?_eq_some hsome
  have hcond := find?_some hsome
  rw [decide_eq_true_eq] at hcond
  refine ⟨(h.children.mem child.vpid).1 (mem_map.2 ⟨child, hmem, rfl⟩), ?_⟩
  rcases hcond with heq | hrel
  · rw [heq]
    exact .refl _
  · exact ((h.children.relatives child hmem _).1 hrel).2.2

theorem Outdated.searchChild_none (h : Outdated n live live₀ v tree) (hzero : live 0) (hv : live v)
    (hd : live daemon.vpid) (hne : daemon.vpid ≠ v)
    (hnone : searchChild daemon tree.children = none) : ¬InSubtree v daemon.vpid := by
  classical
  intro hsub
  obtain ⟨c, hc, hcd⟩ := exists_next (h.sub 0 hzero) (h.sub v hv) (h.sub _ hd) hne hsub
  obtain ⟨child, hmem, rfl⟩ := mem_map.1 ((h.children.mem c).2 hc)
  have hcond := find?_eq_none.1 hnone child hmem
  rw [decide_eq_true_eq] at hcond
  refine hcond ?_
  by_cases heq : child.vpid = daemon.vpid
  · exact .inl heq
  · exact .inr ((h.children.relatives child hmem _).2 ⟨h.sub _ hd, Ne.symm heq, hcd⟩)

theorem Outdated.child_unique (h : Outdated n live live₀ v tree) {child child' : Child} {d : ℕ}
    (hc : child ∈ tree.children) (hc' : child' ∈ tree.children)
    (hd : InSubtree child.vpid d) (hd' : InSubtree child'.vpid d) : child.vpid = child'.vpid := by
  have hnext : ∀ {child : Child}, child ∈ tree.children → Next live₀ v child.vpid :=
    fun hmem => (h.children.mem _).1 (mem_map.2 ⟨_, hmem, rfl⟩)
  wlog hle : child.vpid.size ≤ child'.vpid.size
  · exact (this h hc' hc hd' hd hnext (not_le.1 hle).le).symm
  obtain ⟨hlive, hne, hsub, -⟩ := hnext hc
  exact (hnext hc').2.2.2 _ hlive hsub hne (hd.total hd' hle)

omit [DecidablePred live] in
theorem searchChild_dead (daemon : Name) {cs : List Child} (hcs : IsChildren live v cs)
    (hdead : ¬live daemon.vpid) :
    searchChild daemon cs = none := by
  rw [searchChild, find?_eq_none]
  intro child hmem hcond
  rw [decide_eq_true_eq] at hcond
  rcases hcond with heq | hrel
  · have hnext := (hcs.mem child.vpid).1 (mem_map.2 ⟨child, hmem, rfl⟩)
    exact hdead (heq ▸ hnext.1)
  · exact hdead ((hcs.relatives child hmem _).1 hrel).1

end Stale

section Routes

variable [DecidablePred live] {v d jobid : ℕ} {loc : ℕ → Local} {target : Name}
  {trees fresh : ℕ → RoutingTree}

/-- The daemons with the parents of their trees. -/
def withParent (loc : ℕ → Local) (trees : ℕ → RoutingTree) (v : ℕ) : Local :=
  { loc v with myParent := { (loc v).myParent with vpid := (trees v).parent.toNat } }

omit [DecidablePred live] in
theorem getRoute_eq (k : ℕ → Procs) (trees : ℕ → RoutingTree) (hjob : IsJob n jobid loc)
    (hosted : Hosted n jobid loc target d) (hv : v < n) (hne : v ≠ d) :
    getRoute n (k v) (loc v) (trees v) target = if (loc v).myHnp = target then
        some (some (if !(loc v).hnpDirect || (loc v).staticPorts then
          (withParent loc trees v).myParent else (loc v).myHnp), trees v)
      else (searchTree n (k v) (loc v) (n + 1) ⟨jobid, d, (loc v).myDaemon.epoch⟩ (trees v)).map
        fun x => (some x.1, x.2) := by
  have hjob' : IsJob n jobid (withParent loc trees) :=
    ⟨hjob.enabled, hjob.role_zero, hjob.role, hjob.jobid_eq, hjob.vpid_eq, hjob.hnp_eq,
      hjob.hnp_self, hjob.jobid_ne, hjob.le_wildcard⟩
  have hosted' : Hosted n jobid (withParent loc trees) target d :=
    ⟨hosted.lt, hosted.valid, hosted.single, hosted.family, hosted.daemon, hosted.self⟩
  have hlookup := hjob'.lookup_eq hosted' hv
  rw [if_neg hne] at hlookup
  change ({ loc v with myParent := { (loc v).myParent with vpid := (trees v).parent.toNat } } :
    Local).lookup target = _ at hlookup
  rw [getRoute, hlookup]
  by_cases hhnp : (loc v).myHnp = target
  · rw [if_pos hhnp, if_pos (show (withParent loc trees v).myHnp = target from hhnp)]
    rfl
  · rw [if_neg hhnp, if_neg (show (withParent loc trees v).myHnp ≠ target from hhnp)]
    rfl

omit [DecidablePred live] in
/-- The dead child is searched for in the new tree, where it is not. -/
theorem getRoute_dead (hknows : Knows n (k v) live) (hv : live v)
    (hupdate : updateRoutingTree n (k v) v = some (fresh v))
    (hchildren : IsChildren live v (fresh v).children) (hjob : IsJob n jobid loc)
    (hosted : Hosted n jobid loc target d) (hne : v ≠ d) (hhnp : (loc v).myHnp ≠ target)
    {child : Child} (hsearch :
      searchChild ⟨jobid, d, (loc v).myDaemon.epoch⟩ (trees v).children = some child)
    (heq : child.vpid ≠ d) (hcn : child.vpid < n) (hdead : ¬live child.vpid) :
    getRoute n (k v) (loc v) (trees v) target = some (some ((loc v).withVpid
      ⟨jobid, child.vpid, (loc v).myDaemon.epoch⟩ (fresh v).parent.toNat), fresh v) := by
  have hvn := hknows.live_lt hv
  have hrunning : (k v).isRunning child.vpid = false := by
    rw [← Bool.not_eq_true, hknows.running hcn]
    exact hdead
  obtain ⟨m, rfl⟩ : ∃ m, n = m + 1 := ⟨n - 1, by omega⟩
  have hnone := searchChild_dead ⟨jobid, child.vpid, (loc v).myDaemon.epoch⟩ hchildren hdead
  rw [getRoute_eq k trees hjob hosted hvn hne, if_neg hhnp, searchTree, hsearch]
  simp only
  rw [if_neg heq, hrunning, if_pos (by decide), hjob.vpid_eq v hvn, hupdate]
  simp only [bind_eq_bind, bind_some]
  rw [searchTree, hnone]
  rfl

theorem routes_stale (hknows : ∀ v, live v → Knows n (k v) live) (hzero : live 0)
    (hfresh : Updated n live k fresh) (hchildren : ∀ v, live v →
      IsChildren live v (fresh v).children ∧
        (fresh v).parent = if v = 0 then (0 : ℤ) else (liveParent live v : ℕ))
    (hcomputed : ∀ v, live v → Computed n live v (trees v)) (hpaths : PathsLive live trees)
    (hjob : IsJob n jobid loc) (hosted : Hosted n jobid loc target d) (hd : live d) :
    LiveTree.Routes live (liveParent live) (fun v => (fresh v).children.map (·.vpid)) d
      (fun a b => Hop n live k loc target (a, trees) (b, trees)) fun v => ∃ b, live b ∧
        Hop n live k loc target (v, trees) (b, Function.update trees v (fresh v)) ∧
          trees v ≠ fresh v := by
  intro v hv hne
  have hnext (v : ℕ) (hv : live v) (c : ℕ) := (hchildren v hv).1.mem c
  have hbelow {a : ℕ} (ha : live a) :
      Below (fun v => (fresh v).children.map (·.vpid)) a d ↔ live d ∧ d ≠ a ∧ InSubtree a d :=
    below_iff_inSubtree hzero hnext ha
  obtain ⟨live₀, hout⟩ := (hcomputed v hv).outdated hzero hv
  have hvn := (hknows v hv).live_lt hv
  have hroute := getRoute_eq k trees hjob hosted hvn hne
  have hself : update trees v (trees v) = trees := update_eq_self v trees
  have hparent : v ≠ 0 → live (liveParent live v) ∧ liveParent live v ≠ v :=
    fun hv0 => ⟨(liveParent_spec hzero hv0).1, (liveParent_lt hzero hv0).ne⟩
  by_cases hhnp : (loc v).myHnp = target
  · obtain rfl : 0 = d := by
      rw [← hosted.self (by rw [← hhnp, (hjob.hnp_eq v hvn).1]), ← hhnp, (hjob.hnp_eq v hvn).2]
    obtain ⟨hlive, hother⟩ := hparent hne
    rw [if_pos hhnp] at hroute
    refine .inr (.inl ⟨fun h => ?_, ?_⟩)
    · exact hne (Nat.le_zero.1 ((hbelow hv).1 h).2.2.le)
    · split_ifs at hroute
      · have heq := hout.parent hne (hpaths.parents v hv hne)
        exact .inl ⟨_, _, hroute, heq, hother, hlive, hself.symm⟩
      · exact .inr ⟨_, _, hroute, (hjob.hnp_eq v hvn).2, hne.symm, hzero, hself.symm⟩
  · rw [if_neg hhnp, searchTree] at hroute
    cases hsearch : searchChild ⟨jobid, d, (loc v).myDaemon.epoch⟩ (trees v).children with
    | none =>
      rw [hsearch] at hroute
      have hnot := hout.searchChild_none hzero hv hd hne.symm hsearch
      have hv0 : v ≠ 0 := by
        rintro rfl
        exact hnot (.zero d)
      obtain ⟨hlive, hother⟩ := hparent hv0
      have heq := hout.parent hv0 (hpaths.parents v hv hv0)
      exact .inr (.inl ⟨fun h => hnot ((hbelow hv).1 h).2.2,
        .inl ⟨_, _, hroute, heq, hother, hlive, hself.symm⟩⟩)
    | some child =>
      rw [hsearch] at hroute
      obtain ⟨hchild, hsub⟩ := hout.searchChild_some hsearch
      simp only at hroute hsub
      by_cases heq : child.vpid = d
      · rw [if_pos heq] at hroute
        have hmem : d ∈ (fresh v).children.map (·.vpid) :=
          (hnext v hv d).2 (heq ▸ hchild.anti hout.sub (heq ▸ hd))
        exact .inl ⟨d, hmem, .inl rfl, _, _, hroute, rfl, hne.symm, hd, hself.symm⟩
      · rw [if_neg heq] at hroute
        have hcn := hout.lt _ hchild.1
        by_cases hlive : live child.vpid
        · rw [(((hknows v hv).running hcn).2 hlive), if_neg (by decide)] at hroute
          refine .inl ⟨child.vpid, (hnext v hv _).2 (hchild.anti hout.sub hlive),
            .inr ((hbelow hlive).2 ⟨hd, Ne.symm heq, hsub⟩), _, _, hroute, rfl, ?_, hlive,
            hself.symm⟩
          exact hchild.2.1
        · have hv0 : v ≠ 0 := by
            rintro rfl
            have hmem := mem_of_find?_eq_some hsearch
            exact hpaths.root child hmem hlive d
              ((hout.children.relatives child hmem d).2 ⟨hout.sub d hd, Ne.symm heq, hsub⟩) hd
          have hdead := getRoute_dead (hknows v hv) hv (hfresh.update v hv) (hchildren v hv).1 hjob
            hosted hne hhnp hsearch heq hcn hlive
          obtain ⟨hplive, hother⟩ := hparent hv0
          have hfreshParent : (fresh v).parent.toNat = liveParent live v := by
            rw [(hchildren v hv).2, if_neg hv0, Int.toNat_natCast]
          refine .inr (.inr ⟨liveParent live v, hplive,
            ⟨_, _, hdead, hfreshParent, hother, hplive, rfl⟩, fun heq' => hlive ?_⟩)
          rw [← hout.children.mem, heq', hnext v hv] at hchild
          exact hchild.1

/-- The number of daemons whose tree is out of date. -/
def numOutdated (n : ℕ) (live : ℕ → Prop) [DecidablePred live]
    (trees fresh : ℕ → RoutingTree) : ℕ :=
  ((Finset.range n).filter fun v => live v ∧ trees v ≠ fresh v).card

theorem numOutdated_update_lt (hv : live v) (hlt : v < n) (hne : trees v ≠ fresh v) :
    numOutdated n live (update trees v (fresh v)) fresh < numOutdated n live trees fresh := by
  refine Finset.card_lt_card ⟨fun u hu => ?_, fun hsub => ?_⟩
  · rw [Finset.mem_filter] at hu ⊢
    refine ⟨hu.1, hu.2.1, fun heq => hu.2.2 ?_⟩
    by_cases huv : u = v
    · subst huv
      rw [update_self]
    · rw [update_of_ne huv, heq]
  · have hmem := hsub (Finset.mem_filter.2 ⟨Finset.mem_range.2 hlt, hv, hne⟩)
    rw [Finset.mem_filter, update_self] at hmem
    exact hmem.2.2 rfl

theorem PathsLive.update (h : PathsLive live trees) (hzero : live 0) {tree : RoutingTree}
    (hchildren : IsChildren live v tree.children)
    (hparent : tree.parent = if v = 0 then (0 : ℤ) else (liveParent live v : ℕ)) :
    PathsLive live (Function.update trees v tree) := by
  constructor
  · intro u hu hu0
    by_cases huv : u = v
    · subst huv
      rw [update_self, hparent, if_neg hu0, Int.toNat_natCast]
      exact (liveParent_spec hzero hu0).1
    · rw [update_of_ne huv]
      exact h.parents u hu hu0
  · by_cases hv : 0 = v
    · subst hv
      rw [update_self]
      intro child hchild hdead
      exact absurd ((hchildren.mem _).1 (mem_map.2 ⟨child, hchild, rfl⟩)).1 hdead
    · rw [update_of_ne hv]
      exact h.root

theorem routesLive_of_pathsLive (hknows : ∀ v, live v → Knows n (k v) live) (hzero : live 0)
    (hcomputed : ∀ v, live v → Computed n live v (trees v)) (hpaths : PathsLive live trees) :
    RoutesLive n live k trees := by
  obtain ⟨fresh, hfresh, hchildren⟩ := exists_updated hzero hknows
  have hnext (v : ℕ) (hv : live v) (c : ℕ) := (hchildren v hv).1.mem c
  have htree := liveTree_of_next hzero hnext
  intro jobid loc target d hjob hosted hd v hv
  -- each update leaves fewer trees that are out of date
  induction hm : numOutdated n live trees fresh using Nat.strong_induction_on
    generalizing trees v with
  | _ m ih =>
    obtain ⟨w, hpath, hw⟩ := htree.reaches (routes_stale hknows hzero hfresh hchildren hcomputed
      hpaths hjob hosted hd) hd hv
    have hpath' : ReflTransGen (Hop n live k loc target) (v, trees) (w, trees) :=
      hpath.lift (fun a => (a, trees)) fun _ _ h => h
    rcases hw with rfl | ⟨hw, b, hb, hhop, hne⟩
    · exact ⟨trees, hpath'⟩
    · have hlt := (hknows w hw).live_lt hw
      have hcomputed' : ∀ u, live u → Computed n live u (Function.update trees w (fresh w) u) := by
        intro u hu
        by_cases huw : u = w
        · subst huw
          rw [update_self]
          exact ⟨k u, live, hknows u hu, fun _ => id, hfresh.update u hu⟩
        · rw [update_of_ne huw]
          exact hcomputed u hu
      have hpaths' := hpaths.update hzero (hchildren w hw).1 (hchildren w hw).2
      obtain ⟨trees', hrest⟩ := ih _ (hm ▸ numOutdated_update_lt hw hlt hne) hcomputed' hpaths'
        b hb rfl
      exact ⟨trees', hpath'.trans (.head hhop hrest)⟩

/-- A job of daemons only. -/
def plainLocal (v : ℕ) : Local where
  routingIsEnabled := true
  role := if v = 0 then .hnp else .daemon
  myName := ⟨0, v, 0⟩
  myDaemon := ⟨0, v, 0⟩
  myHnp := ⟨0, 0, 0⟩
  myParent := ⟨0, 0, 0⟩
  hnpDirect := false
  staticPorts := false
  jobfams := []
  procGetDaemon target := some target.vpid
  procGetEpoch _ := 0

theorem isJob_plainLocal (hn : n ≤ wildcard) : IsJob n 0 plainLocal where
  enabled _ _ := rfl
  role_zero := rfl
  role _ _ hne := if_neg hne
  jobid_eq _ _ := rfl
  vpid_eq _ _ := rfl
  hnp_eq _ _ := ⟨rfl, rfl⟩
  hnp_self := rfl
  jobid_ne := by decide
  le_wildcard := hn

theorem hosted_plainLocal (hd : d < n) (hn : n ≤ wildcard) : Hosted n 0 plainLocal ⟨0, d, 0⟩ d where
  lt := hd
  valid := ⟨Nat.zero_ne_add_one _, (hd.trans_le (hn.trans (by decide))).ne,
    Nat.zero_ne_add_one _⟩
  single := ⟨Nat.zero_ne_add_one _, (hd.trans_le hn).ne⟩
  family := rfl
  daemon _ _ := rfl
  self _ := rfl

omit [DecidablePred live] in
theorem parentsLive_of_routesLive (hzero : live 0) (hlt : ∀ v, live v → v < n) (hn : n ≤ wildcard)
    (h : RoutesLive n live k trees) (hv : live v) (hne : v ≠ 0) :
    live (trees v).parent.toNat := by
  have hosted := hosted_plainLocal (hlt 0 hzero) hn
  obtain ⟨trees', hpath⟩ := h 0 plainLocal ⟨0, 0, 0⟩ 0 (isJob_plainLocal hn) hosted hzero v hv
  rcases hpath.cases_head with heq | ⟨y, ⟨name, tree, hroute, hname, -, hlive, -⟩, -⟩
  · exact absurd (congrArg Prod.fst heq) hne
  · rw [getRoute_eq k trees (isJob_plainLocal hn) hosted (hlt v hv) hne,
      if_pos (show (plainLocal v).myHnp = ⟨0, 0, 0⟩ from rfl)] at hroute
    obtain ⟨heq, -⟩ := Prod.mk.inj (some.inj hroute)
    obtain rfl := some.inj heq
    rw [← hname] at hlive
    exact hlive

/-- A message for a daemon below a dead child of the daemon `0` is sent back to the daemon `0`. -/
theorem rootLive_of_routesLive (hzero : live 0) (hknows : ∀ v, live v → Knows n (k v) live)
    (hcomputed : Computed n live 0 (trees 0)) (hn : n ≤ wildcard)
    (h : RoutesLive n live k trees) {child : Child} (hchild : child ∈ (trees 0).children)
    (hdead : ¬live child.vpid) (hd : d ∈ child.relatives) : ¬live d := by
  intro hlive
  obtain ⟨fresh, hfresh, hchildren⟩ := exists_updated hzero hknows
  obtain ⟨live₀, hout⟩ := hcomputed.outdated hzero hzero
  obtain ⟨-, hne, hsub⟩ := (hout.children.relatives child hchild d).1 hd
  have hnext := (hout.children.mem child.vpid).1 (mem_map.2 ⟨child, hchild, rfl⟩)
  have hd0 : 0 ≠ d := by
    rintro rfl
    exact hnext.2.1 (Nat.le_zero.1 hsub.le)
  have hdn := (hknows d hlive).live_lt hlive
  have hosted := hosted_plainLocal hdn hn
  have hhnp : (plainLocal 0).myHnp ≠ ⟨0, d, 0⟩ := fun heq => hd0 (congrArg Name.vpid heq)
  obtain ⟨trees', hpath⟩ := h 0 plainLocal ⟨0, d, 0⟩ d (isJob_plainLocal hn) hosted hlive 0 hzero
  rcases hpath.cases_head with heq | ⟨y, ⟨name, tree, hroute, hname, hother, -⟩, -⟩
  · exact hd0 (congrArg Prod.fst heq)
  · cases hsearch : searchChild ⟨0, d, (plainLocal 0).myDaemon.epoch⟩ (trees 0).children with
    | none =>
      apply find?_eq_none.1 hsearch child hchild
      exact decide_eq_true (.inr hd)
    | some child' =>
      have hmem := mem_of_find?_eq_some hsearch
      have hsame := hout.child_unique hmem hchild (hout.searchChild_some hsearch).2 hsub
      have hdead' : ¬live child'.vpid := hsame ▸ hdead
      have hne' : child'.vpid ≠ d := fun heq => hdead' (heq ▸ hlive)
      have hcn : child'.vpid < n := hsame ▸ hout.lt _ hnext.1
      rw [getRoute_dead (hknows 0 hzero) hzero (hfresh.update 0 hzero) (hchildren 0 hzero).1
        (isJob_plainLocal hn) hosted hd0 hhnp hsearch hne' hcn hdead'] at hroute
      obtain ⟨heq, -⟩ := Prod.mk.inj (some.inj hroute)
      obtain rfl := some.inj heq
      apply hother
      rw [← hname]
      change (fresh 0).parent.toNat = 0
      rw [(hchildren 0 hzero).2, if_pos rfl]
      rfl

/-- After an update the live daemons agree on one tree. With the trees of earlier updates the routes
lead through live daemons to the target exactly when the parents in these trees are live, and no
live daemon is below a dead child of the daemon `0`. -/
theorem binomial_routes (hn : n < 2 ^ 31) (hzero : live 0)
    (hknows : ∀ v, live v → Knows n (k v) live)
    (hcomputed : ∀ v, live v → Computed n live v (trees v)) :
    ((∃ fresh, Updated n live k fresh) ∧ RoutesLive n live k trees) ↔ PathsLive live trees := by
  constructor
  · rintro ⟨-, h⟩
    have hn' : n ≤ wildcard := hn.le.trans (by decide)
    constructor
    · exact fun v => parentsLive_of_routesLive hzero (fun v hv => (hknows v hv).live_lt hv) hn' h
    · intro child hchild hdead d hd
      exact rootLive_of_routesLive hzero hknows (hcomputed 0 hzero) hn' h hchild hdead hd
  · intro h
    obtain ⟨fresh, hfresh, -⟩ := exists_updated hzero hknows
    exact ⟨⟨fresh, hfresh⟩, routesLive_of_pathsLive hknows hzero hcomputed h⟩

end Routes

section Example

def procsExcept (dead : ℕ) : Procs where
  isRunning v := v ≠ dead
  epoch v := if v = dead then 1 else 0

theorem knows_procsExcept {n dead : ℕ} (hn : 0 < n) (hdead : dead ≠ 0) :
    Knows n (procsExcept dead) fun v => v < n ∧ v ≠ dead where
  live_zero := ⟨hn, hdead.symm⟩
  live_lt h := h.1
  running {v} hv := by simp [procsExcept, hv]
  epoch {v} hv h := by
    obtain rfl : v = dead := by
      by_contra hne
      exact h ⟨hv, hne⟩
    simp [procsExcept, invalid]

/-- The trees of four daemons that are all live. -/
def fullTree (v : ℕ) : RoutingTree := (updateRoutingTree 4 (procsExcept 4) v).getD ⟨0, []⟩

theorem computed_fullTree (dead : ℕ) :
    ∀ v, (v < 4 ∧ v ≠ dead) → Computed 4 (fun v => v < 4 ∧ v ≠ dead) v (fullTree v) := by
  rintro v ⟨hv, -⟩
  refine ⟨procsExcept 4, fun v => v < 4 ∧ v ≠ 4, knows_procsExcept (by decide) (by decide),
    fun u hu => ⟨hu.1, by omega⟩, ?_⟩
  have hupdate : ∀ v < 4, updateRoutingTree 4 (procsExcept 4) v = some (fullTree v) := by decide
  exact hupdate v hv

/-- The daemon `3` is a leaf, and its death leaves the parents live. -/
theorem binomial_routes_leaf :
    RoutesLive 4 (fun v => v < 4 ∧ v ≠ 3) (fun _ => procsExcept 3) fullTree := by
  refine ((binomial_routes (by decide) (by decide)
    (fun _ _ => knows_procsExcept (by decide) (by decide)) (computed_fullTree 3)).2 ?_).2
  have hparents : ∀ v < 4, v ≠ 3 → v ≠ 0 → (fullTree v).parent.toNat < 4 ∧
      (fullTree v).parent.toNat ≠ 3 := by decide
  have hroot : ∀ child ∈ (fullTree 0).children, child.vpid < 4 ∧ child.vpid ≠ 3 := by decide
  exact ⟨fun v hv hne => hparents v hv.1 hv.2 hne, fun child hchild hdead =>
    absurd (hroot child hchild) hdead⟩

/-- When the daemon `1` is dead, the daemon `3` still sends to it. -/
theorem not_routesLive_inner : Knows 4 (procsExcept 1) (fun v => v < 4 ∧ v ≠ 1) ∧
    (∀ v, (v < 4 ∧ v ≠ 1) → Computed 4 (fun v => v < 4 ∧ v ≠ 1) v (fullTree v)) ∧
    ¬RoutesLive 4 (fun v => v < 4 ∧ v ≠ 1) (fun _ => procsExcept 1) fullTree := by
  refine ⟨knows_procsExcept (by decide) (by decide), computed_fullTree 1, fun h => ?_⟩
  have hlive := parentsLive_of_routesLive (v := 3) (by decide) (fun v hv => hv.1) (by decide) h
    (by decide) (by decide)
  have hparent : (fullTree 3).parent.toNat = 1 := by decide
  exact hlive.2 hparent

end Example

end Binomial

end Routed

end Ulfm
