import Ulfm.Rbcast.Simulation

/-!
# The broadcast reaches every live process

As long as fewer processes have died than a process has neighbours, the live
processes are connected in the binomial graph, and a flood that has come to rest has
reached them all.
-/

open scoped Pointwise

namespace Ulfm

open List Function Option

namespace Rbcast

variable {groups : CommGroups ProcName} {tok : Msg} {w w₀ : World} {p : ProcName}
  {events : List Event}

section Start

/-- A communicator that all its processes have, before the broadcast of `tok`. Other
fragments may be on their way; the epoch tells those of an earlier communicator with
this context id from those of `tok`. -/
structure Fresh (groups : CommGroups ProcName) (tok : Msg) (w : World) : Prop where
  nonempty : Nonempty groups
  type_world : ∀ proc, tok.type = .failurePropagate proc → tok.cid = 0
  handle : ∀ p ∈ members groups, ∃ comm,
    (w.procs p).comms tok.cid = some comm ∧ IsHandle groups tok p comm
  apart : ∀ p ∉ members groups, ∀ comm, (w.procs p).comms tok.cid = some comm →
    comm.contextId = tok.cid → comm.epoch = tok.epoch → ∀ q ∈ comm.bmgPeers, q ∉ members groups
  world : ∀ p comm, (w.procs p).comms 0 = some comm → comm.contextId = 0
  clear : ∀ p ∈ members groups, (w.procs p).hasTaken tok = false
  wire : ∀ packet ∈ w.wire, packet.msg ≠ tok ∧
    ∀ proc, packet.msg.type = .failurePropagate proc → packet.msg.cid = 0
  log : w.log = []

theorem Fresh.tracks (h : Fresh groups tok w) : Tracks groups tok w where
  handle := h.handle
  apart := h.apart
  world := h.world
  flag p hp := by simp [h.clear p hp, project, h.log]
  sides packet hpacket hmsg := absurd hmsg (h.wire packet hpacket).1
  failures packet hpacket := (h.wire packet hpacket).2

theorem Fresh.spreading (h : Fresh groups tok w) :
    Flood.Spreading (peersOf groups) (project groups tok w) := by
  have hwire : w.wire.filterMap (copyOf groups tok) = [] := by
    rw [filterMap_eq_nil_iff]
    intro packet hpacket
    exact if_neg fun hcopy => (h.wire packet hpacket).1 hcopy.1
  refine ⟨?_, ?_, ?_⟩
  · simp [project, h.log]
  · simp [project, h.log]
  · simp [project, h.log, hwire]

/-- The event by which a process starts the broadcast of `tok`. -/
def Event.Starts (tok : Msg) (p : ProcName) : Event → Prop
  | .revoke q cid _ => q = p ∧ tok.type = .revoke ∧ cid = tok.cid
  | .markFailed q proc _ => q = p ∧ tok.type = .failurePropagate proc
  | _ => False

theorem Along.tracks_spreading (h₀ : Fresh groups tok w₀)
    (hsend : Along World.step (fun w e => e.Transported w) w₀ events) :
    Tracks groups tok (events.foldl World.step w₀) ∧
      Flood.Spreading (peersOf groups) (project groups tok (events.foldl World.step w₀)) := by
  refine Along.invariant
    (I := fun w => Tracks groups tok w ∧ Flood.Spreading (peersOf groups) (project groups tok w))
    (fun w e h he => ⟨h.1.step h₀.nonempty h₀.type_world e, ?_⟩) ⟨h₀.tracks, h₀.spreading⟩ hsend
  exact h.2.run (project_step h₀.nonempty h₀.type_world h.1 he)

def World.Extends (w' w : World) : Prop :=
  (∀ p ∈ w.dead, p ∈ w'.dead) ∧ ∀ note ∈ w.log, note ∈ w'.log

theorem extends_refl (w : World) : w.Extends w := ⟨fun _ h => h, fun _ h => h⟩

section Extends

variable (rbcast : (ProcName → SendStatus) → Comm → List ProcName × SendStatus)

theorem extends_run (w : World) (p : ProcName) (send : ProcName → SendStatus)
    (result : Proc × Option (Comm × Msg)) : (w.run rbcast p send result).Extends w :=
  ⟨fun _ h => by rwa [run_dead], fun _ h => (mem_run_log ..).mpr (.inr h)⟩

theorem extends_stepWith (w : World) (e : Event) : (w.stepWith rbcast e).Extends w := by
  cases e with
  | revoke p cid send | markFailed p proc send =>
    simp only [World.stepWith]
    split_ifs
    · exact extends_refl w
    · exact extends_run rbcast w p send _
  | deliver k send =>
    simp only [World.stepWith]
    split
    · exact extends_refl w
    · next packet hk =>
        split_ifs
        · exact extends_refl w
        · obtain ⟨hdead, hlog⟩ := extends_run rbcast (w.arrived k packet) packet.dst send
            ((w.procs packet.dst).recvCb packet.msg)
          exact ⟨hdead, fun note h => hlog note (mem_cons_of_mem _ h)⟩
  | lose k =>
    simp only [World.stepWith]
    split
    · exact extends_refl w
    · split_ifs
      · exact extends_refl w
      · exact extends_refl w
  | crash p => exact ⟨fun _ h => Finset.mem_insert_of_mem h, fun _ h => h⟩

theorem extends_foldl (w : World) (events : List Event) :
    (events.foldl (World.stepWith rbcast) w).Extends w := by
  induction events generalizing w with
  | nil => exact extends_refl w
  | cons e events ih =>
    obtain ⟨hdead, hlog⟩ := ih (w.stepWith rbcast e)
    obtain ⟨hdead', hlog'⟩ := extends_stepWith rbcast w e
    exact ⟨fun p h => hdead p (hdead' p h), fun note h => hlog note (hlog' note h)⟩

theorem hasTaken_of_starts {comm : Comm} (hcomm : (w.procs p).comms tok.cid = some comm)
    (hhandle : IsHandle groups tok p comm)
    (htok : ∀ proc, tok.type = .failurePropagate proc → tok.cid = 0)
    (hlive : p ∉ w.dead) {e : Event} (he : e.Starts tok p) :
    ((w.stepWith rbcast e).procs p).hasTaken tok = true := by
  have htaken := (callback_takes hcomm).2
  cases e with
  | revoke q cid send =>
    obtain ⟨rfl, htype, rfl⟩ := he
    rw [htype] at htaken
    simp only [World.stepWith, if_neg hlive, run_procs, update_self, Proc.revoke, hcomm]
    rw [if_neg (not_not.mpr hhandle.cid_eq)]
    exact htaken
  | markFailed q proc send =>
    obtain ⟨rfl, htype⟩ := he
    rw [htok proc htype] at hcomm
    rw [htype] at htaken
    simp only [World.stepWith, if_neg hlive, run_procs, update_self, Proc.failurePropagate, hcomm]
    exact htaken
  | deliver k send | lose k | crash q => exact he.elim

/-- A live process that starts the broadcast has its effect, as an invariant says which
processes have taken the message. -/
theorem effect_mem_of_starts {I : World → Prop} {cond : World → Event → Prop}
    (hstep : ∀ w e, I w → cond w e → I (w.stepWith rbcast e))
    (hhandle : ∀ w, I w → ∃ comm, (w.procs p).comms tok.cid = some comm ∧
      IsHandle groups tok p comm)
    (hflag : ∀ w, I w → (w.procs p).hasTaken tok = true → .effect p tok ∈ w.log)
    (htok : ∀ proc, tok.type = .failurePropagate proc → tok.cid = 0) (h : I w)
    (hrun : Along (World.stepWith rbcast) cond w events)
    (hlive : p ∉ (events.foldl (World.stepWith rbcast) w).dead)
    (hstart : ∃ e ∈ events, e.Starts tok p) :
    .effect p tok ∈ (events.foldl (World.stepWith rbcast) w).log := by
  induction events generalizing w with
  | nil => simp at hstart
  | cons e events ih =>
    rw [foldl_cons] at hlive ⊢
    have h' := hstep w e h hrun.1
    obtain ⟨e', he', hstart⟩ := hstart
    rcases mem_cons.mp he' with rfl | he'
    · have hlive' : p ∉ w.dead := fun hd =>
        hlive ((extends_foldl rbcast _ events).1 p ((extends_stepWith rbcast w e').1 p hd))
      obtain ⟨comm, hcomm, hh⟩ := hhandle w h
      have htaken := hasTaken_of_starts rbcast hcomm hh htok hlive' hstart
      exact (extends_foldl rbcast _ events).2 _ (hflag _ h' htaken)
    · exact ih h' hrun.2 hlive ⟨e', he', hstart⟩

end Extends

theorem mem_marks_iff {p : ProcName} (hp : p ∈ members groups) :
    p ∈ (project groups tok w).marks ↔ .effect p tok ∈ w.log := by
  simp only [project, mem_filterMap]
  constructor
  · rintro ⟨note, hnote, hmark⟩
    cases note with
    | effect q msg =>
      simp only [markOf] at hmark
      split_ifs at hmark with heq
      obtain rfl := Option.some.inj hmark
      rw [← heq.1]
      exact hnote
    | arrival packet => cases hmark
  · intro hlog
    exact ⟨_, hlog, if_pos ⟨rfl, hp⟩⟩

end Start

section Connected

/-- The vertex of the binomial graph at which a process stands. -/
def vertex (groups : CommGroups ProcName) (p : ProcName) : ZMod (members groups).length :=
  ((members groups).idxOf p : ℕ)

variable [NeZero (members groups).length]

def procAt (groups : CommGroups ProcName) [NeZero (members groups).length]
    (i : ZMod (members groups).length) : ProcName :=
  (members groups).get ⟨i.val, ZMod.val_lt i⟩

theorem procAt_mem (i : ZMod (members groups).length) : procAt groups i ∈ members groups :=
  List.get_mem _ _

theorem procAt_vertex (hp : p ∈ members groups) : procAt groups (vertex groups p) = p := by
  have hlt := idxOf_lt_length_iff.mpr hp
  simp [procAt, vertex, ZMod.val_cast_of_lt hlt]

theorem procAt_injective : Function.Injective (procAt groups) := by
  intro i j hij
  have := (nodup_members groups).injective_get hij
  exact ZMod.val_injective _ (Fin.mk.inj this)

theorem procAt_add_mem_peersOf (i : ZMod (members groups).length) {o : ℕ}
    (ho : o ∈ binomialOffsets (members groups).length) :
    procAt groups (i + o) ∈ peersOf groups (procAt groups i) := by
  have hidx : (members groups).idxOf (procAt groups i) = i.val :=
    (nodup_members groups).idxOf_getElem i.val (ZMod.val_lt i)
  have hval : (i + (o : ZMod (members groups).length)).val =
      (i.val + o) % (members groups).length := by
    rw [ZMod.val_add, ZMod.val_natCast, Nat.add_mod_mod]
  refine mem_filterMap.mpr ⟨(i.val + o) % (members groups).length, ?_, ?_⟩
  · rw [hidx]
    exact mem_bmgIndices_iff_offset.mpr ⟨o, ho, rfl⟩
  · rw [← hval, getElem?_eq_getElem (ZMod.val_lt _)]
    rfl

theorem mem_of_closed (marked dead : ProcName → Prop) [DecidablePred marked] [DecidablePred dead]
    (hclosed : ∀ q ∈ members groups, marked q → ¬ dead q → ∀ r ∈ peersOf groups q,
      dead r ∨ marked r)
    (hdead : ((members groups).filter dead).length < (binomialOffsets (members groups).length).card)
    (hp : p ∈ members groups) (hmark : marked p) (hlive : ¬ dead p) {q : ProcName}
    (hq : q ∈ members groups) (hqlive : ¬ dead q) : marked q := by
  let A : Finset (ZMod (members groups).length) :=
    Finset.univ.filter fun i => marked (procAt groups i) ∧ ¬ dead (procAt groups i)
  let D : Finset (ZMod (members groups).length) :=
    Finset.univ.filter fun i => dead (procAt groups i)
  have hA : ∀ i, i ∈ A ↔ marked (procAt groups i) ∧ ¬ dead (procAt groups i) := by simp [A]
  have hD : ∀ i, i ∈ D ↔ dead (procAt groups i) := by simp [D]
  have hcard : D.card ≤ ((members groups).filter dead).length := by
    refine le_trans ?_ (toFinset_card_le _)
    refine Finset.card_le_card_of_injOn (procAt groups) (fun i hi => ?_)
      procAt_injective.injOn
    simpa [procAt_mem] using (hD i).mp hi
  have hne : A.Nonempty := ⟨vertex groups p,
    (hA _).mpr (by rw [procAt_vertex hp]; exact ⟨hmark, hlive⟩)⟩
  have hsteps : A + binomialSteps (members groups).length ⊆ A ∪ D := by
    intro x hx
    obtain ⟨i, hi, k, hk, rfl⟩ := Finset.mem_add.mp hx
    rcases Finset.mem_insert.mp hk with rfl | hk
    · rw [add_zero]
      exact Finset.mem_union_left D hi
    · obtain ⟨o, ho, rfl⟩ := Finset.mem_image.mp hk
      obtain ⟨hmarked, halive⟩ := (hA i).mp hi
      by_cases hd : dead (procAt groups (i + o))
      · exact Finset.mem_union_right A ((hD _).mpr hd)
      · refine Finset.mem_union_left D ((hA _).mpr ⟨?_, hd⟩)
        exact (hclosed _ (procAt_mem i) hmarked halive _
          (procAt_add_mem_peersOf i ho)).resolve_left hd
  have huniv := binomialGraph_connected hne hsteps (hcard.trans_lt hdead)
  have hmem : vertex groups q ∈ A ∪ D := huniv ▸ Finset.mem_univ _
  rcases Finset.mem_union.mp hmem with hmem | hmem
  · rw [hA, procAt_vertex hq] at hmem
    exact hmem.1
  · rw [hD, procAt_vertex hq] at hmem
    exact absurd hmem hqlive

end Connected

section Reliable

/-- The copies of the token that have come to a process of the communicator. -/
def arrivals (groups : CommGroups ProcName) (tok : Msg) (w : World) : ℕ :=
  (w.log.filterMap (arrivalOf groups tok)).length

theorem count_effect_le (hp : p ∈ members groups) (log : List Note) :
    log.count (.effect p tok) ≤ (log.filterMap (markOf groups tok)).count p := by
  induction log with
  | nil => exact Nat.le_refl 0
  | cons note log ih =>
    by_cases heq : note = .effect p tok
    · subst heq
      have hmark : markOf groups tok (.effect p tok) = some p := if_pos ⟨rfl, hp⟩
      rw [count_cons_self, filterMap_cons_some hmark, count_cons_self]
      omega
    · rw [count_cons_of_ne heq]
      refine ih.trans (List.Sublist.count_le p ?_)
      exact (sublist_cons_self note log).filterMap _

theorem Tracks.index_eq (hne : Nonempty groups) (h : Tracks groups tok w)
    (hp : p ∈ members groups) {comm : Comm} (hcomm : (w.procs p).comms tok.cid = some comm) :
    (∀ idx, procOfIndex comm.toCommGroups idx = procOfIndex groups idx) ∧
      procOfIndex groups comm.me = some p := by
  obtain ⟨own, hown, hhandle⟩ := h.handle p hp
  rw [hcomm, some_inj] at hown
  subst hown
  have hmembers := hhandle.members_eq hne
  refine ⟨fun idx => by rw [procOfIndex_eq, procOfIndex_eq, hmembers], ?_⟩
  rw [procOfIndex_eq, ← hmembers]
  exact getElem?_me hhandle.rank_eq

theorem arrivals_deliver {k : ℕ} {packet : Packet} {send : ProcName → SendStatus}
    (hk : w.wire[k]? = some packet) (hcopy : (copyOf groups tok packet).isSome)
    (hlive : packet.dst ∉ w.dead) :
    arrivals groups tok (w.step (.deliver k send)) = arrivals groups tok w + 1 := by
  obtain ⟨c, hc⟩ := isSome_iff_exists.mp hcopy
  have hrun : ∀ result,
      arrivals groups tok ((w.arrived k packet).run rbcastBmg packet.dst send result) =
        arrivals groups tok (w.arrived k packet) := by
    intro result
    rw [World.run]
    split
    · rfl
    · rfl
  have hstep : w.step (.deliver k send) = (w.arrived k packet).run rbcastBmg packet.dst send
      ((w.procs packet.dst).recvCb packet.msg) := by
    simp [World.step, World.stepWith, hk, hlive, World.arrived]
  rw [hstep, hrun]
  simp [arrivals, World.arrived, arrivalOf, hc]

/-- The reliable broadcast. In every run in which the transport does its part,
whatever the order of the events:

* the processes of the communicator all number its processes alike;
* each of them executes the callback with effect, and then forwards, at most once;
* a delivery to a live process is one of a bounded number, so that after finitely
  many of them nothing is on its way between live processes;
* and then, if a live process has started the broadcast and fewer processes have died
  than a process has different neighbours, each live process has executed the
  callback. -/
theorem rbcast_bmg_reliable (h₀ : Fresh groups tok w₀)
    (hsend : Along World.step (fun w e => e.Transported w) w₀ events) :
    (∀ p ∈ members groups, ∀ comm,
      ((events.foldl World.step w₀).procs p).comms tok.cid = some comm →
      (∀ idx, procOfIndex comm.toCommGroups idx = procOfIndex groups idx) ∧
        procOfIndex groups comm.me = some p) ∧
    (∀ p ∈ members groups, (events.foldl World.step w₀).log.count (.effect p tok) ≤ 1) ∧
    (arrivals groups tok (events.foldl World.step w₀) ≤
      size groups * (bmgIndices (size groups) 0 (size groups) 1).length) ∧
    (∀ k packet send, (events.foldl World.step w₀).wire[k]? = some packet →
      (copyOf groups tok packet).isSome → packet.dst ∉ (events.foldl World.step w₀).dead →
      arrivals groups tok ((events.foldl World.step w₀).step (.deliver k send)) =
        arrivals groups tok (events.foldl World.step w₀) + 1) ∧
    ∀ me, ((members groups).filter (· ∈ (events.foldl World.step w₀).dead)).length <
        (bmgIndices (size groups) me (size groups) 1).toFinset.card →
      ∀ p ∈ members groups, p ∉ (events.foldl World.step w₀).dead →
      (∃ e ∈ events, e.Starts tok p) →
      (∀ packet ∈ (events.foldl World.step w₀).wire, (copyOf groups tok packet).isSome →
        packet.src ∈ (events.foldl World.step w₀).dead ∨
          packet.dst ∈ (events.foldl World.step w₀).dead) →
      ∀ q ∈ members groups, q ∉ (events.foldl World.step w₀).dead →
        .effect q tok ∈ (events.foldl World.step w₀).log ∧
          ((events.foldl World.step w₀).procs q).hasTaken tok = true := by
  obtain ⟨htracks, hspread⟩ := Along.tracks_spreading h₀ hsend
  have hstarted : ∀ p ∈ members groups, p ∉ (events.foldl World.step w₀).dead →
      (∃ e ∈ events, e.Starts tok p) → .effect p tok ∈ (events.foldl World.step w₀).log :=
    fun p hp hlive hstart => effect_mem_of_starts rbcastBmg (I := Tracks groups tok)
      (fun _ e h _ => h.step h₀.nonempty h₀.type_world e) (fun _ h => h.handle p hp)
      (fun _ h htaken => by rwa [h.flag p hp, mem_marks_iff hp] at htaken) h₀.type_world h₀.tracks
      hsend hlive hstart
  generalize events.foldl World.step w₀ = w at htracks hspread hstarted ⊢
  refine ⟨fun p hp comm hcomm => htracks.index_eq h₀.nonempty hp hcomm, fun p hp => ?_, ?_,
    fun k packet send hk hcopy hlive => arrivals_deliver hk hcopy hlive, ?_⟩
  · exact (count_effect_le hp w.log).trans (nodup_iff_count_le_one.mp hspread.nodup p)
  · rw [size_eq_length]
    refine hspread.taken_le (fun p hp => ?_) fun p _ => ?_
    · obtain ⟨note, -, hmark⟩ := mem_filterMap.mp hp
      cases note with
      | effect q msg =>
        simp only [markOf] at hmark
        split_ifs at hmark with heq
        obtain rfl := Option.some.inj hmark
        exact heq.2
      | arrival packet => cases hmark
    · rw [← size_eq_length]
      exact length_peersOf_le groups p
  · intro me hdead p hp hlive hstart hquiet q hq hqlive
    rw [card_bmgIndices, size_eq_length] at hdead
    have hquiet' : (project groups tok w).Quiet := by
      intro c hc
      obtain ⟨packet, hpacket, hcopy⟩ := mem_filterMap.mp (Multiset.mem_coe.mp hc)
      have hsome : (copyOf groups tok packet).isSome := by rw [hcopy]; rfl
      rw [copyOf] at hcopy
      split_ifs at hcopy
      obtain rfl := Option.some.inj hcopy
      exact hquiet packet hpacket hsome
    have : NeZero (members groups).length := ⟨(length_pos_of_mem hp).ne'⟩
    have hmark : q ∈ (project groups tok w).marks :=
      mem_of_closed (· ∈ (project groups tok w).marks) (· ∈ w.dead)
        (fun q _ hm hl r hr => hspread.closed hquiet' hm hl hr) hdead hp
        ((mem_marks_iff hp).mpr (hstarted p hp hlive hstart)) hlive hq hqlive
    exact ⟨(mem_marks_iff hq).mp hmark, (htracks.flag q hq).mpr hmark⟩

/-- An inter-communicator of one process and two processes of a job with a smaller
job id, as the single process has it. -/
def threeGroups : CommGroups ProcName where
  localGroup := ⟨[⟨1, 0⟩], by decide⟩
  remoteGroup := ⟨[⟨0, 0⟩, ⟨0, 1⟩], by decide⟩
  isInter := true
  remote_eq_local h := nomatch h
  disjoint _ := by decide

/-- The communicator at a process of `threeGroups`, under context id 4. -/
def threeComm (p : ProcName) : Comm where
  toCommGroups := viewOf threeGroups p
  rank := p.vpid
  contextId := 4
  epoch := 1
  anySourceEnabled := true
  collRevoked := false
  commRevoked := false

def threeWorld : World where
  procs p :=
    { comms := fun cid => if p ∈ members threeGroups ∧ cid = 4 then some (threeComm p) else none
      active := fun _ => true }
  dead := ∅
  wire := []
  log := []

/-- The answers of the transport after the process with virtual process id 1 has
died. -/
def threeSend (q : ProcName) : SendStatus := if q = ⟨0, 1⟩ then .unreach else .success

/-- The single process revokes the communicator after a process has died. -/
def threeEvents : List Event :=
  [.crash ⟨0, 1⟩, .revoke ⟨1, 0⟩ 4 threeSend, .deliver 0 threeSend, .deliver 0 threeSend]

theorem fresh_threeWorld : Fresh threeGroups ⟨4, 1, .revoke⟩ threeWorld where
  nonempty := ⟨cons_ne_nil _ _, cons_ne_nil _ _⟩
  type_world _ h := nomatch h
  handle p hp := by
    refine ⟨threeComm p, if_pos ⟨hp, rfl⟩, rfl, ?_, rfl, rfl⟩
    have hmembers : members threeGroups = [⟨0, 0⟩, ⟨0, 1⟩, ⟨1, 0⟩] := rfl
    rw [hmembers] at hp
    fin_cases hp <;> rfl
  apart p hp comm hcomm := by simp [threeWorld, hp] at hcomm
  world p comm hcomm := by simp [threeWorld] at hcomm
  clear p hp := by simp [threeWorld, Proc.hasTaken, hp, threeComm]
  wire packet h := nomatch h
  log := rfl

theorem rbcast_bmg_reliable_three :
    Note.effect ⟨0, 0⟩ ⟨4, 1, .revoke⟩ ∈ (threeEvents.foldl World.step threeWorld).log := by
  have hanswer : ∀ w : World, (⟨0, 1⟩ : ProcName) ∈ w.dead → ∀ q,
      threeSend q ≠ .outOfResource ∧ (q ∉ w.dead → threeSend q = .success) := by
    intro w hdead q
    by_cases hq : q = ⟨0, 1⟩
    · exact ⟨by simp [threeSend, hq], fun hlive => absurd (hq ▸ hdead) hlive⟩
    · exact ⟨by simp [threeSend, hq], fun _ => if_neg hq⟩
  have hsend : Along World.step (fun w e => e.Transported w) threeWorld threeEvents :=
    ⟨trivial, hanswer _ (by decide), hanswer _ (by decide), hanswer _ (by decide), trivial⟩
  obtain ⟨-, -, -, -, h⟩ := rbcast_bmg_reliable fresh_threeWorld hsend
  refine (h 0 (by decide) ⟨1, 0⟩ (by decide) (by decide) ?_ (by decide) ⟨0, 0⟩ (by decide)
    (by decide)).1
  exact ⟨_, mem_cons_of_mem _ mem_cons_self, rfl, rfl, rfl⟩

end Reliable

end Rbcast

end Ulfm
