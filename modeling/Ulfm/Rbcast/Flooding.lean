import Ulfm.Rbcast.Reliable

/-!
# Flooding

`ompi_comm_rbcast_n2`, which is used in the place of `ompi_comm_rbcast_bmg` when the
graph is switched off: a process sends the message to everybody. The loop over the two
groups of the communicator is left as soon as the group is not the local one, or is
the remote one too. In an intra-communicator, where they are one group, it is not
entered; in an inter-communicator it is run for the local group only.

A call reaches every process only if the group that is left out has no other active
process, and if that is so each time the message is sent on, every live process
receives it.
-/

namespace Ulfm

open List Function

namespace Rbcast

variable {groups : CommGroups ProcName} {tok : Msg} {w w₀ : World} {p q : ProcName}
  {events : List Event} {send : ProcName → SendStatus}

/-! ### The call -/

/-- The pointers `c_local_group` and `c_remote_group`. -/
inductive GroupPtr where
  | localGroup
  | remoteGroup
deriving DecidableEq

/-- Whether two of the pointers are equal. -/
def sameGroup (groups : CommGroups ProcName) (a b : GroupPtr) : Bool := a = b || !groups.isInter

def groupAt (groups : CommGroups ProcName) : GroupPtr → ProcGroup ProcName
  | .localGroup => groups.localGroup
  | .remoteGroup => groups.remoteGroup

/-- The outer loop of `ompi_comm_rbcast_n2`: the groups for which the inner one is run,
from `grp` on. -/
def n2Loop (groups : CommGroups ProcName) : ℕ → GroupPtr → List GroupPtr
  | 0, _ => []
  | rounds + 1, grp =>
    if sameGroup groups grp .localGroup && !sameGroup groups grp .remoteGroup then
      grp :: n2Loop groups rounds .remoteGroup
    else []

/-- The processes to which `ompi_comm_rbcast_n2` sends, in its order. -/
def Comm.n2Peers (comm : Comm) : List ProcName :=
  (n2Loop comm.toCommGroups 2 .localGroup).flatMap fun grp =>
    (groupAt comm.toCommGroups grp).procs.filter fun proc =>
      comm.localGroup.peerLookup comm.rank ≠ some proc

/-- `ompi_comm_rbcast_n2`. -/
def rbcastN2 (send : ProcName → SendStatus) (comm : Comm) : List ProcName × SendStatus :=
  sendMsgs send comm.n2Peers

theorem n2Peers_eq {comm : Comm} (hp : comm.localGroup.peerLookup comm.rank = some p) :
    comm.n2Peers = if comm.isInter then comm.localGroup.procs.filter (· ≠ p) else [] := by
  have hne : ∀ q : ProcName, decide (comm.localGroup.peerLookup comm.rank ≠ some q) =
      decide (q ≠ p) := by
    intro q
    rw [hp, decide_eq_decide, ne_eq, Option.some_inj]
    exact not_congr eq_comm
  cases hinter : comm.isInter with
  | false => simp [Comm.n2Peers, n2Loop, sameGroup, hinter]
  | true => simp [Comm.n2Peers, n2Loop, sameGroup, hinter, groupAt, hne]

theorem sendMsgs_notMem (h : send p ≠ .success) (procs : List ProcName) :
    p ∉ (sendMsgs send procs).1 := by
  induction procs with
  | nil => exact not_mem_nil
  | cons q procs ih =>
    rw [sendMsgs]
    cases hq : send q with
    | success =>
      refine fun hmem => (mem_cons.mp hmem).elim (fun heq => ?_) ih
      exact h (heq ▸ hq)
    | unreach => exact ih
    | outOfResource => exact not_mem_nil

/-- The message is sent once to every other process of both groups that can be reached. -/
def SendsToAll (send : ProcName → SendStatus) (comm : Comm) (me : ProcName) : Prop :=
  ∀ q, q ∈ comm.localGroup ∨ q ∈ comm.remoteGroup → q ≠ me → send q ≠ .unreach →
    (rbcastN2 send comm).1.count q = 1

/-- The group that the loop leaves out has no other process that can be reached, and
the transport has memory for the fragments to the other group. -/
def LeavesNobodyOut (send : ProcName → SendStatus) (comm : Comm) (me : ProcName) : Prop :=
  if comm.isInter then
    (∀ q ∈ comm.remoteGroup, send q = .unreach) ∧
      ∀ q ∈ comm.localGroup, q ≠ me → send q ≠ .outOfResource
  else ∀ q ∈ comm.localGroup, q ≠ me → send q = .unreach

theorem sendsToAll_iff {comm : Comm} {me : ProcName}
    (hme : comm.localGroup.peerLookup comm.rank = some me) :
    SendsToAll send comm me ↔ LeavesNobodyOut send comm me := by
  have hlocal : me ∈ comm.localGroup := ProcGroup.mem_iff_peerLookup.mpr ⟨_, hme⟩
  have hcount : ∀ q, (rbcastN2 send comm).1.count q = 1 → q ∈ (rbcastN2 send comm).1 :=
    fun q h => count_pos_iff.mp (by omega)
  unfold LeavesNobodyOut
  rw [rbcastN2, n2Peers_eq hme] at hcount
  unfold SendsToAll
  rw [rbcastN2, n2Peers_eq hme]
  cases hinter : comm.isInter with
  | false =>
    simp only [hinter, Bool.false_eq_true, if_false] at hcount ⊢
    constructor
    · intro h q hq hne
      by_contra hreach
      have := hcount q (h q (.inl hq) hne hreach)
      simp [sendMsgs] at this
    · intro h q hq hne hreach
      rw [comm.remote_eq_local hinter, or_self] at hq
      exact absurd (h q hq hne) hreach
  | true =>
    simp only [hinter, if_true] at hcount ⊢
    have hdisj := comm.disjoint hinter
    constructor
    · intro h
      refine ⟨fun q hq => ?_, fun q hq hne herr => ?_⟩
      · by_contra hreach
        have hne : q ≠ me := fun e => hdisj me hlocal (e ▸ hq)
        have hmem := (sendMsgs_sublist send _).subset
          (hcount q (h q (.inr hq) hne hreach))
        exact hdisj q (mem_filter.mp hmem).1 hq
      · refine sendMsgs_notMem (by rw [herr]; simp) _ (hcount q (h q (.inl hq) hne ?_))
        rw [herr]
        simp
    · rintro ⟨hremote, herr⟩ q hq hne hreach
      have hq : q ∈ comm.localGroup := hq.resolve_right fun hq => hreach (hremote q hq)
      have hsend : send q = .success := by
        have := herr q hq hne
        cases hs : send q with
        | success => rfl
        | unreach => exact absurd hs hreach
        | outOfResource => exact absurd hs this
      refine count_eq_one_of_mem ?_ (mem_sendMsgs_of_forall (fun r hr => ?_) ?_ hsend)
      · exact (sendMsgs_sublist send _).nodup (comm.localGroup.nodup.filter _)
      · obtain ⟨hr, hne⟩ := mem_filter.mp hr
        exact herr r hr (by simpa using hne)
      · exact mem_filter.mpr ⟨hq, by simpa using hne⟩

/-! ### Runs -/

namespace World

/-- `ompi_comm_rbcast` is `ompi_comm_rbcast_n2`. -/
def stepN2 (w : World) (e : Event) : World := w.stepWith rbcastN2 e

end World

open Rbcast.World

/-- A communicator that all its processes have, before the broadcast of `tok`. -/
structure Ready (groups : CommGroups ProcName) (tok : Msg) (w : World) : Prop where
  type_world : ∀ proc, tok.type = .failurePropagate proc → tok.cid = 0
  handle : ∀ p ∈ members groups, ∃ comm,
    (w.procs p).comms tok.cid = some comm ∧ IsHandle groups tok p comm
  world : ∀ p comm, (w.procs p).comms 0 = some comm → comm.contextId = 0
  clear : ∀ p ∈ members groups, (w.procs p).hasTaken tok = false
  failures : ∀ packet ∈ w.wire, ∀ proc, packet.msg.type = .failurePropagate proc →
    packet.msg.cid = 0
  log : w.log = []

/-- The invariant: from a live process that has the message, every other process of the
communicator is dead, or has it, or has a fragment on its way. -/
structure Floods (groups : CommGroups ProcName) (tok : Msg) (w : World) : Prop where
  handle : ∀ p ∈ members groups, ∃ comm,
    (w.procs p).comms tok.cid = some comm ∧ IsHandle groups tok p comm
  world : ∀ p comm, (w.procs p).comms 0 = some comm → comm.contextId = 0
  flag : ∀ p ∈ members groups, (w.procs p).hasTaken tok = true ↔ .effect p tok ∈ w.log
  failures : ∀ packet ∈ w.wire, ∀ proc, packet.msg.type = .failurePropagate proc →
    packet.msg.cid = 0
  covered : ∀ v ∈ members groups, .effect v tok ∈ w.log → v ∉ w.dead → ∀ u ∈ members groups, u ≠ v →
      u ∈ w.dead ∨ .effect u tok ∈ w.log ∨ (⟨v, u, tok⟩ : Packet) ∈ w.wire

/-- The processes of the group that the loop leaves out at a process, without itself. -/
def leftOut (groups : CommGroups ProcName) (p : ProcName) : List ProcName :=
  if groups.isInter then (viewOf groups p).remoteGroup.procs
  else groups.localGroup.procs.filter (· ≠ p)

/-- The event lets `p` take the message and send it on, if it has not done so. -/
def Event.Brings (tok : Msg) (p : ProcName) (w : World) (e : Event) : Prop :=
  e.Starts tok p ∨ ∃ k send packet, e = .deliver k send ∧ w.wire[k]? = some packet ∧
    packet.dst = p ∧ packet.msg = tok

/-- Whenever a process of the communicator sends the message on, the group that is left
out has no other live process. -/
def Event.Complete (groups : CommGroups ProcName) (tok : Msg) (w : World) (e : Event) : Prop :=
  ∀ p ∈ members groups, e.Brings tok p w → p ∉ w.dead → (w.procs p).hasTaken tok = false →
    ∀ q ∈ leftOut groups p, q ∈ w.dead

theorem mem_n2Peers_or_leftOut {comm : Comm} (h : IsHandle groups tok p comm)
    (hq : q ∈ members groups) (hne : q ≠ p) : q ∈ comm.n2Peers ∨ q ∈ leftOut groups p := by
  rw [n2Peers_eq h.rank_eq, leftOut, ← h.groups_eq]
  have hinter : comm.isInter = groups.isInter := by
    rw [h.groups_eq, viewOf]
    split_ifs
    · rfl
    · rfl
  have hmem : q ∈ comm.localGroup ∨ q ∈ comm.remoteGroup := by
    rw [h.groups_eq, viewOf]
    split_ifs
    · exact mem_members.mp hq
    · exact (mem_members.mp hq).symm
  rw [hinter]
  split_ifs with hi
  · refine hmem.imp (fun hq => mem_filter.mpr ⟨hq, by simpa using hne⟩) id
  · right
    have hq : q ∈ groups.localGroup := by
      have := mem_members.mp hq
      rwa [groups.remote_eq_local (by simpa using hi), or_self] at this
    exact mem_filter.mpr ⟨hq, by simpa using hne⟩

theorem Floods.run (h : Floods groups tok w) {s' : Proc} {out : Option (Comm × Msg)}
    (hres : Respects tok (w.procs p) s' out)
    (hsend : ∀ q, send q ≠ .outOfResource ∧ (q ∉ w.dead → send q = .success))
    (hout : p ∈ members groups → (∃ comm, out = some (comm, tok)) →
      (w.procs p).hasTaken tok = false → ∀ q ∈ leftOut groups p, q ∈ w.dead) :
    Floods groups tok (w.run rbcastN2 p send (s', out)) where
  handle q hq := by
    obtain ⟨comm, hcomm, hhandle⟩ := h.handle q hq
    by_cases hqp : q = p
    · subst hqp
      obtain ⟨comm', hcomm', heq⟩ := hres.slot_some hcomm
      exact ⟨comm', by rw [run_procs, update_self]; exact hcomm', hhandle.of_identity heq⟩
    · exact ⟨comm, by rw [run_procs, update_of_ne hqp]; exact hcomm, hhandle⟩
  world q comm' hcomm' := by
    rw [run_procs] at hcomm'
    by_cases hqp : q = p
    · subst hqp
      rw [update_self] at hcomm'
      obtain ⟨comm, hcomm, heq⟩ := hres.exists_slot hcomm'
      exact (eq_of_identity_eq heq).2.2.1.trans (h.world q comm hcomm)
    · rw [update_of_ne hqp] at hcomm'
      exact h.world q comm' hcomm'
  flag q hq := by
    obtain ⟨comm, hcomm, hhandle⟩ := h.handle q hq
    rw [mem_run_log, run_procs]
    by_cases hqp : q = p
    · subst hqp
      rw [update_self]
      rcases hres.takes comm hcomm hhandle.epoch_eq with ⟨⟨own, rfl⟩, -, htaken⟩ | ⟨hnone, htaken⟩
      · exact iff_of_true htaken (.inl ⟨own, tok, rfl, rfl⟩)
      · rw [htaken, h.flag q hq, or_iff_right]
        rintro ⟨own, msg, rfl, heq⟩
        cases heq
        exact hnone own rfl
    · rw [update_of_ne hqp, h.flag q hq, or_iff_right]
      rintro ⟨own, msg, -, heq⟩
      cases heq
      exact hqp rfl
  failures packet hpacket proc htype := by
    rcases out with - | ⟨comm, msg⟩
    · exact h.failures packet hpacket proc htype
    · rcases mem_append.mp hpacket with hpacket | hpacket
      · exact h.failures packet hpacket proc htype
      · obtain ⟨q, -, rfl⟩ := mem_map.mp hpacket
        exact (hres.sends comm msg rfl).2.2.2 proc htype
  covered v hv hev hvd u hu hne := by
    rw [run_dead] at hvd ⊢
    rw [mem_run_log] at hev ⊢
    by_cases hold : .effect v tok ∈ w.log
    · -- the process had the message before
      rcases h.covered v hv hold hvd u hu hne with hu | hu | hu
      · exact .inl hu
      · exact .inr (.inl (.inr hu))
      · exact .inr (.inr (run_wire_subset _ w p send _ hu))
    · obtain ⟨comm, msg, hres₂, heq⟩ := hev.resolve_right hold
      rw [Note.effect.injEq] at heq
      obtain ⟨rfl, rfl⟩ := heq
      change out = some (comm, tok) at hres₂
      subst hres₂
      obtain ⟨own, hown, hhandle⟩ := h.handle v hv
      obtain ⟨hcomm, -⟩ := hres.sends comm tok rfl
      rw [hown, Option.some_inj] at hcomm
      subst hcomm
      have hfirst : (w.procs v).hasTaken tok = false := by
        rw [← Bool.not_eq_true, h.flag v hv]
        exact hold
      by_cases hud : u ∈ w.dead
      · exact .inl hud
      have hpeer : u ∈ own.n2Peers := (mem_n2Peers_or_leftOut hhandle hu hne).resolve_right
        fun hleft => hud (hout hv ⟨own, rfl⟩ hfirst u hleft)
      refine .inr (.inr (mem_append_right _ (mem_map.mpr ⟨u, ?_, rfl⟩)))
      exact mem_sendMsgs (fun q => (hsend q).1) hpeer ((hsend u).2 hud)

theorem Floods.of_wire (h : Floods groups tok w) {w' : World} (hprocs : w'.procs = w.procs)
    (hdead : w'.dead = w.dead) (hlog : ∀ p, .effect p tok ∈ w'.log ↔ .effect p tok ∈ w.log)
    (hsub : w'.wire ⊆ w.wire)
    (hgone : ∀ v, ∀ u ∈ members groups, (⟨v, u, tok⟩ : Packet) ∈ w.wire →
      (⟨v, u, tok⟩ : Packet) ∈ w'.wire ∨ v ∈ w.dead ∨ u ∈ w.dead ∨ .effect u tok ∈ w.log) :
    Floods groups tok w' where
  handle := by rw [hprocs]; exact h.handle
  world := by rw [hprocs]; exact h.world
  flag p hp := by rw [hprocs, hlog]; exact h.flag p hp
  failures packet hpacket := h.failures packet (hsub hpacket)
  covered v hv hev hvd u hu hne := by
    rw [hlog] at hev ⊢
    rw [hdead] at hvd ⊢
    rcases h.covered v hv hev hvd u hu hne with hu' | hu' | hu'
    · exact .inl hu'
    · exact .inr (.inl hu')
    · rcases hgone v u hu hu' with hw | hd | hd | he
      · exact .inr (.inr hw)
      · exact absurd hd hvd
      · exact .inl hd
      · exact .inr (.inl he)

theorem mem_eraseIdx_or_eq {l : List Packet} {k : ℕ} {packet x : Packet}
    (hk : l[k]? = some packet) (hx : x ∈ l) : x ∈ l.eraseIdx k ∨ x = packet := by
  obtain ⟨i, hi⟩ := mem_iff_getElem?.mp hx
  by_cases hik : i = k
  · subst hik
    exact .inr (Option.some.inj (hi.symm.trans hk))
  · exact .inl (mem_eraseIdx_iff_getElem?.mpr ⟨i, hik, hi⟩)

theorem Floods.eraseIdx (h : Floods groups tok w) {k : ℕ} {packet : Packet}
    (hk : w.wire[k]? = some packet) (hdead : packet.src ∈ w.dead ∨ packet.dst ∈ w.dead) :
    Floods groups tok { w with wire := w.wire.eraseIdx k } := by
  refine h.of_wire rfl rfl (fun _ => Iff.rfl) (eraseIdx_subset) fun v u _ hmem => ?_
  rcases mem_eraseIdx_or_eq hk hmem with hmem | rfl
  · exact .inl hmem
  · exact .inr (hdead.imp_right .inl)

theorem Floods.crash (h : Floods groups tok w) (p : ProcName) :
    Floods groups tok { w with dead := insert p w.dead } where
  handle := h.handle
  world := h.world
  flag := h.flag
  failures := h.failures
  covered v hv hev hvd u hu hne := by
    have hvd : v ∉ w.dead := fun hd => hvd (Finset.mem_insert_of_mem hd)
    exact (h.covered v hv hev hvd u hu hne).imp_left fun hd => Finset.mem_insert_of_mem hd

theorem revoke_out {s : Proc} {cid : ℕ} {comm : Comm} {msg : Msg}
    (h : (s.revoke cid).2 = some (comm, msg)) : msg.type = .revoke ∧ cid = msg.cid := by
  rw [Proc.revoke] at h
  split at h
  · cases h
  · split_ifs at h with hcid heffect
    cases h
    exact ⟨rfl, (not_not.mp hcid).symm⟩

theorem failurePropagate_out {s : Proc} {proc : ProcName} {comm : Comm} {msg : Msg}
    (h : (s.failurePropagate proc).2 = some (comm, msg)) :
    msg.type = .failurePropagate proc := by
  rw [Proc.failurePropagate] at h
  split at h
  · cases h
  · split_ifs at h
    cases h
    rfl

theorem recvCb_out {s : Proc} {msg msg' : Msg} {comm : Comm}
    (h : (s.recvCb msg).2 = some (comm, msg')) : msg = msg' := by
  rw [Proc.recvCb] at h
  split at h
  · cases h
  · split_ifs at h
    cases h
    rfl

theorem Floods.deliver (htok : ∀ proc, tok.type = .failurePropagate proc → tok.cid = 0)
    (h : Floods groups tok w) {k : ℕ} {packet : Packet} (hk : w.wire[k]? = some packet)
    (hsend : ∀ q, send q ≠ .outOfResource ∧ (q ∉ w.dead → send q = .success))
    (hcomplete : packet.msg = tok → packet.dst ∈ members groups →
      (w.procs packet.dst).hasTaken tok = false →
      ∀ q ∈ leftOut groups packet.dst, q ∈ w.dead) :
    Floods groups tok ((w.arrived k packet).run rbcastN2 packet.dst send
      ((w.procs packet.dst).recvCb packet.msg)) := by
  have hmem := mem_of_getElem? hk
  have hlt := (List.getElem?_eq_some_iff.mp hk).1
  have hres := respects_recvCb (s := w.procs packet.dst) htok (h.failures packet hmem)
  have hrun : Floods groups tok (w.run rbcastN2 packet.dst send
      ((w.procs packet.dst).recvCb packet.msg)) :=
    h.run hres hsend fun hp hout hfirst => hcomplete (recvCb_out hout.choose_spec) hp hfirst
  have hwire : ((w.arrived k packet).run rbcastN2 packet.dst send
      ((w.procs packet.dst).recvCb packet.msg)).wire =
      (w.run rbcastN2 packet.dst send
        ((w.procs packet.dst).recvCb packet.msg)).wire.eraseIdx k := by
    unfold World.run
    split
    · rfl
    · exact (eraseIdx_append_of_lt_length hlt _).symm
  have hget : (w.run rbcastN2 packet.dst send
      ((w.procs packet.dst).recvCb packet.msg)).wire[k]? = some packet := by
    unfold World.run
    split
    · exact hk
    · rw [getElem?_append_left hlt]
      exact hk
  refine hrun.of_wire (by simp [arrived]) (by simp [arrived]) (fun q => ?_) ?_ ?_
  · rw [mem_run_log, mem_run_log]
    simp [arrived]
  · rw [hwire]
    exact eraseIdx_subset
  · intro v u hu hpacket
    rw [hwire]
    rcases mem_eraseIdx_or_eq hget hpacket with hpacket | heq
    · exact .inl hpacket
    · -- the fragment that is delivered has its effect
      obtain ⟨comm, hcomm, hhandle⟩ := h.handle u hu
      subst heq
      have htaken := hasTaken_recvCb hcomm hhandle.cid_eq hhandle.epoch_eq
      refine .inr (.inr (.inr ((hrun.flag u hu).mp ?_)))
      rw [run_procs, update_self]
      exact htaken

theorem Floods.step (htok : ∀ proc, tok.type = .failurePropagate proc → tok.cid = 0)
    (h : Floods groups tok w) {e : Event} (hsend : e.Transported w)
    (hcomplete : e.Complete groups tok w) : Floods groups tok (w.stepN2 e) := by
  cases e with
  | revoke p cid send =>
    simp only [stepN2, stepWith]
    split_ifs with hdead
    · exact h
    · refine h.run (respects_revoke htok cid) hsend fun hp hout hfirst => ?_
      obtain ⟨htype, hcid⟩ := revoke_out hout.choose_spec
      exact hcomplete p hp (.inl ⟨rfl, htype, hcid⟩) hdead hfirst
  | markFailed p proc send =>
    simp only [stepN2, stepWith]
    split_ifs with hdead
    · exact h
    · refine h.run (respects_failurePropagate htok (h.world p) proc) hsend
        fun hp hout hfirst => ?_
      have htype := failurePropagate_out hout.choose_spec
      exact hcomplete p hp (.inl ⟨rfl, htype⟩) hdead hfirst
  | deliver k send =>
    simp only [stepN2, stepWith]
    split
    · exact h
    · next packet hk =>
        split_ifs with hdead
        · exact h.eraseIdx hk (.inr hdead)
        · refine h.deliver htok hk hsend fun hmsg hp hfirst => ?_
          exact hcomplete _ hp (.inr ⟨k, send, packet, rfl, hk, rfl, hmsg⟩) hdead hfirst
  | lose k =>
    simp only [stepN2, stepWith]
    split
    · exact h
    · next packet hk =>
        split_ifs with hdead
        · exact h.eraseIdx hk hdead
        · exact h
  | crash p => exact h.crash p

/-- The conditions of a run: the transport does its part, and nobody is left out. -/
def Event.Floodable (groups : CommGroups ProcName) (tok : Msg) (w : World) (e : Event) : Prop :=
  e.Transported w ∧ e.Complete groups tok w

theorem Ready.floods (h : Ready groups tok w) : Floods groups tok w where
  handle := h.handle
  world := h.world
  flag p hp := by simp [h.clear p hp, h.log]
  failures := h.failures
  covered v _ hev := by simp [h.log] at hev

theorem Floods.foldl (htok : ∀ proc, tok.type = .failurePropagate proc → tok.cid = 0)
    (h : Floods groups tok w)
    (hrun : Along World.stepN2 (Event.Floodable groups tok) w events) :
    Floods groups tok (events.foldl World.stepN2 w) :=
  Along.invariant (fun _ _ h he => h.step htok he.1 he.2) h hrun

/-- `ompi_comm_rbcast_n2` sends the message once to every other active process of the
local and of the remote group if and only if the group that its loop leaves out has no
other active process. In every run in which that is so whenever the message is sent
on, once nothing is on its way between live processes, every live process has the
message as soon as a live one has started the broadcast. -/
theorem rbcast_n2_floods (groups : CommGroups ProcName) (tok : Msg) :
    (∀ (comm : Comm) (send : ProcName → SendStatus) (me : ProcName),
      comm.localGroup.peerLookup comm.rank = some me →
      (SendsToAll send comm me ↔ LeavesNobodyOut send comm me)) ∧
    ∀ (w₀ : World) (events : List Event),
      Ready groups tok w₀ → Along World.stepN2 (Event.Floodable groups tok) w₀ events →
      ∀ p ∈ members groups, p ∉ (events.foldl World.stepN2 w₀).dead →
      (∃ e ∈ events, e.Starts tok p) →
      (∀ packet ∈ (events.foldl World.stepN2 w₀).wire, packet.msg = tok →
        packet.src ∈ (events.foldl World.stepN2 w₀).dead ∨
          packet.dst ∈ (events.foldl World.stepN2 w₀).dead) →
      ∀ q ∈ members groups, q ∉ (events.foldl World.stepN2 w₀).dead →
        .effect q tok ∈ (events.foldl World.stepN2 w₀).log ∧
          ((events.foldl World.stepN2 w₀).procs q).hasTaken tok = true := by
  refine ⟨fun comm send me hme => sendsToAll_iff hme, ?_⟩
  intro w₀ events hready hrun p hp hlive hstart hquiet q hq hqlive
  have hfloods := hready.floods.foldl hready.type_world hrun
  have hstarted := effect_mem_of_starts rbcastN2 (I := Floods groups tok)
    (fun _ _ h he => h.step hready.type_world he.1 he.2) (fun _ h => h.handle p hp)
    (fun _ h => (h.flag p hp).mp) hready.type_world hready.floods hrun hlive hstart
  have heffect : .effect q tok ∈ (events.foldl stepN2 w₀).log := by
    by_cases hqp : q = p
    · exact hqp ▸ hstarted
    · rcases hfloods.covered p hp hstarted hlive q hq hqp with hd | he | hwire
      · exact absurd hd hqlive
      · exact he
      · exact absurd ((hquiet _ hwire rfl).resolve_left hlive) hqlive
  exact ⟨heffect, (hfloods.flag q hq).mpr heffect⟩

/-- An inter-communicator of two processes and one of another job. -/
def sidedGroups : CommGroups ProcName where
  localGroup := ⟨[⟨1, 0⟩, ⟨1, 1⟩], by decide⟩
  remoteGroup := ⟨[⟨0, 0⟩], by decide⟩
  isInter := true
  remote_eq_local h := nomatch h
  disjoint _ := by decide

/-- The communicator of some groups at a process, under context id 4. -/
def plainComm (groups : CommGroups ProcName) (p : ProcName) : Comm where
  toCommGroups := viewOf groups p
  rank := p.vpid
  contextId := 4
  epoch := 1
  anySourceEnabled := true
  collRevoked := false
  commRevoked := false

def sidedWorld : World where
  procs p :=
    { comms := fun cid =>
        if p ∈ members sidedGroups ∧ cid = 4 then some (plainComm sidedGroups p) else none
      active := fun _ => true }
  dead := ∅
  wire := []
  log := []

/-- The answers of the transport after the single process has died. -/
def sidedSend (q : ProcName) : SendStatus := if q = ⟨0, 0⟩ then .unreach else .success

/-- A process revokes the communicator after the single process has died. -/
def sidedEvents : List Event :=
  [.crash ⟨0, 0⟩, .revoke ⟨1, 0⟩ 4 sidedSend, .deliver 0 sidedSend, .deliver 0 sidedSend]

theorem ready_sidedWorld : Ready sidedGroups ⟨4, 1, .revoke⟩ sidedWorld where
  type_world _ h := nomatch h
  handle p hp := by
    refine ⟨plainComm sidedGroups p, if_pos ⟨hp, rfl⟩, rfl, ?_, rfl, rfl⟩
    have hmembers : members sidedGroups = [⟨0, 0⟩, ⟨1, 0⟩, ⟨1, 1⟩] := rfl
    rw [hmembers] at hp
    fin_cases hp <;> rfl
  world p comm hcomm := by simp [sidedWorld] at hcomm
  clear p hp := by simp [sidedWorld, Proc.hasTaken, hp, plainComm]
  failures packet h := nomatch h
  log := rfl

/-- The remote group has died, so that flooding the local one is enough. -/
theorem rbcast_n2_floods_sided :
    Note.effect ⟨1, 1⟩ ⟨4, 1, .revoke⟩ ∈ (sidedEvents.foldl World.stepN2 sidedWorld).log := by
  have hanswer : ∀ w : World, (⟨0, 0⟩ : ProcName) ∈ w.dead → ∀ q,
      sidedSend q ≠ .outOfResource ∧ (q ∉ w.dead → sidedSend q = .success) := by
    intro w hdead q
    by_cases hq : q = ⟨0, 0⟩
    · exact ⟨by simp [sidedSend, hq], fun hlive => absurd (hq ▸ hdead) hlive⟩
    · exact ⟨by simp [sidedSend, hq], fun _ => if_neg hq⟩
  have hcomplete : ∀ w : World, (⟨0, 0⟩ : ProcName) ∈ w.dead → ∀ e : Event,
      e.Complete sidedGroups ⟨4, 1, .revoke⟩ w := by
    intro w hdead e p hp _ hlive _ q hq
    have hmembers : members sidedGroups = [⟨0, 0⟩, ⟨1, 0⟩, ⟨1, 1⟩] := rfl
    rw [hmembers] at hp
    simp only [mem_cons, not_mem_nil, or_false] at hp
    rcases hp with rfl | rfl | rfl
    · exact absurd hdead hlive
    · have hleft : leftOut sidedGroups ⟨1, 0⟩ = [⟨0, 0⟩] := by decide
      rw [hleft, mem_singleton] at hq
      exact hq ▸ hdead
    · have hleft : leftOut sidedGroups ⟨1, 1⟩ = [⟨0, 0⟩] := by decide
      rw [hleft, mem_singleton] at hq
      exact hq ▸ hdead
  have hcrash : (Event.crash ⟨0, 0⟩).Complete sidedGroups ⟨4, 1, .revoke⟩ sidedWorld := by
    rintro p - (h | ⟨k, send, packet, h, -⟩)
    · exact h.elim
    · cases h
  have hrun : Along stepN2 (Event.Floodable sidedGroups ⟨4, 1, .revoke⟩) sidedWorld
      sidedEvents :=
    ⟨⟨trivial, hcrash⟩, ⟨hanswer _ (by decide), hcomplete _ (by decide) _⟩,
      ⟨hanswer _ (by decide), hcomplete _ (by decide) _⟩,
      ⟨hanswer _ (by decide), hcomplete _ (by decide) _⟩, trivial⟩
  refine ((rbcast_n2_floods sidedGroups ⟨4, 1, .revoke⟩).2 sidedWorld sidedEvents ready_sidedWorld
    hrun ⟨1, 0⟩ (by decide) (by decide) ?_ (by decide) ⟨1, 1⟩ (by decide) (by decide)).1
  exact ⟨_, mem_cons_of_mem _ mem_cons_self, rfl, rfl, rfl⟩

/-- Two active processes in an intra-communicator, and the single process of the remote
group of an inter-communicator: no fragment is sent to them. -/
theorem rbcast_n2_sends_nothing : (rbcastN2 (fun _ => .success)
        (plainComm (.intra ⟨[⟨0, 0⟩, ⟨0, 1⟩], by decide⟩) ⟨0, 0⟩)).1 = [] ∧
      ¬ SendsToAll (fun _ => .success)
        (plainComm (.intra ⟨[⟨0, 0⟩, ⟨0, 1⟩], by decide⟩) ⟨0, 0⟩) ⟨0, 0⟩ ∧
      (rbcastN2 (fun _ => .success) (plainComm sidedGroups ⟨1, 0⟩)).1 = [⟨1, 1⟩] ∧
      ¬ SendsToAll (fun _ => .success) (plainComm sidedGroups ⟨1, 0⟩) ⟨1, 0⟩ := by
  refine ⟨by decide, fun h => ?_, by decide, fun h => ?_⟩
  · have := h ⟨0, 1⟩ (.inl (by decide)) (by decide) (by decide)
    exact absurd this (by decide)
  · have := h ⟨0, 0⟩ (.inr (by decide)) (by decide) (by decide)
    exact absurd this (by decide)

end Rbcast

end Ulfm
