import Ulfm.Rbcast.Handlers
import Ulfm.Foundation.Flood
import Ulfm.Foundation.Trace

/-!
# The reliable broadcast is a flood

Seen through one broadcast, the system is a flood of the binomial graph: a step of
the system is a step of the flood, or two, or none at all.
-/

namespace Ulfm

open List Function Option

namespace Rbcast

variable {groups : CommGroups ProcName} {tok : Msg} {w : World} {p : ProcName}

section Handle

/-- The groups of the communicator as a process has them. -/
def viewOf (groups : CommGroups ProcName) (p : ProcName) : CommGroups ProcName :=
  if p ∈ groups.localGroup then groups else groups.swap

/-- What a process of the communicator has in its table. -/
structure IsHandle (groups : CommGroups ProcName) (tok : Msg) (p : ProcName) (comm : Comm) :
    Prop where
  groups_eq : comm.toCommGroups = viewOf groups p
  rank_eq : comm.localGroup.peerLookup comm.rank = some p
  cid_eq : comm.contextId = tok.cid
  epoch_eq : comm.epoch = tok.epoch

theorem IsHandle.of_identity {comm comm' : Comm} (h : IsHandle groups tok p comm)
    (heq : comm'.identity = comm.identity) : IsHandle groups tok p comm' := by
  obtain ⟨hgroups, hrank, hcid, hepoch⟩ := eq_of_identity_eq heq
  refine ⟨hgroups.trans h.groups_eq, ?_, hcid.trans h.cid_eq, hepoch.trans h.epoch_eq⟩
  rw [hgroups, hrank]
  exact h.rank_eq

def peersOf (groups : CommGroups ProcName) (p : ProcName) : List ProcName :=
  (bmgIndices (members groups).length ((members groups).idxOf p)
    (members groups).length 1).filterMap
    ((members groups)[·]?)

theorem peersOf_subset {q : ProcName} (h : q ∈ peersOf groups p) : q ∈ members groups := by
  obtain ⟨j, -, hj⟩ := mem_filterMap.mp h
  exact mem_of_getElem? hj

theorem length_peersOf_le (groups : CommGroups ProcName) (p : ProcName) :
    (peersOf groups p).length ≤ (bmgIndices (size groups) 0 (size groups) 1).length := by
  rw [size_eq_length, ← length_bmgIndices _ ((members groups).idxOf p)]
  exact length_filterMap_le _ _

/-- The communicator has processes on each of its sides. -/
def Nonempty (groups : CommGroups ProcName) : Prop :=
  groups.localGroup.procs ≠ [] ∧ groups.remoteGroup.procs ≠ []

theorem IsHandle.members_eq {comm : Comm} (hne : Nonempty groups)
    (h : IsHandle groups tok p comm) : members comm.toCommGroups = members groups := by
  rw [h.groups_eq, viewOf]
  split_ifs
  · rfl
  · exact members_swap hne.1 hne.2

theorem IsHandle.bmgPeers_eq {comm : Comm} (hne : Nonempty groups)
    (h : IsHandle groups tok p comm) : comm.bmgPeers = peersOf groups p := by
  have hmembers := h.members_eq hne
  have hme : comm.me = (members groups).idxOf p := by
    have hget := getElem?_me h.rank_eq
    rw [hmembers] at hget
    obtain ⟨hlt, rfl⟩ := List.getElem?_eq_some_iff.mp hget
    rw [(nodup_members groups).idxOf_getElem]
  have hindex : procOfIndex comm.toCommGroups = ((members groups)[·]?) := by
    funext idx
    rw [procOfIndex_eq, hmembers]
  simp only [Comm.bmgPeers, peersOf, size_eq_length, hmembers, hme, hindex]

end Handle

section Projection

/-- A fragment as a copy of the token between processes of the communicator. -/
def copyOf (groups : CommGroups ProcName) (tok : Msg) (packet : Packet) :
    Option (ProcName × ProcName) :=
  if packet.msg = tok ∧ packet.src ∈ members groups then some (packet.src, packet.dst) else none

/-- The process that takes the token in a note of the log. -/
def markOf (groups : CommGroups ProcName) (tok : Msg) : Note → Option ProcName
  | .effect p msg => if msg = tok ∧ p ∈ members groups then some p else none
  | .arrival _ => none

/-- The copy that arrives in a note of the log. -/
def arrivalOf (groups : CommGroups ProcName) (tok : Msg) : Note → Option (ProcName × ProcName)
  | .effect _ _ => none
  | .arrival packet => copyOf groups tok packet

/-- The system seen through one broadcast. -/
def project (groups : CommGroups ProcName) (tok : Msg) (w : World) : Flood ProcName where
  marks := w.log.filterMap (markOf groups tok)
  dead := {p | p ∈ w.dead}
  wire := Multiset.ofList (w.wire.filterMap (copyOf groups tok))
  taken := (w.log.filterMap (arrivalOf groups tok)).length

@[simp] theorem filterMap_markOf_arrival (packet : Packet) (log : List Note) :
    (Note.arrival packet :: log).filterMap (markOf groups tok) =
      log.filterMap (markOf groups tok) := rfl

@[simp] theorem filterMap_arrivalOf_effect (p : ProcName) (msg : Msg) (log : List Note) :
    (Note.effect p msg :: log).filterMap (arrivalOf groups tok) =
      log.filterMap (arrivalOf groups tok) := rfl

theorem filterMap_eraseIdx (groups : CommGroups ProcName) (tok : Msg) {l : List Packet} {k : ℕ}
    {packet : Packet}
    (h : l[k]? = some packet) :
    Multiset.ofList ((l.eraseIdx k).filterMap (copyOf groups tok)) =
      match copyOf groups tok packet with
      | none => Multiset.ofList (l.filterMap (copyOf groups tok))
      | some c => (Multiset.ofList (l.filterMap (copyOf groups tok))).erase c := by
  obtain ⟨hlt, rfl⟩ := List.getElem?_eq_some_iff.mp h
  have hperm := (getElem_cons_eraseIdx_perm hlt).filterMap (copyOf groups tok)
  rw [← Multiset.coe_eq_coe.mpr hperm, filterMap_cons]
  cases copyOf groups tok l[k] with
  | none => rfl
  | some c => exact (Multiset.erase_cons_head c _).symm

end Projection

/-- The invariant of the system for one broadcast. The fields `apart` and `sides` are
about another communicator with the same context id and epoch: it has other processes. -/
structure Tracks (groups : CommGroups ProcName) (tok : Msg) (w : World) : Prop where
  handle : ∀ p ∈ members groups, ∃ comm,
    (w.procs p).comms tok.cid = some comm ∧ IsHandle groups tok p comm
  apart : ∀ p ∉ members groups, ∀ comm, (w.procs p).comms tok.cid = some comm →
    comm.contextId = tok.cid → comm.epoch = tok.epoch → ∀ q ∈ comm.bmgPeers, q ∉ members groups
  world : ∀ p comm, (w.procs p).comms 0 = some comm → comm.contextId = 0
  flag : ∀ p ∈ members groups, (w.procs p).hasTaken tok = true ↔ p ∈ (project groups tok w).marks
  sides : ∀ packet ∈ w.wire, packet.msg = tok →
    (packet.src ∈ members groups ↔ packet.dst ∈ members groups)
  failures : ∀ packet ∈ w.wire, ∀ proc, packet.msg.type = .failurePropagate proc →
    packet.msg.cid = 0

/-- The transport takes what is sent to a live process, and at most refuses what is
sent to a dead one as unreachable. -/
def Event.Transported (w : World) : Event → Prop
  | .revoke _ _ send | .markFailed _ _ send | .deliver _ send =>
    ∀ q, send q ≠ .outOfResource ∧ (q ∉ w.dead → send q = .success)
  | .lose _ | .crash _ => True

section Sends

variable {send : ProcName → SendStatus}

theorem sendMsgs_sublist (send : ProcName → SendStatus) (procs : List ProcName) :
    (sendMsgs send procs).1.Sublist procs := by
  induction procs with
  | nil => exact List.Sublist.refl []
  | cons q procs ih =>
    rw [sendMsgs]
    cases send q with
    | success => exact ih.cons_cons q
    | unreach => exact ih.cons q
    | outOfResource => exact nil_sublist _

theorem mem_sendMsgs_of_forall {procs : List ProcName}
    (herr : ∀ q ∈ procs, send q ≠ .outOfResource) {q : ProcName} (hq : q ∈ procs)
    (hsend : send q = .success) :
    q ∈ (sendMsgs send procs).1 := by
  induction procs with
  | nil => cases hq
  | cons r procs ih =>
    have herr' : ∀ q ∈ procs, send q ≠ .outOfResource := fun q hq =>
      herr q (mem_cons_of_mem r hq)
    rw [sendMsgs]
    cases hr : send r with
    | success =>
      rcases mem_cons.mp hq with rfl | hq
      · exact mem_cons_self
      · exact mem_cons_of_mem r (ih herr' hq)
    | unreach =>
      rcases mem_cons.mp hq with rfl | hq
      · rw [hsend] at hr
        cases hr
      · exact ih herr' hq
    | outOfResource => exact absurd hr (herr r mem_cons_self)

theorem mem_sendMsgs (herr : ∀ q, send q ≠ .outOfResource) {procs : List ProcName}
    {q : ProcName} (hq : q ∈ procs) (hsend : send q = .success) :
    q ∈ (sendMsgs send procs).1 :=
  mem_sendMsgs_of_forall (fun q _ => herr q) hq hsend

end Sends

section Run

variable {s' : Proc} {out : Option (Comm × Msg)} {send : ProcName → SendStatus}

section

variable (rbcast : (ProcName → SendStatus) → Comm → List ProcName × SendStatus) (w : World)
  (p : ProcName) (send : ProcName → SendStatus) (result : Proc × Option (Comm × Msg))

@[simp] theorem run_procs : (w.run rbcast p send result).procs = update w.procs p result.1 := by
  rw [World.run]
  split
  · rfl
  · rfl

@[simp] theorem run_dead : (w.run rbcast p send result).dead = w.dead := by
  rw [World.run]
  split
  · rfl
  · rfl

theorem run_wire_subset : w.wire ⊆ (w.run rbcast p send result).wire := by
  rw [World.run]
  split
  · exact List.Subset.refl _
  · exact subset_append_left _ _

theorem mem_run_log {note : Note} : note ∈ (w.run rbcast p send result).log ↔
      (∃ comm msg, result.2 = some (comm, msg) ∧ note = .effect p msg) ∨ note ∈ w.log := by
  rw [World.run]
  split
  · next h => simp [h]
  · next comm msg h => simp [h]

end

theorem project_run (h : (∀ comm, out ≠ some (comm, tok)) ∨ p ∉ members groups) :
    project groups tok (w.run rbcastBmg p send (s', out)) = project groups tok w := by
  rcases out with - | ⟨comm, msg⟩
  · rfl
  have hnot : ¬ (msg = tok ∧ p ∈ members groups) := by
    rintro ⟨rfl, hp⟩
    exact h.elim (fun hne => hne comm rfl) fun hp' => hp' hp
  have hcopies : ∀ procs : List ProcName,
      (procs.map fun q => (⟨p, q, msg⟩ : Packet)).filterMap (copyOf groups tok) = [] := by
    intro procs
    rw [filterMap_eq_nil_iff]
    intro packet hpacket
    obtain ⟨q, -, rfl⟩ := List.mem_map.mp hpacket
    exact if_neg hnot
  simp [project, World.run, markOf, hnot, hcopies]

theorem project_run_tok {comm : Comm} (hp : p ∈ members groups)
    (hpeers : comm.bmgPeers = peersOf groups p) :
    project groups tok (w.run rbcastBmg p send (s', some (comm, tok))) = { project groups tok w with
        marks := p :: (project groups tok w).marks
        wire := (project groups tok w).wire +
          Multiset.ofList ((sendMsgs send (peersOf groups p)).1.map fun q => (p, q)) } := by
  have hcopies : ∀ procs : List ProcName,
      (procs.map fun q => (⟨p, q, tok⟩ : Packet)).filterMap (copyOf groups tok) =
        procs.map fun q => (p, q) := by
    intro procs
    induction procs with
    | nil => rfl
    | cons q procs ih => simp [copyOf, hp, ih]
  simp [project, World.run, markOf, hp, rbcastBmg, hpeers, hcopies]

theorem Tracks.run (hne : Nonempty groups) (h : Tracks groups tok w)
    (hres : Respects tok (w.procs p) s' out) :
    Tracks groups tok (w.run rbcastBmg p send (s', out)) := by
  -- the tables of all the processes are as before
  have hslot : ∀ q cid comm', ((w.run rbcastBmg p send (s', out)).procs q).comms cid = some comm' →
      ∃ comm, (w.procs q).comms cid = some comm ∧ comm'.identity = comm.identity := by
    intro q cid comm' hcomm'
    rw [run_procs] at hcomm'
    by_cases hq : q = p
    · subst hq
      rw [update_self] at hcomm'
      exact hres.exists_slot hcomm'
    · rw [Function.update_of_ne hq] at hcomm'
      exact ⟨comm', hcomm', rfl⟩
  have hwire : ∀ packet ∈ (w.run rbcastBmg p send (s', out)).wire, packet ∈ w.wire ∨
      ∃ comm, out = some (comm, packet.msg) ∧ packet.src = p ∧ packet.dst ∈ comm.bmgPeers := by
    intro packet hpacket
    rcases out with - | ⟨comm, msg⟩
    · exact .inl hpacket
    · rcases mem_append.mp hpacket with hpacket | hpacket
      · exact .inl hpacket
      · obtain ⟨q, hq, rfl⟩ := List.mem_map.mp hpacket
        exact .inr ⟨comm, rfl, rfl, (sendMsgs_sublist send _).subset hq⟩
  refine ⟨?_, ?_, ?_, ?_, ?_, ?_⟩
  · intro q hq
    obtain ⟨comm, hcomm, hhandle⟩ := h.handle q hq
    by_cases hqp : q = p
    · subst hqp
      obtain ⟨comm', hcomm', heq⟩ := hres.slot_some hcomm
      exact ⟨comm', by rw [run_procs, update_self]; exact hcomm', hhandle.of_identity heq⟩
    · exact ⟨comm, by rw [run_procs, Function.update_of_ne hqp]; exact hcomm, hhandle⟩
  · intro q hq comm' hcomm' hcid hepoch r hr
    obtain ⟨comm, hcomm, heq⟩ := hslot q _ comm' hcomm'
    obtain ⟨-, -, hcid', hepoch'⟩ := eq_of_identity_eq heq
    rw [bmgPeers_of_identity_eq heq] at hr
    exact h.apart q hq comm hcomm (hcid'.symm.trans hcid) (hepoch'.symm.trans hepoch) r hr
  · intro q comm' hcomm'
    obtain ⟨comm, hcomm, heq⟩ := hslot q _ comm' hcomm'
    exact (eq_of_identity_eq heq).2.2.1.trans (h.world q comm hcomm)
  · intro q hq
    obtain ⟨comm, hcomm, hhandle⟩ := h.handle q hq
    by_cases hqp : q = p
    · subst hqp
      rw [run_procs, update_self]
      rcases hres.takes comm hcomm hhandle.epoch_eq with ⟨⟨own, rfl⟩, -, htaken⟩ | ⟨hout, htaken⟩
      · obtain ⟨hown, -, -, -⟩ := hres.sends own tok rfl
        rw [hcomm, some_inj] at hown
        subst hown
        rw [project_run_tok hq (hhandle.bmgPeers_eq hne), htaken]
        simp
      · rw [project_run (.inl hout), htaken]
        exact h.flag q hq
    · rw [run_procs, Function.update_of_ne hqp, h.flag q hq]
      rcases out with - | ⟨own, msg⟩
      · rfl
      · simp only [project, World.run, markOf, filterMap_cons]
        split_ifs with hmsg
        · rw [mem_cons, or_iff_right hqp]
        · rfl
  · intro packet hpacket hmsg
    rcases hwire packet hpacket with hpacket | ⟨comm, hout, hsrc, hdst⟩
    · exact h.sides packet hpacket hmsg
    · obtain ⟨hcomm, hcid, hepoch, -⟩ := hres.sends comm _ hout
      rw [hmsg] at hcomm hcid hepoch
      rw [hsrc]
      by_cases hp : p ∈ members groups
      · obtain ⟨own, hown, hhandle⟩ := h.handle p hp
        rw [hown, some_inj] at hcomm
        subst hcomm
        rw [hhandle.bmgPeers_eq hne] at hdst
        exact iff_of_true hp (peersOf_subset hdst)
      · exact iff_of_false hp (h.apart p hp comm hcomm hcid hepoch _ hdst)
  · intro packet hpacket proc htype
    rcases hwire packet hpacket with hpacket | ⟨comm, hout, -, -⟩
    · exact h.failures packet hpacket proc htype
    · exact (hres.sends comm _ hout).2.2.2 proc htype

end Run

section Step

theorem Tracks.of_wire_subset (h : Tracks groups tok w) {w' : World} (hprocs : w'.procs = w.procs)
    (hmarks : (project groups tok w').marks = (project groups tok w).marks)
    (hwire : w'.wire ⊆ w.wire) : Tracks groups tok w' where
  handle := by rw [hprocs]; exact h.handle
  apart := by rw [hprocs]; exact h.apart
  world := by rw [hprocs]; exact h.world
  flag := by rw [hprocs, hmarks]; exact h.flag
  sides packet hpacket := h.sides packet (hwire hpacket)
  failures packet hpacket := h.failures packet (hwire hpacket)

variable {send : ProcName → SendStatus}

theorem project_run_steps (hne : Nonempty groups) (h : Tracks groups tok w) {s' : Proc}
    {out : Option (Comm × Msg)} (hres : Respects tok (w.procs p) s' out)
    (hsend : ∀ q, send q ≠ .outOfResource ∧ (q ∉ w.dead → send q = .success)) :
    Relation.ReflTransGen (Flood.Step (peersOf groups)) (project groups tok w)
      (project groups tok (w.run rbcastBmg p send (s', out))) := by
  by_cases hp : p ∈ members groups
  swap
  · rw [project_run (.inr hp)]
  obtain ⟨comm, hcomm, hhandle⟩ := h.handle p hp
  rcases hres.takes comm hcomm hhandle.epoch_eq with ⟨⟨own, rfl⟩, hfirst, -⟩ | ⟨hout, -⟩
  swap
  · rw [project_run (.inl hout)]
  obtain ⟨hown, -, -, -⟩ := hres.sends own tok rfl
  rw [hcomm, some_inj] at hown
  subst hown
  rw [project_run_tok hp (hhandle.bmgPeers_eq hne)]
  refine .single (.mark _ p _ (fun hmark => ?_) (sendMsgs_sublist send _) fun q hq hlive => ?_)
  · rw [(h.flag p hp).mpr hmark] at hfirst
    cases hfirst
  · exact mem_sendMsgs (fun r => (hsend r).1) hq ((hsend q).2 hlive)

theorem project_eraseIdx_steps {k : ℕ} {packet : Packet} (hk : w.wire[k]? = some packet)
    (hdead : packet.src ∈ w.dead ∨ packet.dst ∈ w.dead) :
    Relation.ReflTransGen (Flood.Step (peersOf groups)) (project groups tok w)
      (project groups tok { w with wire := w.wire.eraseIdx k }) := by
  have herase := filterMap_eraseIdx groups tok hk
  cases hcopy : copyOf groups tok packet with
  | none =>
    rw [hcopy] at herase
    simp only [project, herase]
    exact .refl
  | some c =>
    rw [hcopy] at herase
    have hc : c = (packet.src, packet.dst) := by
      rw [copyOf] at hcopy
      split_ifs at hcopy
      exact (Option.some.inj hcopy).symm
    simp only [project, herase]
    exact .single (.drop (project groups tok w) c (hc ▸ hdead))

theorem project_arrived_none {k : ℕ} {packet : Packet} (hk : w.wire[k]? = some packet)
    (hcopy : copyOf groups tok packet = none) :
    project groups tok (w.arrived k packet) = project groups tok w := by
  have herase := filterMap_eraseIdx groups tok hk
  rw [hcopy] at herase
  simp [project, World.arrived, arrivalOf, hcopy, herase]

theorem project_arrived_some {k : ℕ} {packet : Packet} (hk : w.wire[k]? = some packet)
    {c : ProcName × ProcName} (hcopy : copyOf groups tok packet = some c) :
    project groups tok (w.arrived k packet) = { project groups tok w with
      wire := (project groups tok w).wire.erase c
      taken := (project groups tok w).taken + 1 } := by
  have herase := filterMap_eraseIdx groups tok hk
  rw [hcopy] at herase
  simp [project, World.arrived, arrivalOf, hcopy, herase]

theorem Tracks.arrived (h : Tracks groups tok w) (k : ℕ) (packet : Packet) :
    Tracks groups tok (w.arrived k packet) :=
  h.of_wire_subset rfl rfl (eraseIdx_subset)

section

variable (hne : Nonempty groups) (htok : ∀ proc, tok.type = .failurePropagate proc → tok.cid = 0)
  (h : Tracks groups tok w)
include hne htok h

theorem project_deliver_steps {k : ℕ} {packet : Packet} (hk : w.wire[k]? = some packet)
    (hsend : ∀ q, send q ≠ .outOfResource ∧ (q ∉ w.dead → send q = .success)) :
    Relation.ReflTransGen (Flood.Step (peersOf groups)) (project groups tok w)
      (project groups tok ((w.arrived k packet).run rbcastBmg packet.dst send
        ((w.procs packet.dst).recvCb packet.msg))) := by
  have hmem := mem_of_getElem? hk
  have hres := respects_recvCb (s := w.procs packet.dst) htok (h.failures packet hmem)
  cases hcopy : copyOf groups tok packet with
  | none =>
    rw [← project_arrived_none hk hcopy]
    exact project_run_steps hne (h.arrived k packet) hres hsend
  | some c =>
    have hmemc : c ∈ (project groups tok w).wire :=
      Multiset.mem_coe.mpr (mem_filterMap.mpr ⟨packet, hmem, hcopy⟩)
    have harr := project_arrived_some hk hcopy
    rw [copyOf] at hcopy
    split_ifs at hcopy with hcopied
    obtain rfl := Option.some.inj hcopy
    obtain ⟨hmsg, hsrc⟩ := hcopied
    have hdst := (h.sides packet hmem hmsg).mp hsrc
    obtain ⟨comm, hcomm, hhandle⟩ := h.handle packet.dst hdst
    have htaken := hasTaken_recvCb hcomm hhandle.cid_eq hhandle.epoch_eq
    rw [hmsg] at hres ⊢
    generalize (w.procs packet.dst).recvCb tok = result at hres htaken ⊢
    obtain ⟨s', out⟩ := result
    rcases hres.takes comm hcomm hhandle.epoch_eq with ⟨⟨own, rfl⟩, hfirst, -⟩ | ⟨hout, hsame⟩
    · obtain ⟨hown, -, -, -⟩ := hres.sends own tok rfl
      rw [hcomm, some_inj] at hown
      subst hown
      have hpeers := hhandle.bmgPeers_eq hne
      -- the flood marks the process before it takes the copy
      have hmark := project_run_steps hne h hres hsend
      rw [project_run_tok hdst hpeers] at hmark
      rw [project_run_tok hdst hpeers, harr]
      refine hmark.tail ?_
      have htake : Flood.Step (peersOf groups) _ _ := .take
        { project groups tok w with
          marks := packet.dst :: (project groups tok w).marks
          wire := (project groups tok w).wire +
            Multiset.ofList ((sendMsgs send (peersOf groups packet.dst)).1.map
              fun q => (packet.dst, q)) }
        (packet.src, packet.dst) (Multiset.mem_add.mpr (.inl hmemc)) mem_cons_self
      rwa [Multiset.erase_add_left_pos _ hmemc] at htake
    · rw [project_run (.inl hout), harr]
      refine .single (.take _ _ hmemc ?_)
      exact (h.flag packet.dst hdst).mp (hsame.symm.trans htaken)

theorem Tracks.step (e : Event) : Tracks groups tok (w.step e) := by
  cases e with
  | revoke p cid send =>
    simp only [World.step, World.stepWith]
    split_ifs
    · exact h
    · exact h.run hne (respects_revoke htok cid)
  | markFailed p proc send =>
    simp only [World.step, World.stepWith]
    split_ifs
    · exact h
    · exact h.run hne (respects_failurePropagate htok (h.world p) proc)
  | deliver k send =>
    simp only [World.step, World.stepWith]
    split
    · exact h
    · rename_i packet hk
      split_ifs
      · exact h.of_wire_subset rfl rfl eraseIdx_subset
      · refine Tracks.run hne (h.arrived k packet) ?_
        exact respects_recvCb htok (h.failures packet (mem_of_getElem? hk))
  | lose k =>
    simp only [World.step, World.stepWith]
    split
    · exact h
    · split_ifs
      · exact h.of_wire_subset rfl rfl eraseIdx_subset
      · exact h
  | crash p => exact h.of_wire_subset rfl rfl (List.Subset.refl _)

theorem project_step {e : Event} (hsend : e.Transported w) :
    Relation.ReflTransGen (Flood.Step (peersOf groups)) (project groups tok w)
      (project groups tok (w.step e)) := by
  cases e with
  | revoke p cid send =>
    simp only [World.step, World.stepWith]
    split_ifs
    · exact .refl
    · exact project_run_steps hne h (respects_revoke htok cid) hsend
  | markFailed p proc send =>
    simp only [World.step, World.stepWith]
    split_ifs
    · exact .refl
    · exact project_run_steps hne h (respects_failurePropagate htok (h.world p) proc) hsend
  | deliver k send =>
    simp only [World.step, World.stepWith]
    split
    · exact .refl
    · rename_i packet hk
      split_ifs with hdead
      · exact project_eraseIdx_steps hk (.inr hdead)
      · exact project_deliver_steps hne htok h hk hsend
  | lose k =>
    simp only [World.step, World.stepWith]
    split
    · exact .refl
    · rename_i packet hk
      split_ifs with hdead
      · exact project_eraseIdx_steps hk hdead
      · exact .refl
  | crash p =>
    refine .single ?_
    have heq : project groups tok (w.step (.crash p)) =
        { project groups tok w with dead := insert p (project groups tok w).dead } := by
      simp only [project, World.step, World.stepWith, Flood.mk.injEq, true_and, and_true]
      ext q
      simp
    rw [heq]
    exact .crash _ p

end

end Step

end Rbcast

end Ulfm
