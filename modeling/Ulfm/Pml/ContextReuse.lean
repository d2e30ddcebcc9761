import Ulfm.Pml.Fragments
import Ulfm.Pml.Replay

/-!
# Context ids that are used again

The match header of a fragment holds the context id of its communicator and not
the epoch. A process looks the context id up in its table of communicators; it
keeps a fragment for an empty slot in `non_existing_communicator_pending`, and
`mca_pml_ob1_add_comm` takes it from there. So a fragment is matched on whatever
communicator holds the context id when it comes in. The fragments of a communicator
stay apart from those of its successors as long as a context id is reserved and
used again only after the old fragments are gone (`Drained`).
-/

namespace Ulfm

open List Function

/-- A communicator: its context id, its epoch and its members. -/
structure CommId where
  cid : Nat
  epoch : Nat
  group : List Nat
  deriving DecidableEq

/-- A match fragment on its way. The header holds `ctx`; the fragment comes with the
communicator that it was sent on. -/
abbrev Packet := PendingFrag CommId

/-- A communicator at one process. `sent` are the `send_sequence` numbers of its
peers. -/
structure LiveComm where
  id : CommId
  myRank : Nat
  sent : Nat → Nat
  comm : MatchComm CommId

/-- A slot of `ompi_mpi_communicators`. `ompi_comm_nextcid` reserves a slot with a
pointer to the parent communicator. -/
inductive CidSlot where
  | vacant
  | reserved (parent : Nat)
  | live (comm : LiveComm)

/-- The point-to-point layer of a process. `epoch` is `ompi_mpi_comm_epoch`. -/
structure Ob1Process where
  slots : Nat → CidSlot
  epoch : Nat → Nat
  pending : List Packet

namespace Ob1Process

def setSlot (w : Ob1Process) (cid : Nat) (s : CidSlot) : Ob1Process :=
  { w with slots := update w.slots cid s }

/-- `ompi_comm_lookup`: the context id of the communicator that the slot points to. -/
def commLookup (w : Ob1Process) (ctx : Nat) : Option Nat :=
  match w.slots ctx with
  | .vacant => none
  | .reserved parent => some parent
  | .live _ => some ctx

/-- A step of the matching of a communicator. -/
def onComm (w : Ob1Process) (cid : Nat) (e : MatchEvent CommId) : Ob1Process :=
  match w.slots cid with
  | .live comm => w.setSlot cid (.live { comm with comm := comm.comm.step e })
  | _ => w

def recvFrag (w : Ob1Process) (k : Packet) : Ob1Process :=
  match w.commLookup k.ctx with
  | none => { w with pending := w.pending ++ [k] }
  | some cid => w.onComm cid (.arrive k.frag)

/-- The end of `ompi_comm_nextcid`, and `mca_pml_ob1_add_comm`. -/
def addComm (w : Ob1Process) (id : CommId) (rank : Nat) : Ob1Process :=
  let (pending, comm) := MatchComm.grabPending id.cid w.pending (.new id.group.length)
  { slots := update w.slots id.cid (.live
      { id := id
        myRank := rank
        sent := fun _ => 0
        comm := comm })
    epoch := update w.epoch id.cid id.epoch
    pending := pending }

end Ob1Process

/-- The processes and the match fragments in flight, each with its destination. -/
structure Ob1World where
  procs : Nat → Ob1Process
  flight : List (Nat × Packet)

inductive Ob1Event where
  /-- `ompi_comm_nextcid` reserves a slot at a process. -/
  | reserve (p parent cid : Nat)
  /-- `ompi_comm_nextcid` gives a slot back. -/
  | release (p cid : Nat)
  | create (p : Nat) (id : CommId) (rank : Nat)
  | free (p cid : Nat)
  /-- A process starts a message on a communicator. -/
  | send (p cid dest : Nat) (hdrType : HdrType) (tag : ℤ)
  /-- A fragment in flight comes in. -/
  | deliver (i : Nat)
  /-- Another step of the matching of a communicator. -/
  | matching (p cid : Nat) (e : MatchEvent CommId)

namespace Ob1World

def setProc (w : Ob1World) (p : Nat) (s : Ob1Process) : Ob1World :=
  { w with procs := update w.procs p s }

def init : Ob1World where
  procs := fun _ => { slots := fun _ => .vacant, epoch := fun _ => 0, pending := [] }
  flight := []

/-- One step; a step that the code cannot take leaves the state. -/
def step (w : Ob1World) : Ob1Event → Ob1World
  | .reserve p parent cid =>
    match (w.procs p).slots cid, (w.procs p).slots parent with
    | .vacant, .live _ => w.setProc p ((w.procs p).setSlot cid (.reserved parent))
    | _, _ => w
  | .release p cid =>
    match (w.procs p).slots cid with
    | .reserved _ => w.setProc p ((w.procs p).setSlot cid .vacant)
    | _ => w
  | .create p id rank =>
    match (w.procs p).slots id.cid with
    | .live _ => w
    | _ =>
      if (w.procs p).epoch id.cid < id.epoch then w.setProc p ((w.procs p).addComm id rank)
      else w
  | .free p cid =>
    match (w.procs p).slots cid with
    | .live _ => w.setProc p ((w.procs p).setSlot cid .vacant)
    | _ => w
  | .send p cid dest hdrType tag =>
    match (w.procs p).slots cid with
    | .live comm =>
      let frag : Frag CommId :=
        { hdrType := hdrType, src := comm.myRank, tag := tag, index := comm.sent dest + 1,
          data := comm.id }
      let comm' := { comm with sent := update comm.sent dest (comm.sent dest + 1) }
      { w.setProc p ((w.procs p).setSlot cid (.live comm')) with
        flight := w.flight ++ [(dest, { ctx := cid, frag := frag })] }
    | _ => w
  | .deliver i =>
    match w.flight[i]? with
    | none => w
    | some (p, k) =>
      { w.setProc p ((w.procs p).recvFrag k) with flight := w.flight.eraseIdx i }
  | .matching p cid e =>
    match e with
    | .arrive _ => w
    | _ => w.setProc p ((w.procs p).onComm cid e)

/-- No request of a communicator is matched with a fragment of another one. -/
def Isolated (w : Ob1World) : Prop :=
  ∀ p cid comm, (w.procs p).slots cid = .live comm → ∀ r f,
    .received r f ∈ comm.comm.log ∨ .probed r f ∈ comm.comm.log → f.data = comm.id

/-- A context id is reserved or used at a process only when no fragment of an older
communicator with it is in flight to the process or pending there, and nobody sends
on an older communicator to a process that has its context id in use again. -/
def Drained (w : Ob1World) : Ob1Event → Prop
  | .reserve p _ cid =>
    (∀ k, (p, k) ∈ w.flight → k.ctx ≠ cid) ∧ ∀ k ∈ (w.procs p).pending, k.ctx ≠ cid
  | .create p id _ =>
    (∀ k, (p, k) ∈ w.flight → k.ctx = id.cid → k.frag.data = id) ∧
      ∀ k ∈ (w.procs p).pending, k.ctx = id.cid → k.frag.data = id
  | .send p cid dest _ _ => ∀ comm, (w.procs p).slots cid = .live comm →
      match (w.procs dest).slots cid with
      | .vacant => True
      | .reserved _ => False
      | .live comm' => comm'.id = comm.id
  | _ => True

end Ob1World

/-! ## The fragments of one communicator -/

namespace MatchComm

variable {D : Type} {P : Frag D → Prop} {c : MatchComm D} {f : Frag D}

/-- The fragments that the communicator holds or has matched. -/
structure OnlyFrom (P : Frag D → Prop) (c : MatchComm D) : Prop where
  parked : ∀ i, ∀ f ∈ (c.procs i).cantMatch, P f
  unexpected : ∀ i, ∀ f ∈ (c.procs i).unexpected, P f
  matched : ∀ r f, .received r f ∈ c.log ∨ .probed r f ∈ c.log → P f

section

variable (h : OnlyFrom P c)
include h

theorem OnlyFrom.setProc {i : Nat} {p : CommProc D}
    (hc : ∀ f ∈ p.cantMatch, P f) (hu : ∀ f ∈ p.unexpected, P f) : OnlyFrom P (c.setProc i p) := by
  refine ⟨?_, ?_, h.matched⟩
  · intro j f hf
    by_cases hj : j = i
    · subst hj
      simp only [MatchComm.setProc, update_self] at hf
      exact hc f hf
    · simp only [MatchComm.setProc, update_of_ne hj] at hf
      exact h.parked j f hf
  · intro j f hf
    by_cases hj : j = i
    · subst hj
      simp only [MatchComm.setProc, update_self] at hf
      exact hu f hf
    · simp only [MatchComm.setProc, update_of_ne hj] at hf
      exact h.unexpected j f hf

theorem OnlyFrom.setProc_same {i : Nat} {p : CommProc D}
    (hc : p.cantMatch ⊆ (c.procs i).cantMatch) (hu : p.unexpected ⊆ (c.procs i).unexpected) :
    OnlyFrom P (c.setProc i p) :=
  h.setProc (fun f hf => h.parked i f (hc hf)) fun f hf => h.unexpected i f (hu hf)

theorem OnlyFrom.note {n : Note D}
    (hn : ∀ r f, n = .received r f ∨ n = .probed r f → P f) : OnlyFrom P (c.note n) := by
  refine ⟨h.parked, h.unexpected, ?_⟩
  intro r f hf
  rcases hf with hf | hf <;> rcases mem_cons.mp hf with heq | hf
  · exact hn r f (.inl heq.symm)
  · exact h.matched r f (.inl hf)
  · exact hn r f (.inr heq.symm)
  · exact h.matched r f (.inr hf)

theorem OnlyFrom.matchOne (hf : P f) : OnlyFrom P (c.matchOne f) := by
  fun_induction MatchComm.matchOne c f with
  | case1 c hm =>
    refine h.setProc (h.parked f.src) ?_
    intro g hg
    rcases mem_append.mp hg with hg | hg
    · exact h.unexpected f.src g hg
    · rw [mem_singleton.mp hg]
      exact hf
  | case2 c r wild specific hm c' hprobe ih =>
    have hset : OnlyFrom P c' := OnlyFrom.setProc_same (c := { c with wild := wild })
      ⟨h.parked, h.unexpected, h.matched⟩ (List.Subset.refl _) (List.Subset.refl _)
    refine ih (hset.note ?_)
    rintro q g (heq | heq) <;> cases heq
    exact hf
  | case3 c r wild specific hm c' hprobe =>
    have hset : OnlyFrom P c' := OnlyFrom.setProc_same (c := { c with wild := wild })
      ⟨h.parked, h.unexpected, h.matched⟩ (List.Subset.refl _) (List.Subset.refl _)
    refine hset.note ?_
    rintro q g (heq | heq) <;> cases heq
    exact hf

theorem OnlyFrom.count (i : Nat) : OnlyFrom P (c.count i) :=
  h.setProc_same (List.Subset.refl _) (List.Subset.refl _)

theorem OnlyFrom.arrive (hf : P f) : OnlyFrom P (c.arrive f) := by
  rcases arrive_cases c f with ⟨-, heq⟩ | ⟨-, -, heq⟩ | ⟨-, -, ⟨-, heq⟩ | heq⟩ <;> rw [heq]
  · refine h.note ?_
    rintro q g (heq | heq) <;> cases heq
  · refine h.setProc ?_ (h.unexpected f.src)
    intro g hg
    rcases mem_append.mp hg with hg | hg
    · exact h.parked f.src g hg
    · rw [mem_singleton.mp hg]
      exact hf
  · exact (h.count f.src).matchOne hf
  · exact ((h.count f.src).matchOne hf).setProc_same (List.Subset.refl _) (List.Subset.refl _)

theorem OnlyFrom.resume (src : Nat) : OnlyFrom P (c.resume src) := by
  rcases resume_cases c src with ⟨-, heq⟩ | ⟨-, -, heq⟩ | ⟨-, f, hfind, heq⟩ <;> rw [heq]
  · exact h
  · exact h.setProc_same (List.Subset.refl _) (List.Subset.refl _)
  · have hf : P f := h.parked src f (mem_of_find?_eq_some hfind)
    refine OnlyFrom.matchOne (OnlyFrom.count ?_ src) hf
    exact h.setProc_same eraseP_subset (List.Subset.refl _)

theorem OnlyFrom.recvReqStart (kind : RecvKind) (peer : Option Nat) (tag : ℤ) :
    OnlyFrom P (c.recvReqStart kind peer tag) := by
  have hstart : ∀ (c : MatchComm D) r, OnlyFrom P c → OnlyFrom P (c.start r) := by
    intro c r h
    refine OnlyFrom.note (c := { c with started := c.started + 1 })
      ⟨h.parked, h.unexpected, h.matched⟩ ?_
    rintro q g (heq | heq) <;> cases heq
  obtain ⟨r, -, -, ⟨heq, -⟩ | ⟨i, f, last, -, hfind, heq⟩⟩ := recvReqStart_cases c kind peer tag <;>
    rw [heq]
  · have hposted := hstart c r h
    rw [MatchComm.append]
    split_ifs
    · exact hposted
    · split
      · exact ⟨hposted.parked, hposted.unexpected, hposted.matched⟩
      · exact hposted.setProc_same (List.Subset.refl _) (List.Subset.refl _)
  · have hf : P f := h.unexpected i f (mem_of_find?_eq_some hfind)
    have hposted := hstart { c with lastProbed := last } r ⟨h.parked, h.unexpected, h.matched⟩
    rw [MatchComm.matchUnexpected]
    split_ifs
    · refine hposted.note ?_
      rintro q g (heq | heq) <;> cases heq
      exact hf
    · refine OnlyFrom.note (n := .received r f) ?_ ?_
      · exact hposted.setProc_same (List.Subset.refl _) eraseP_subset
      · rintro q g (heq | heq) <;> cases heq
        exact hf

theorem OnlyFrom.recvRequestCancel (r : RecvReq) : OnlyFrom P (c.recvRequestCancel r) := by
  rw [MatchComm.recvRequestCancel]
  split
  · split_ifs
    · refine OnlyFrom.note (c := { c with wild := c.wild.erase r })
        ⟨h.parked, h.unexpected, h.matched⟩ ?_
      rintro q g (heq | heq) <;> cases heq
    · exact h
  · split_ifs
    · refine OnlyFrom.note (n := .cancelled r) ?_ ?_
      · exact h.setProc_same (List.Subset.refl _) (List.Subset.refl _)
      · rintro q g (heq | heq) <;> cases heq
    · exact h

theorem OnlyFrom.revokeComm (collOnly : Bool) : OnlyFrom P (c.revokeComm collOnly) := by
  refine ⟨?_, ?_, ?_⟩
  · exact fun i f hf => h.parked i f ((revokeComm_sublist i (.inr rfl)).subset hf)
  · exact fun i f hf => h.unexpected i f ((revokeComm_sublist i (.inl rfl)).subset hf)
  · intro r f hf
    rw [revokeComm_log] at hf
    exact h.matched r f (by simpa using hf)

theorem OnlyFrom.step {e : MatchEvent D} (he : ∀ f, e = .arrive f → P f) :
    OnlyFrom P (c.step e) := by
  cases e with
  | arrive f =>
    refine OnlyFrom.arrive (OnlyFrom.note h ?_) (he f rfl)
    rintro q g (heq | heq) <;> cases heq
  | resume src => exact h.resume src
  | post kind peer tag => exact h.recvReqStart kind peer tag
  | cancel r => exact h.recvRequestCancel r
  | revoke collOnly => exact h.revokeComm collOnly

end

theorem OnlyFrom.new (n : Nat) : OnlyFrom P (new n) := by
  refine ⟨?_, ?_, ?_⟩
  · intro i f hf
    cases hf
  · intro i f hf
    cases hf
  · rintro r f (hf | hf) <;> cases hf

section

variable (h : OnlyFrom P c)
include h

theorem OnlyFrom.enqueue (hf : P f) : OnlyFrom P (c.enqueue f) := by
  refine h.setProc (h.parked f.src) ?_
  intro g hg
  rcases mem_append.mp hg with hg | hg
  · exact h.unexpected f.src g hg
  · rw [mem_singleton.mp hg]
    exact hf

theorem OnlyFrom.park (hf : P f) : OnlyFrom P (c.park f) := by
  refine h.setProc ?_ (h.unexpected f.src)
  intro g hg
  rcases mem_append.mp hg with hg | hg
  · exact h.parked f.src g hg
  · rw [mem_singleton.mp hg]
    exact hf

theorem OnlyFrom.unpark {src : Nat} {c' : MatchComm D} (hu : c.unpark src = some (c', f)) :
    OnlyFrom P c' ∧ P f := by
  rw [MatchComm.unpark, Option.map_eq_some_iff] at hu
  obtain ⟨g, hfind, heq⟩ := hu
  cases heq
  refine ⟨?_, h.parked src f (mem_of_find?_eq_some hfind)⟩
  exact h.setProc_same eraseP_subset (List.Subset.refl _)

theorem OnlyFrom.addFragmentToUnexpected (rounds : Nat) (hf : P f) :
    OnlyFrom P (addFragmentToUnexpected rounds c f) := by
  fun_induction MatchComm.addFragmentToUnexpected rounds c f with
  | case1 c f hseq => exact h.enqueue hf
  | case2 c f hseq => exact h.park hf
  | case3 rounds c f hseq hu => exact h.enqueue hf
  | case4 rounds c f hseq c' f' hu ih =>
    obtain ⟨hc', hf'⟩ := (h.enqueue hf).unpark hu
    exact ih hc' hf'
  | case5 rounds c f hseq => exact h.park hf

theorem OnlyFrom.grabPending {ctx : Nat} {pending : List (PendingFrag D)}
    (hp : ∀ k ∈ pending, k.ctx = ctx → P k.frag) : OnlyFrom P (grabPending ctx pending c).2 := by
  fun_induction MatchComm.grabPending ctx pending c with
  | case1 c => exact h
  | case2 k rest c hne result ih => exact ih h fun k' hk' => hp k' (mem_cons_of_mem k hk')
  | case3 k rest c heq ih =>
    refine ih (h.addFragmentToUnexpected _ ?_) fun k' hk' => hp k' (mem_cons_of_mem k hk')
    exact hp k mem_cons_self (not_not.mp heq)

end

theorem grabPending_fst (ctx : Nat) (pending : List (PendingFrag D)) (c : MatchComm D) :
    (grabPending ctx pending c).1 = pending.filter fun k => k.ctx ≠ ctx := by
  fun_induction MatchComm.grabPending ctx pending c with
  | case1 c => rfl
  | case2 k rest c hne result ih => simp [hne, result, ih]
  | case3 k rest c heq ih => simp [ih, not_not.mp heq]

end MatchComm

/-! ## The invariant of a run -/

namespace Ob1World

variable {w : Ob1World} {e : Ob1Event}

/-- What a process may hold, given the fragments in flight to it. -/
structure Separate (s : Ob1Process) (inbound : Packet → Prop) : Prop where
  held : ∀ cid comm, s.slots cid = .live comm → comm.comm.OnlyFrom fun f => f.data = comm.id
  inbound_live : ∀ k, inbound k → ∀ comm, s.slots k.ctx = .live comm → k.frag.data = comm.id
  inbound_reserved : ∀ k, inbound k → ∀ parent, s.slots k.ctx ≠ .reserved parent
  pending : ∀ k ∈ s.pending, s.slots k.ctx = .vacant

theorem Separate.mono {s : Ob1Process} {inbound inbound' : Packet → Prop} (h : Separate s inbound)
    (hsub : ∀ k, inbound' k → inbound k) : Separate s inbound' :=
  ⟨h.held, fun k hk => h.inbound_live k (hsub k hk), fun k hk => h.inbound_reserved k (hsub k hk),
    h.pending⟩

theorem Separate.setSlot {s : Ob1Process} {inbound : Packet → Prop} (h : Separate s inbound)
    (cid : Nat) (v : CidSlot)
    (hheld : ∀ comm, v = .live comm → comm.comm.OnlyFrom fun f => f.data = comm.id)
    (hlive : ∀ k, inbound k → k.ctx = cid → ∀ comm, v = .live comm → k.frag.data = comm.id)
    (hreserved : ∀ k, inbound k → k.ctx = cid → ∀ parent, v ≠ .reserved parent)
    (hpending : ∀ k ∈ s.pending, k.ctx = cid → v = .vacant) :
    Separate (s.setSlot cid v) inbound := by
  have hslot : ∀ i, (s.setSlot cid v).slots i = if i = cid then v else s.slots i := by
    intro i
    by_cases hi : i = cid
    · simp [Ob1Process.setSlot, hi]
    · simp [Ob1Process.setSlot, hi]
  refine ⟨?_, ?_, ?_, ?_⟩
  · intro i comm hi
    rw [hslot] at hi
    split_ifs at hi
    · exact hheld comm hi
    · exact h.held i comm hi
  · intro k hk comm hc
    rw [hslot] at hc
    split_ifs at hc with hctx
    · exact hlive k hk hctx comm hc
    · exact h.inbound_live k hk comm hc
  · intro k hk parent
    rw [hslot]
    split_ifs with hctx
    · exact hreserved k hk hctx parent
    · exact h.inbound_reserved k hk parent
  · intro k hk
    rw [hslot]
    split_ifs with hctx
    · exact hpending k hk hctx
    · exact h.pending k hk

def Sorted (w : Ob1World) : Prop := ∀ p, Separate (w.procs p) fun k => (p, k) ∈ w.flight

theorem Sorted.setProc (h : Sorted w) {p : Nat} {s : Ob1Process} {flight : List (Nat × Packet)}
    (hsub : flight ⊆ w.flight) (hs : Separate s fun k => (p, k) ∈ flight) :
    Sorted { w.setProc p s with flight := flight } := by
  intro q
  by_cases hq : q = p
  · subst hq
    simp only [Ob1World.setProc, update_self]
    exact hs
  · simp only [Ob1World.setProc, update_of_ne hq]
    exact (h q).mono fun k hk => hsub hk

section

variable {s : Ob1Process} {inbound : Packet → Prop} (h : Separate s inbound)
include h

theorem Separate.recvFrag {k : Packet} (hk : inbound k) : Separate (s.recvFrag k) inbound := by
  rw [Ob1Process.recvFrag, Ob1Process.commLookup]
  cases hslot : s.slots k.ctx with
  | vacant =>
    refine ⟨h.held, h.inbound_live, h.inbound_reserved, ?_⟩
    intro k' hk'
    rcases mem_append.mp hk' with hk' | hk'
    · exact h.pending k' hk'
    · rw [mem_singleton.mp hk']
      exact hslot
  | reserved parent => exact absurd hslot (h.inbound_reserved k hk parent)
  | live comm =>
    simp only [Ob1Process.onComm, hslot]
    refine h.setSlot _ _ ?_ ?_ ?_ ?_
    · intro comm' heq
      cases heq
      change MatchComm.OnlyFrom (fun f => f.data = comm.id) (comm.comm.step (.arrive k.frag))
      refine (h.held k.ctx comm hslot).step ?_
      intro f hf
      cases hf
      exact h.inbound_live k hk comm hslot
    · intro k' hk' hctx comm' heq
      cases heq
      exact h.inbound_live k' hk' comm (hctx.symm ▸ hslot)
    · intro k' _ _ parent heq
      cases heq
    · intro k' hk' hctx
      have := h.pending k' hk'
      rw [hctx, hslot] at this
      cases this

theorem Separate.onComm (cid : Nat) {e : MatchEvent CommId} (he : ∀ f, e ≠ .arrive f) :
    Separate (s.onComm cid e) inbound := by
  rw [Ob1Process.onComm]
  cases hslot : s.slots cid with
  | vacant => exact h
  | reserved parent => exact h
  | live comm =>
    refine h.setSlot _ _ ?_ ?_ ?_ ?_
    · intro comm' heq
      cases heq
      exact (h.held cid comm hslot).step fun f hf => absurd hf (he f)
    · intro k hk hctx comm' heq
      cases heq
      exact h.inbound_live k hk comm (hctx.symm ▸ hslot)
    · intro k _ _ parent heq
      cases heq
    · intro k hk hctx
      have := h.pending k hk
      rw [hctx, hslot] at this
      cases this

theorem Separate.addComm
    {id : CommId} (rank : Nat) (hin : ∀ k, inbound k → k.ctx = id.cid → k.frag.data = id)
    (hpending : ∀ k ∈ s.pending, k.ctx = id.cid → k.frag.data = id) :
    Separate (s.addComm id rank) inbound := by
  -- the pending fragments of the communicator go to it, the others stay
  have hrest : Separate { s with pending := s.pending.filter fun k => k.ctx ≠ id.cid } inbound :=
    ⟨h.held, h.inbound_live, h.inbound_reserved, fun k hk => h.pending k (mem_filter.mp hk).1⟩
  have hset := hrest.setSlot id.cid (.live
    { id := id
      myRank := rank
      sent := fun _ => 0
      comm := (MatchComm.grabPending id.cid s.pending (.new id.group.length)).2 }) ?_ ?_ ?_ ?_
  · refine ⟨hset.held, hset.inbound_live, hset.inbound_reserved, ?_⟩
    intro k hk
    refine hset.pending k ?_
    rwa [← MatchComm.grabPending_fst id.cid s.pending (.new id.group.length)]
  · intro comm heq
    cases heq
    exact (MatchComm.OnlyFrom.new _).grabPending hpending
  · intro k hk hctx comm heq
    cases heq
    exact hin k hk hctx
  · intro k _ _ parent heq
    cases heq
  · intro k hk hctx
    have := (mem_filter.mp hk).2
    simp [hctx] at this

end

theorem Sorted.send (h : Sorted w) {p cid dest : Nat} {hdrType : HdrType} {tag : ℤ}
    (hd : w.Drained (.send p cid dest hdrType tag)) :
    Sorted (w.step (.send p cid dest hdrType tag)) := by
  simp only [Ob1World.step]
  cases hslot : (w.procs p).slots cid with
  | vacant => exact h
  | reserved parent => exact h
  | live comm =>
    have hd' := hd comm hslot
    -- the sender counts the message
    have hsent : Separate ((w.procs p).setSlot cid (.live { comm with
        sent := update comm.sent dest (comm.sent dest + 1) })) fun k =>
          (p, k) ∈ w.flight := by
      refine (h p).setSlot _ _ ?_ ?_ ?_ ?_
      · intro comm' heq
        cases heq
        exact (h p).held cid comm hslot
      · intro k hk hctx comm' heq
        cases heq
        exact (h p).inbound_live k hk comm (hctx.symm ▸ hslot)
      · intro k _ _ parent heq
        cases heq
      · intro k hk hctx
        have := (h p).pending k hk
        rw [hctx, hslot] at this
        cases this
    have hold := h.setProc (List.Subset.refl w.flight) hsent
    intro q
    refine ⟨(hold q).held, ?_, ?_, (hold q).pending⟩
    · intro k hk comm' hc
      rcases mem_append.mp hk with hk | hk
      · exact (hold q).inbound_live k hk comm' hc
      · cases mem_singleton.mp hk
        by_cases hq : dest = p
        · subst hq
          simp only [Ob1World.setProc, Ob1Process.setSlot, update_self] at hc
          cases hc
          rfl
        · simp only [Ob1World.setProc, update_of_ne hq] at hc
          rw [hc] at hd'
          exact hd'.symm
    · intro k hk parent hc
      rcases mem_append.mp hk with hk | hk
      · exact (hold q).inbound_reserved k hk parent hc
      · cases mem_singleton.mp hk
        by_cases hq : dest = p
        · subst hq
          simp only [Ob1World.setProc, Ob1Process.setSlot, update_self] at hc
          cases hc
        · simp only [Ob1World.setProc, update_of_ne hq] at hc
          rw [hc] at hd'
          exact hd'

theorem Sorted.vacate (h : Sorted w) (p cid : Nat) :
    Sorted (w.setProc p ((w.procs p).setSlot cid .vacant)) := by
  refine h.setProc (List.Subset.refl w.flight) ((h p).setSlot _ _ ?_ ?_ ?_ ?_)
  · intro comm heq
    cases heq
  · intro k _ _ comm heq
    cases heq
  · intro k _ _ parent heq
    cases heq
  · intro k _ _
    rfl

theorem Sorted.step (h : Sorted w) (hd : w.Drained e) : Sorted (w.step e) := by
  cases e with
  | reserve p parent cid =>
    simp only [Ob1World.step]
    split
    · refine h.setProc (List.Subset.refl w.flight) ((h p).setSlot _ _ ?_ ?_ ?_ ?_)
      · intro comm heq
        cases heq
      · intro k _ _ comm heq
        cases heq
      · exact fun k hk hctx => absurd hctx (hd.1 k hk)
      · exact fun k hk hctx => absurd hctx (hd.2 k hk)
    · exact h
  | release p cid | free p cid =>
    simp only [Ob1World.step]
    split
    · exact h.vacate p cid
    · exact h
  | create p id rank =>
    simp only [Ob1World.step]
    split
    · exact h
    · split_ifs
      · exact h.setProc (List.Subset.refl w.flight) ((h p).addComm rank hd.1 hd.2)
      · exact h
  | send p cid dest hdrType tag => exact h.send hd
  | deliver i =>
    simp only [Ob1World.step]
    split
    · exact h
    · next p k hk =>
        refine h.setProc (eraseIdx_subset) ?_
        refine Separate.mono ((h p).recvFrag (mem_of_getElem? hk)) ?_
        exact fun k' hk' => eraseIdx_subset hk'
  | matching p cid e =>
    have hlocal : ∀ e : MatchEvent CommId, (∀ f, e ≠ .arrive f) →
        Sorted (w.setProc p ((w.procs p).onComm cid e)) := fun e he =>
      h.setProc (List.Subset.refl w.flight) ((h p).onComm cid he)
    cases e with
    | arrive f => exact h
    | resume src | post kind peer tag | cancel r | revoke collOnly => exact hlocal _ nofun

theorem Sorted.isolated (h : Sorted w) : Isolated w := fun p cid comm hslot r f hf =>
  ((h p).held cid comm hslot).matched r f hf

end Ob1World

/-- In every run in which the context ids are used again only after the old fragments
are gone, no fragment is matched on another communicator. -/
theorem context_reuse_isolated (events : List Ob1Event)
    (hrun : Along Ob1World.step Ob1World.Drained .init events) :
    (events.foldl Ob1World.step .init).Isolated := by
  have hinv := hrun.invariant (I := Ob1World.Sorted) (fun w e h hd => h.step hd) ?_
  · exact hinv.isolated
  · intro p
    refine ⟨?_, ?_, ?_, ?_⟩
    · intro cid comm hc
      cases hc
    · intro k hk
      cases hk
    · intro k hk
      cases hk
    · intro k hk
      cases hk

/-- A communicator of the processes 0 and 1 with the context id 5. -/
def pairComm (epoch : Nat) : CommId where
  cid := 5
  epoch := epoch
  group := [0, 1]

/-- Both processes create a communicator, free it after its only message has come in and
create its successor with the same context id, where a message waits for the receiver. -/
def successorRun : List Ob1Event :=
  [.create 0 (pairComm 1) 0, .create 1 (pairComm 1) 1, .send 1 5 0 .hdrMatch 7, .deliver 0,
    .matching 0 5 (.post .recv none 7), .free 0 5, .free 1 5, .create 1 (pairComm 2) 1,
    .send 1 5 0 .hdrMatch 7, .deliver 0, .create 0 (pairComm 2) 0,
    .matching 0 5 (.post .recv none 7)]

theorem context_reuse_isolated_pair :
    Along Ob1World.step Ob1World.Drained .init successorRun ∧
      (foldl Ob1World.step .init successorRun).Isolated := by
  have hrun : Along Ob1World.step Ob1World.Drained .init successorRun := by
    refine ⟨⟨?_, ?_⟩, ⟨?_, ?_⟩, ?_, trivial, trivial, trivial, trivial, ⟨?_, ?_⟩, ?_, trivial,
      ⟨?_, ?_⟩, trivial, trivial⟩
    · intro k hk
      cases hk
    · intro k hk
      cases hk
    · intro k hk
      cases hk
    · intro k hk
      cases hk
    · intro comm hcomm
      cases hcomm
      rfl
    · intro k hk
      cases hk
    · intro k hk
      cases hk
    · intro comm hcomm
      cases hcomm
      trivial
    · intro k hk
      cases hk
    · intro k hk hctx
      cases mem_singleton.mp hk
      rfl
  exact ⟨hrun, context_reuse_isolated _ hrun⟩

/-- A message is on its way while both processes revoke and free the communicator and
create another one with its context id. The new communicator gets it. -/
theorem late_fragment_matched_on_successor :
    ¬ ∀ events : List Ob1Event, (events.foldl Ob1World.step .init).Isolated := by
  intro h
  have hrun := h [.create 0 (pairComm 1) 0, .create 1 (pairComm 1) 1, .send 1 5 0 .hdrMatch 7,
    .matching 0 5 (.revoke false), .matching 1 5 (.revoke false), .free 0 5, .free 1 5,
    .deliver 0, .create 0 (pairComm 2) 0, .create 1 (pairComm 2) 1,
    .matching 0 5 (.post .recv none 7)]
  have hmatched := hrun 0 5 _ rfl { kind := .recv, peer := none, tag := 7, index := 0 }
    { hdrType := .hdrMatch, src := 1, tag := 7, index := 1, data := pairComm 1 }
    (.inl mem_cons_self)
  cases hmatched

end Ulfm
