import Ulfm.Request.Definitions
import Mathlib.Algebra.Order.Ring.Int

/-!
# Matching in the ob1 point-to-point layer

The receive side of one communicator at one process: `match_incomming`,
`match_one`, `mca_pml_ob1_recv_frag_match` and its fast path,
`mca_pml_ob1_recv_req_start`, the cancellation of a receive and
`mca_pml_ob1_revoke_comm`.

A fragment keeps the number of its send among those of its source, of which the
header holds the 16 low bits; a peer keeps how many of its fragments have been
counted, of which `expected_sequence` holds the 16 low bits; a request keeps its
number among the requests of the communicator, of which `recv_sequence` holds the
32 low bits. What the code does with a fragment or a request is written to a log,
newest entry first.

The code holds the matching lock while it looks at the queues and gives it up
between a match and the next look at `frags_cant_match`. A step of the model is a
section with the lock held, so that other calls can come in between.
-/

namespace Ulfm

open List Option Function

/-- `OMPI_ANY_TAG`. -/
def ompiAnyTag : ℤ := -1

/-- `hdr_type` of a fragment that starts a message. -/
inductive HdrType where
  | hdrMatch
  | hdrRndv
  | hdrRget
  deriving DecidableEq

/-- The match header of a fragment, with the data that comes with it. -/
structure Frag (D : Type) where
  hdrType : HdrType
  src : Nat
  tag : ℤ
  index : Nat
  data : D
  deriving DecidableEq

/-- `hdr_seq`. -/
def Frag.seq {D : Type} (f : Frag D) : Nat := f.index % 2 ^ 16

/-- `mca_pml_base_request_type_t`, the kinds of a receive request. -/
inductive RecvKind where
  | recv
  | probe
  | iprobe
  | mprobe
  | improbe
  deriving DecidableEq

/-- `mca_pml_ob1_recv_request_t`. `peer` is `none` for `OMPI_ANY_SOURCE`. -/
structure RecvReq where
  kind : RecvKind
  peer : Option Nat
  tag : ℤ
  index : Nat
  deriving DecidableEq

namespace RecvReq

/-- `req_sequence`. -/
def sequence (r : RecvReq) : Nat := r.index % 2 ^ 32

/-- The test of `match_incomming`. -/
def takesTag (r : RecvReq) (tag : ℤ) : Bool := r.tag = tag ∨ (r.tag = ompiAnyTag ∧ 0 ≤ tag)

/-- The test of `recv_req_match_specific_proc`. -/
def findsTag (r : RecvReq) (tag : ℤ) : Bool := if r.tag = ompiAnyTag then 0 ≤ tag else tag = r.tag

/-- `append_recv_req_to_queue` leaves the requests of these kinds out. -/
def waits (r : RecvReq) : Bool := r.kind ≠ .iprobe ∧ r.kind ≠ .improbe

/-- The request looks at a message and leaves it: `IS_PROB_REQ` and not
`IS_MPROB_REQ`. -/
def looks (r : RecvReq) : Bool := r.kind = .probe ∨ r.kind = .iprobe

end RecvReq

/-- What happens to fragments and requests. -/
inductive Note (D : Type) where
  | arrived (f : Frag D)
  | posted (r : RecvReq)
  /-- The request gets the message; for a matching probe, to receive it later. -/
  | received (r : RecvReq) (f : Frag D)
  | probed (r : RecvReq) (f : Frag D)
  | cancelled (r : RecvReq)
  /-- The fragment is thrown away because of a revocation, with a NACK to its
  sender unless it is of type `MATCH`. -/
  | dropped (f : Frag D)

/-- `mca_pml_ob1_comm_proc_t`. `draining` is the number of calls that have matched a
fragment of the peer and are going to look at `frags_cant_match` again. -/
structure CommProc (D : Type) where
  counted : Nat
  cantMatch : List (Frag D)
  specific : List RecvReq
  unexpected : List (Frag D)
  draining : Nat

namespace CommProc

variable {D : Type}

/-- `mca_pml_ob1_comm_proc_construct`. -/
def new : CommProc D where
  counted := 0
  cantMatch := []
  specific := []
  unexpected := []
  draining := 0

/-- `expected_sequence`, which starts at 1. -/
def expectedSequence (p : CommProc D) : Nat := (p.counted + 1) % 2 ^ 16

end CommProc

/-- `match_incomming`: the request that is matched and the two queues without it.
With equal numbers at the heads of the two queues the search ends. -/
def matchIncoming (tag : ℤ) :
    List RecvReq → List RecvReq → Option (RecvReq × List RecvReq × List RecvReq)
  | [], [] => none
  | w :: wild, [] =>
    if w.takesTag tag then some (w, wild, [])
    else (matchIncoming tag wild []).map fun (r, ws, ss) => (r, w :: ws, ss)
  | [], s :: specific =>
    if s.takesTag tag then some (s, [], specific)
    else (matchIncoming tag [] specific).map fun (r, ws, ss) => (r, ws, s :: ss)
  | w :: wild, s :: specific =>
    if w.sequence = s.sequence then none
    else if w.sequence < s.sequence then
      if w.takesTag tag then some (w, wild, s :: specific)
      else (matchIncoming tag wild (s :: specific)).map fun (r, ws, ss) => (r, w :: ws, ss)
    else
      if s.takesTag tag then some (s, w :: wild, specific)
      else (matchIncoming tag (w :: wild) specific).map fun (r, ws, ss) => (r, ws, s :: ss)
termination_by wild specific => wild.length + specific.length

theorem matchIncoming_length {tag : ℤ} {wild specific : List RecvReq} {r : RecvReq}
    {ws ss : List RecvReq} (h : matchIncoming tag wild specific = some (r, ws, ss)) :
    ws.length + ss.length + 1 = wild.length + specific.length := by
  fun_induction matchIncoming tag wild specific generalizing r ws ss with
  | case1 => cases h
  | case2 w wild htakes =>
    cases h
    rfl
  | case3 w wild htakes ih | case5 s specific htakes ih =>
    obtain ⟨⟨r', ws', ss'⟩, hrec, heq⟩ := map_eq_some_iff.mp h
    cases heq
    have := ih hrec
    simp only [length_cons, length_nil] at this ⊢
    omega
  | case4 s specific htakes =>
    cases h
    simp only [length_cons, length_nil]
    omega
  | case6 => cases h
  | case7 | case9 =>
    cases h
    simp only [length_cons]
    omega
  | case8 w wild s specific hne hlt htakes ih =>
    obtain ⟨⟨r', ws', ss'⟩, hrec, heq⟩ := map_eq_some_iff.mp h
    cases heq
    have := ih hrec
    simp only [length_cons] at this ⊢
    omega
  | case10 w wild s specific hne hlt htakes ih =>
    obtain ⟨⟨r', ws', ss'⟩, hrec, heq⟩ := map_eq_some_iff.mp h
    cases heq
    have := ih hrec
    simp only [length_cons] at this ⊢
    omega

/-- `mca_pml_ob1_comm_t` and the flags of the communicator that the matching
reads. -/
structure MatchComm (D : Type) where
  numProcs : Nat
  started : Nat
  wild : List RecvReq
  procs : Nat → CommProc D
  lastProbed : Nat
  revoked : Bool
  collRevoked : Bool
  log : List (Note D)

inductive MatchEvent (D : Type) where
  /-- The BTL hands in a fragment. -/
  | arrive (f : Frag D)
  /-- A call that has matched a fragment of the peer goes on. -/
  | resume (src : Nat)
  /-- A receive or a probe is started. -/
  | post (kind : RecvKind) (peer : Option Nat) (tag : ℤ)
  | cancel (r : RecvReq)
  | revoke (collOnly : Bool)

namespace MatchComm

variable {D : Type}

/-- `mca_pml_ob1_comm_init_size`. -/
def new (numProcs : Nat) : MatchComm D where
  numProcs := numProcs
  started := 0
  wild := []
  procs := fun _ => .new
  lastProbed := 0
  revoked := false
  collRevoked := false
  log := []

def note (c : MatchComm D) (n : Note D) : MatchComm D := { c with log := n :: c.log }

def setProc (c : MatchComm D) (i : Nat) (p : CommProc D) : MatchComm D :=
  { c with procs := update c.procs i p }

/-- The fragments that a revocation throws away. -/
def drops (c : MatchComm D) (tag : ℤ) : Bool :=
  (c.revoked && !requestTagIsFt tag) || (c.collRevoked && requestTagIsCollective tag)

/-- `expected_sequence++`. -/
def count (c : MatchComm D) (i : Nat) : MatchComm D :=
  c.setProc i { c.procs i with counted := (c.procs i).counted + 1 }

/-- `match_one`. -/
def matchOne (c : MatchComm D) (f : Frag D) : MatchComm D :=
  match h : matchIncoming f.tag c.wild (c.procs f.src).specific with
  | none =>
    c.setProc f.src { c.procs f.src with unexpected := (c.procs f.src).unexpected ++ [f] }
  | some (r, wild, specific) =>
    let c' := { c with wild := wild }.setProc f.src { c.procs f.src with specific := specific }
    -- a probe is completed, and the fragment is offered again
    if r.kind = .probe then matchOne (c'.note (.probed r f)) f
    else c'.note (.received r f)
termination_by c.wild.length + (c.procs f.src).specific.length
decreasing_by
  have := matchIncoming_length h
  simp only [note, setProc, update_self]
  omega

/-- `mca_pml_ob1_recv_frag_match` up to the first unlock, and whether it goes on. -/
def recvFragFirst (c : MatchComm D) (f : Frag D) : MatchComm D × Bool :=
  if c.drops f.tag then (c.note (.dropped f), false)
  else if f.seq ≠ (c.procs f.src).expectedSequence then
    (c.setProc f.src { c.procs f.src with cantMatch := (c.procs f.src).cantMatch ++ [f] }, false)
  else ((c.count f.src).matchOne f, true)

/-- `check_cantmatch_for_match` and the match of the fragment it finds, and whether
the call goes on. -/
def recvFragNext (c : MatchComm D) (src : Nat) : MatchComm D × Bool :=
  let p := c.procs src
  match p.cantMatch.find? fun f => f.seq = p.expectedSequence with
  | none => (c, false)
  | some f =>
    let rest := p.cantMatch.eraseP fun f => f.seq = p.expectedSequence
    (((c.setProc src { p with cantMatch := rest }).count src).matchOne f, true)

/-- The loop of `mca_pml_ob1_recv_frag_match` after the first match. -/
def drain : Nat → MatchComm D → Nat → MatchComm D
  | 0, c, _ => c
  | fuel + 1, c, src =>
    let (c', more) := c.recvFragNext src
    if more then drain fuel c' src else c'

/-- `mca_pml_ob1_recv_frag_match` without an interruption. -/
def recvFragMatch (c : MatchComm D) (f : Frag D) : MatchComm D :=
  let (c', more) := c.recvFragFirst f
  if more then drain ((c'.procs f.src).cantMatch.length + 1) c' f.src else c'

def inSequence (c : MatchComm D) (f : Frag D) : Bool :=
  f.seq = (c.procs f.src).expectedSequence && (c.procs f.src).cantMatch.isEmpty

/-- `mca_pml_ob1_recv_frag_callback_match` without an interruption. -/
def recvFragCallbackMatch (c : MatchComm D) (f : Frag D) : MatchComm D :=
  if c.drops f.tag then c.note (.dropped f)
  else if !c.inSequence f then c.recvFragMatch f
  else (c.count f.src).matchOne f

/-- `recv_req_match_specific_proc`. -/
def recvReqMatchSpecificProc (r : RecvReq) (p : CommProc D) : Option (Frag D) :=
  p.unexpected.find? fun f => r.findsTag f.tag

/-- The two loops of `recv_req_match_wild`. -/
def probeOrder (c : MatchComm D) : List Nat :=
  range' (c.lastProbed + 1) (c.numProcs - (c.lastProbed + 1)) ++ range (c.lastProbed + 1)

/-- `recv_req_match_wild`: the peer and its fragment. -/
def recvReqMatchWild (c : MatchComm D) (r : RecvReq) : Option (Nat × Frag D) :=
  c.probeOrder.findSome? fun i => (recvReqMatchSpecificProc r (c.procs i)).map fun f => (i, f)

/-- `append_recv_req_to_queue`. -/
def append (c : MatchComm D) (r : RecvReq) : MatchComm D :=
  if !r.waits then c
  else
    match r.peer with
    | none => { c with wild := c.wild ++ [r] }
    | some i => c.setProc i { c.procs i with specific := (c.procs i).specific ++ [r] }

/-- The request is matched with a fragment of the unexpected queue of a peer. -/
def matchUnexpected (c : MatchComm D) (r : RecvReq) (i : Nat) (f : Frag D) : MatchComm D :=
  if r.looks then c.note (.probed r f)
  else
    (c.setProc i { c.procs i with
      unexpected := (c.procs i).unexpected.eraseP fun f => r.findsTag f.tag }).note (.received r f)

/-- `mca_pml_ob1_recv_req_start`. -/
def recvReqStart (c : MatchComm D) (kind : RecvKind) (peer : Option Nat) (tag : ℤ) : MatchComm D :=
  let r : RecvReq := { kind := kind, peer := peer, tag := tag, index := c.started }
  let c' := { c with started := c.started + 1 }.note (.posted r)
  match peer with
  | none =>
    match c'.recvReqMatchWild r with
    | none => c'.append r
    | some (i, f) => { c' with lastProbed := i }.matchUnexpected r i f
  | some i =>
    match recvReqMatchSpecificProc r (c'.procs i) with
    | none => c'.append r
    | some f => c'.matchUnexpected r i f

def Pending (c : MatchComm D) (r : RecvReq) : Prop := r ∈ c.wild ∨ ∃ i, r ∈ (c.procs i).specific

/-- `mca_pml_ob1_recv_request_cancel` of a request that has not been matched. -/
def recvRequestCancel (c : MatchComm D) (r : RecvReq) : MatchComm D :=
  match r.peer with
  | none =>
    if r ∈ c.wild then { c with wild := c.wild.erase r }.note (.cancelled r) else c
  | some i =>
    if r ∈ (c.procs i).specific then
      (c.setProc i { c.procs i with specific := (c.procs i).specific.erase r }).note (.cancelled r)
    else c

/-- The fragments of a queue that a revocation throws away. -/
def purged (c : MatchComm D) (queue : List (Frag D)) : List (Frag D) :=
  queue.filter fun f => c.drops f.tag

/-- The fragments of a queue that a revocation keeps. -/
def kept (c : MatchComm D) (queue : List (Frag D)) : List (Frag D) :=
  queue.filter fun f => !c.drops f.tag

/-- `mca_pml_ob1_revoke_comm`. -/
def revokeComm (c : MatchComm D) (collOnly : Bool) : MatchComm D :=
  let c' := { c with collRevoked := true, revoked := c.revoked || !collOnly }
  { c' with
    procs := fun i =>
      if i < c.numProcs then
        { c.procs i with
          unexpected := c'.kept (c.procs i).unexpected
          cantMatch := c'.kept (c.procs i).cantMatch }
      else c.procs i
    log := ((range c.numProcs).flatMap fun i =>
      (c'.purged (c.procs i).unexpected ++ c'.purged (c.procs i).cantMatch).map .dropped) ++ c.log }

/-- A call of `mca_pml_ob1_recv_frag_match` is going to look at `frags_cant_match`
again. -/
def enter (c : MatchComm D) (i : Nat) : MatchComm D :=
  c.setProc i { c.procs i with draining := (c.procs i).draining + 1 }

/-- A call has found nothing in `frags_cant_match`. -/
def leave (c : MatchComm D) (i : Nat) : MatchComm D :=
  c.setProc i { c.procs i with draining := (c.procs i).draining - 1 }

/-- The first section of the callback for a fragment. Only a fragment of type
`MATCH` can take the fast path. -/
def arrive (c : MatchComm D) (f : Frag D) : MatchComm D :=
  if f.hdrType = .hdrMatch ∧ !c.drops f.tag ∧ c.inSequence f then (c.count f.src).matchOne f
  else
    let (c', more) := c.recvFragFirst f
    if more then c'.enter f.src else c'

/-- The next section of a call that goes on. -/
def resume (c : MatchComm D) (src : Nat) : MatchComm D :=
  if (c.procs src).draining = 0 then c
  else
    let (c', more) := c.recvFragNext src
    if more then c' else c'.leave src

def step (c : MatchComm D) : MatchEvent D → MatchComm D
  | .arrive f => (c.note (.arrived f)).arrive f
  | .resume src => c.resume src
  | .post kind peer tag => c.recvReqStart kind peer tag
  | .cancel r => c.recvRequestCancel r
  | .revoke collOnly => c.revokeComm collOnly

end MatchComm

end Ulfm
