import Mathlib.Data.List.Count
import Mathlib.Data.List.Perm.Basic

/-!
# Control messages and their pending queue

An ACK or a FIN that no BTL takes becomes a record of the list `pckt_pending`, and
`mca_pml_ob1_process_pending_packets` rebuilds the call from the record. A call of the
BTL may run callbacks, and these may send other control messages and progress the queue
again, so the functions are given by what their calls do from the first statement to
the last (`Runs`).
-/

namespace Ulfm.Pckt

/-- `mca_bml_base_btl_t`: the BTL module and the endpoint of the peer. -/
structure BmlBtl where
  btl : Nat
  endpoint : Nat
deriving DecidableEq

/-- `mca_bml_base_btl_array_t`. -/
structure BtlArray where
  bmlBtls : List BmlBtl
  arrIndex : Nat

namespace BtlArray

/-- `mca_bml_base_btl_array_get_next`. -/
def getNext (a : BtlArray) : Option BmlBtl × BtlArray :=
  if a.bmlBtls.length = 1 then (a.bmlBtls[0]?, a)
  else
    (a.bmlBtls[a.arrIndex]?,
      { a with arrIndex := if a.arrIndex + 1 = a.bmlBtls.length then 0 else a.arrIndex + 1 })

/-- `mca_bml_base_btl_array_find`. -/
def find (a : BtlArray) (btl : Nat) : Option BmlBtl := a.bmlBtls.find? fun b => b.btl = btl

end BtlArray

/-- The arguments of `mca_pml_ob1_recv_request_ack_send`. -/
structure AckCall where
  proc : Nat
  hdrSrcReq : Nat
  hdrDstReq : Nat
  hdrSendOffset : Nat
  nordma : Bool
deriving DecidableEq

/-- The arguments of `mca_pml_ob1_send_fin` but the BTL. -/
structure FinCall where
  proc : Nat
  hdrDes : Nat
  order : Nat
  status : Nat
deriving DecidableEq

inductive Request
  | ack (a : AckCall)
  | fin (f : FinCall)
deriving DecidableEq

/-- `mca_pml_ob1_ack_hdr_t` and `mca_pml_ob1_fin_hdr_t`. -/
inductive Header
  | ack (hdrFlags : BitVec 8) (hdrSrcReq hdrDstReq hdrSendOffset : Nat)
  | fin (hdrFlags : BitVec 8) (hdrDes hdrFail : Nat)
deriving DecidableEq

/-- What a BTL is given: a descriptor of `size` bytes for the peer, and its header. -/
structure Packet where
  proc : Nat
  order : Nat
  size : Nat
  header : Header
deriving DecidableEq

/-- `MCA_PML_OB1_HDR_FLAGS_NBO` and `MCA_PML_OB1_HDR_FLAGS_NORDMA`. -/
def hdrFlagsNbo : BitVec 8 := 2

def hdrFlagsNordma : BitVec 8 := 16

/-- `MCA_BTL_NO_ORDER`, and the sizes of the two headers. -/
def btlNoOrder : Nat := 255

def sizeofAckHdr : Nat := 32

def sizeofFinHdr : Nat := 16

/-- What `ob1_hdr_hton` adds to the flags; `nbo` tells the peers of the other byte order. -/
def hdrHton (nbo : Nat → Bool) (proc : Nat) : BitVec 8 := if nbo proc then hdrFlagsNbo else 0

/-- The descriptor and the header that `mca_pml_ob1_recv_request_ack_send_btl` and
`mca_pml_ob1_send_fin` fill in. -/
def Request.packet (nbo : Nat → Bool) : Request → Packet
  | .ack a =>
    { proc := a.proc, order := btlNoOrder, size := sizeofAckHdr
      header := .ack ((if a.nordma then hdrFlagsNordma else 0) ||| hdrHton nbo a.proc)
        a.hdrSrcReq a.hdrDstReq a.hdrSendOffset }
  | .fin f =>
    { proc := f.proc, order := f.order, size := sizeofFinHdr
      header := .fin (0 ||| hdrHton nbo f.proc) f.hdrDes f.status }

/-- The members of the header union after `hdr_common`. -/
inductive PendingHdr
  | ack (hdrSrcReq hdrDstReq hdrSendOffset : Nat)
  | fin (hdrDes hdrFail : Nat)
deriving DecidableEq

/-- `mca_pml_ob1_pckt_pending_t`. -/
structure PcktPending where
  proc : Nat
  hdrFlags : BitVec 8
  hdr : PendingHdr
  bmlBtl : Option BmlBtl
  order : Nat
deriving DecidableEq

namespace PcktPending

/-- `MCA_PML_OB1_ADD_ACK_TO_PENDING`: it sets neither the flags nor the order. -/
def addAck (pckt : PcktPending) (a : AckCall) : PcktPending :=
  { pckt with
    hdr := .ack a.hdrSrcReq a.hdrDstReq a.hdrSendOffset
    proc := a.proc
    bmlBtl := none }

/-- `MCA_PML_OB1_ADD_FIN_TO_PENDING`. -/
def addFin (pckt : PcktPending) (f : FinCall) (bmlBtl : BmlBtl) : PcktPending :=
  { pckt with
    hdr := .fin f.hdrDes f.status
    proc := f.proc
    bmlBtl := some bmlBtl
    order := f.order }

/-- The call that `mca_pml_ob1_process_pending_packets` rebuilds. -/
def request (pckt : PcktPending) : Request :=
  match pckt.hdr with
  | .ack srcReq dstReq sendOffset =>
    .ack { proc := pckt.proc, hdrSrcReq := srcReq, hdrDstReq := dstReq
           hdrSendOffset := sendOffset, nordma := pckt.hdrFlags &&& hdrFlagsNordma ≠ 0 }
  | .fin des fail =>
    .fin { proc := pckt.proc, hdrDes := des, order := pckt.order, status := fail }

/-- `send_dst`. -/
def sendDst (pckt : PcktPending) (btlEager : Nat → BtlArray) (btl : Nat) : Option BmlBtl :=
  match pckt.bmlBtl with
  | some b => if b.btl = btl then some b else (btlEager pckt.proc).find btl
  | none => (btlEager pckt.proc).find btl

end PcktPending

/-- The lists of `mca_pml_ob1`, and the history: what the BTLs took, what was asked for,
and for each ACK put on the queue its `nordma` and the flags of the record it got. A
packet is kept with the request it is for. -/
structure PcktState where
  pendingPckts : List PcktPending
  pcktPending : List (Request × PcktPending) := []
  btlEager : Nat → BtlArray
  wire : List (Request × Packet) := []
  asked : List Request := []
  deferred : List (Bool × BitVec 8) := []

namespace PcktState

/-- The BTL takes the packet of a call for the request `ask`. -/
def take (s : PcktState) (ask : Request) (p : Packet) : PcktState :=
  { s with wire := s.wire ++ [(ask, p)] }

def ask (s : PcktState) (r : Request) : PcktState := { s with asked := s.asked ++ [r] }

/-- The next BTL is taken from the array of a peer. -/
def setEager (s : PcktState) (proc : Nat) (a : BtlArray) : PcktState :=
  { s with btlEager := fun q => if q = proc then a else s.btlEager q }

/-- The record at the head of the free list is set for an ACK and appended. -/
def queueAck (s : PcktState) (ask : Request) (a : AckCall) (pckt : PcktPending)
    (free : List PcktPending) : PcktState :=
  { s with
    pendingPckts := free
    pcktPending := s.pcktPending ++ [(ask, pckt.addAck a)]
    deferred := s.deferred ++ [(a.nordma, pckt.hdrFlags)] }

/-- The record at the head of the free list is set for a FIN and appended. -/
def queueFin (s : PcktState) (ask : Request) (f : FinCall) (dst : BmlBtl) (pckt : PcktPending)
    (free : List PcktPending) : PcktState :=
  { s with
    pendingPckts := free
    pcktPending := s.pcktPending ++ [(ask, pckt.addFin f dst)] }

/-- `opal_list_append` of a record that was removed. -/
def requeue (s : PcktState) (item : Request × PcktPending) : PcktState :=
  { s with pcktPending := s.pcktPending ++ [item] }

/-- `MCA_PML_OB1_PCKT_PENDING_RETURN`. -/
def giveBack (s : PcktState) (pckt : PcktPending) : PcktState :=
  { s with pendingPckts := pckt :: s.pendingPckts }

/-- The bound of the loop, an `int32_t`. -/
def rounds (s : PcktState) : Nat := (BitVec.ofNat 32 s.pcktPending.length).toInt.toNat

end PcktState

/-- The calls, with the request they are made for. -/
inductive PcktCall
  /-- Whatever the callbacks and the rest of the library do. -/
  | activity
  /-- `mca_pml_ob1_recv_request_ack_send_btl`. -/
  | ackSendBtl (ask : Request) (a : AckCall) (dst : BmlBtl)
  /-- `mca_pml_ob1_recv_request_ack_send` from round `i` of its loop on. -/
  | ackSend (a : AckCall) (i : Nat)
  /-- `mca_pml_ob1_send_fin`. -/
  | sendFin (ask : Request) (f : FinCall) (dst : BmlBtl)
  /-- `mca_pml_ob1_process_pending_packets` with that many rounds of its loop left. -/
  | process (btl : Nat) (rounds : Nat)

open PcktCall in
/-- `Runs nbo call s s' rc`: the call leads from `s` to `s'` and returns `OMPI_SUCCESS`
(`true`) or `OMPI_ERR_OUT_OF_RESOURCE`. -/
inductive Runs (nbo : Nat → Bool) : PcktCall → PcktState → PcktState → Bool → Prop
  | idle (s) : Runs nbo activity s s true
  | askAck {s s₁ s₂ a rc} : Runs nbo activity s s₁ true →
      Runs nbo (ackSend a 0) (s₁.ask (.ack a)) s₂ rc → Runs nbo activity s s₂ true
  | askFin {s s₁ s₂ f dst rc} : Runs nbo activity s s₁ true →
      Runs nbo (sendFin (.fin f) f dst) (s₁.ask (.fin f)) s₂ rc → Runs nbo activity s s₂ true
  | progress {s s₁ s₂ rc} (btl) : Runs nbo activity s s₁ true →
      Runs nbo (process btl s₁.rounds) s₁ s₂ rc → Runs nbo activity s s₂ true
  /-- The arrays of BTLs change, after a failure for example. -/
  | reroute {s s₁} (btlEager) : Runs nbo activity s s₁ true →
      Runs nbo activity s { s₁ with btlEager } true
  /-- `ompi_free_list_grow`: the records come from `malloc`. -/
  | grow {s s₁} (pckts) : Runs nbo activity s s₁ true →
      Runs nbo activity s { s₁ with pendingPckts := pckts ++ s₁.pendingPckts } true
  -- `mca_pml_ob1_recv_request_ack_send_btl`: no descriptor or refused, and taken
  | ackFails {s s₁ ask a dst} : Runs nbo activity s s₁ true →
      Runs nbo (ackSendBtl ask a dst) s s₁ false
  | ackTaken {s s₁ s₂ ask a dst} : Runs nbo activity s s₁ true →
      Runs nbo activity (s₁.take ask (Request.packet nbo (.ack a))) s₂ true →
      Runs nbo (ackSendBtl ask a dst) s s₂ true
  -- `mca_pml_ob1_recv_request_ack_send`
  | ackSent {s s₁ a i dst array} : i < (s.btlEager a.proc).bmlBtls.length →
      (s.btlEager a.proc).getNext = (some dst, array) →
      Runs nbo (ackSendBtl (.ack a) a dst) (s.setEager a.proc array) s₁ true →
      Runs nbo (ackSend a i) s s₁ true
  | ackNext {s s₁ s₂ a i dst array rc} : i < (s.btlEager a.proc).bmlBtls.length →
      (s.btlEager a.proc).getNext = (some dst, array) →
      Runs nbo (ackSendBtl (.ack a) a dst) (s.setEager a.proc array) s₁ false →
      Runs nbo (ackSend a (i + 1)) s₁ s₂ rc → Runs nbo (ackSend a i) s s₂ rc
  | ackDeferred {s s₁ a i pckt free} : (s.btlEager a.proc).bmlBtls.length ≤ i →
      Runs nbo activity s s₁ true → s₁.pendingPckts = pckt :: free →
      Runs nbo (ackSend a i) s (s₁.queueAck (.ack a) a pckt free) false
  -- `mca_pml_ob1_send_fin`; the last rule is for a send that returns 1
  | finDeferred {s s₁ ask f dst pckt free} : Runs nbo activity s s₁ true →
      s₁.pendingPckts = pckt :: free →
      Runs nbo (sendFin ask f dst) s (s₁.queueFin ask f dst pckt free) false
  | finTaken {s s₁ s₂ ask f dst} : Runs nbo activity s s₁ true →
      Runs nbo activity (s₁.take ask (Request.packet nbo (.fin f))) s₂ true →
      Runs nbo (sendFin ask f dst) s s₂ true
  | finProgress {s s₁ s₂ ask f dst rc} : Runs nbo (sendFin ask f dst) s s₁ true →
      Runs nbo (process dst.btl s₁.rounds) s₁ s₂ rc → Runs nbo (sendFin ask f dst) s s₂ true
  -- `mca_pml_ob1_process_pending_packets`
  | processEnd (s btl) : Runs nbo (process btl 0) s s true
  | processEmpty {s btl n} : s.pcktPending = [] → Runs nbo (process btl (n + 1)) s s true
  | processSkip {s s₁ btl n item rest rc} : s.pcktPending = item :: rest →
      item.2.sendDst s.btlEager btl = none →
      Runs nbo (process btl n) (PcktState.requeue { s with pcktPending := rest } item) s₁ rc →
      Runs nbo (process btl (n + 1)) s s₁ rc
  | processAck {s s₁ s₂ btl n ask pckt rest dst a rc} : s.pcktPending = (ask, pckt) :: rest →
      pckt.sendDst s.btlEager btl = some dst → pckt.request = .ack a →
      Runs nbo (ackSendBtl ask a dst) { s with pcktPending := rest } s₁ true →
      Runs nbo (process btl n) (s₁.giveBack pckt) s₂ rc → Runs nbo (process btl (n + 1)) s s₂ rc
  | processAckFails {s s₁ btl n ask pckt rest dst a} : s.pcktPending = (ask, pckt) :: rest →
      pckt.sendDst s.btlEager btl = some dst → pckt.request = .ack a →
      Runs nbo (ackSendBtl ask a dst) { s with pcktPending := rest } s₁ false →
      Runs nbo (process btl (n + 1)) s (s₁.requeue (ask, pckt)) false
  | processFin {s s₁ s₂ btl n ask pckt rest dst f rc} : s.pcktPending = (ask, pckt) :: rest →
      pckt.sendDst s.btlEager btl = some dst → pckt.request = .fin f →
      Runs nbo (sendFin ask f dst) { s with pcktPending := rest } s₁ true →
      Runs nbo (process btl n) (s₁.giveBack pckt) s₂ rc → Runs nbo (process btl (n + 1)) s s₂ rc
  -- `send_fin` has put the packet on the queue again, in a record of its own
  | processFinFails {s s₁ btl n ask pckt rest dst f} : s.pcktPending = (ask, pckt) :: rest →
      pckt.sendDst s.btlEager btl = some dst → pckt.request = .fin f →
      Runs nbo (sendFin ask f dst) { s with pcktPending := rest } s₁ false →
      Runs nbo (process btl (n + 1)) s s₁ false

end Ulfm.Pckt
