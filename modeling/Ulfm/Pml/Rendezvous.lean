import Mathlib.Data.List.Rotate
import Mathlib.Order.Interval.Set.Basic
import Ulfm.Pml.SendRequest

/-!
# The parts of a long message

A message that is too long to be sent at once starts with a rendezvous, which may
carry its first bytes. The receiver then divides the rest in
`mca_pml_ob1_recv_request_ack`: an interval that it has written by RDMA, spread over
the BTLs by their weights and scheduled piece by piece, and an interval that the
sender copies in and out when it gets the ACK.
-/

namespace Ulfm.Rndv

open SendReq (sizeMod subSize)

variable {W : Type}

/-- The arithmetic of `double` on the weights of the BTLs. -/
structure Weighing (W : Type) where
  zero : W
  half : W
  add : W → W → W
  lt : W → W → Bool
  /-- `(size_t)(size * (weight / weight_total))`. -/
  share : ℕ → W → W → ℕ

/-- `mca_bml_base_btl_t`, with the limits of its BTL and whether that has an mpool. -/
structure Btl (W : Type) where
  name : ℕ
  weight : W
  eagerLimit : ℕ
  rdmaPipelineFragSize : ℕ
  mpool : Bool

/-- `btl_reg`: `NULL`, `pml_ob1_dummy_reg` or the registration of the mpool. -/
inductive Registration
  | null
  | dummy
  | mpool
  deriving DecidableEq

/-- `mca_pml_ob1_com_btl_t`. -/
structure ComBtl (W : Type) where
  bmlBtl : Btl W
  btlReg : Registration
  length : ℕ

/-- The bytes that a list of BTLs has been given. -/
def total (btls : List (ComBtl W)) : ℕ := (btls.map (·.length)).sum

@[simp]
theorem total_nil : total ([] : List (ComBtl W)) = 0 := rfl

@[simp]
theorem total_cons (b : ComBtl W) (btls : List (ComBtl W)) :
    total (b :: btls) = b.length + total btls := by
  simp [total]

/-- The loop of `mca_pml_ob1_calc_weighted_length`, with what it leaves over. -/
def weighLoop (ω : Weighing W) (size : ℕ) (weightTotal : W) :
    ℕ → List (ComBtl W) → List (ComBtl W) × ℕ
  | left, [] => ([], left)
  | left, b :: btls =>
    let length :=
      if left = 0 then 0
      else
        let length :=
          if b.bmlBtl.eagerLimit < left then ω.share size b.bmlBtl.weight weightTotal else left
        if left < length then left else length
    let rest := weighLoop ω size weightTotal (left - length) btls
    ({ b with length := length } :: rest.1, rest.2)

/-- `mca_pml_ob1_calc_weighted_length`, with `mca_pml_ob1_com_btl_comp`. -/
def calcWeightedLength (ω : Weighing W) (size : ℕ) (weightTotal : W) :
    List (ComBtl W) → List (ComBtl W)
  | [b] => [{ b with length := size }]
  | btls =>
    let sorted := btls.mergeSort fun a b => !ω.lt a.bmlBtl.weight b.bmlBtl.weight
    match weighLoop ω size weightTotal size sorted with
    | ([], _) => []
    | (b :: rest, left) => { b with length := b.length + left } :: rest

section

variable (ω : Weighing W) (size : ℕ) (t : W)
include ω size t

theorem weighLoop_length (btls : List (ComBtl W)) :
    ∀ left, (weighLoop ω size t left btls).1.length = btls.length := by
  induction btls with
  | nil => intro left; rfl
  | cons b btls ih =>
    intro left
    simp only [weighLoop, List.length_cons]
    rw [ih]

theorem weighLoop_total (btls : List (ComBtl W)) :
    ∀ left, total (weighLoop ω size t left btls).1 + (weighLoop ω size t left btls).2 = left := by
  induction btls with
  | nil => intro left; simp [weighLoop]
  | cons b btls ih =>
    intro left
    simp only [weighLoop, total_cons]
    rw [Nat.add_assoc, ih]
    split_ifs <;> omega

theorem calcWeightedLength_eq_nil :
    calcWeightedLength ω size t [] = [] := by
  simp [calcWeightedLength, weighLoop]

theorem total_calcWeightedLength (btls : List (ComBtl W))
    (h : btls ≠ []) : total (calcWeightedLength ω size t btls) = size := by
  unfold calcWeightedLength
  split
  · simp
  · have hlen := weighLoop_length ω size t
      (btls.mergeSort fun a b => !ω.lt a.bmlBtl.weight b.bmlBtl.weight) size
    have htotal := weighLoop_total ω size t
      (btls.mergeSort fun a b => !ω.lt a.bmlBtl.weight b.bmlBtl.weight) size
    dsimp only
    split
    · next heq =>
        rw [heq, List.length_mergeSort] at hlen
        exact absurd (List.length_eq_zero_iff.mp hlen.symm) h
    · next heq =>
        rw [heq] at htotal
        simp only [total_cons] at htotal ⊢
        omega

end

/-- `mca_bml_base_endpoint_t`, with the RDMA BTLs and where the next search of them
begins. -/
structure Endpoint (W : Type) where
  btlRdma : List (Btl W)
  rdmaIndex : ℕ
  arrIndex : ℕ
  btlSendLimit : ℕ
  btlPipelineSendLength : ℕ

structure Params where
  leavePinned : Bool
  maxRdmaPerRequest : ℕ
  recvPipelineDepth : ℕ

def weightTotal (ω : Weighing W) (btls : List (ComBtl W)) : W :=
  btls.foldl (fun t b => ω.add t b.bmlBtl.weight) ω.zero

/-- `mca_pml_ob1_rdma_btls`. What `mpool_find` or `mpool_register` return for the
buffer is given by `registered`. -/
def rdmaBtls (ω : Weighing W) (params : Params) (ep : Endpoint W) (registered : Btl W → Bool)
    (size : ℕ) : List (ComBtl W) :=
  let usable := (ep.btlRdma.rotate ep.rdmaIndex).filterMap fun b =>
    if b.mpool then
      if registered b then some (ComBtl.mk b .mpool 0) else none
    else some (ComBtl.mk b .dummy 0)
  let used := usable.take params.maxRdmaPerRequest
  let t := weightTotal ω used
  if used.isEmpty || (!params.leavePinned && ω.lt t ω.half) then []
  else calcWeightedLength ω size t used

/-- `mca_pml_ob1_rdma_pipeline_btls`. -/
def rdmaPipelineBtls (ω : Weighing W) (params : Params) (ep : Endpoint W) (size : ℕ) :
    List (ComBtl W) :=
  let used := ((ep.btlRdma.rotate ep.arrIndex).take params.maxRdmaPerRequest).map fun b =>
    ComBtl.mk b (if b.mpool then .null else .dummy) 0
  calcWeightedLength ω size (weightTotal ω used) used

theorem total_rdmaBtls {ω : Weighing W} {params : Params} {ep : Endpoint W}
    {registered : Btl W → Bool} {size : ℕ} (h : rdmaBtls ω params ep registered size ≠ []) :
    total (rdmaBtls ω params ep registered size) = size := by
  simp only [rdmaBtls] at h ⊢
  split_ifs at h ⊢ with hempty
  · exact absurd rfl h
  · apply total_calcWeightedLength
    intro hnil
    rw [hnil] at hempty
    simp at hempty

theorem total_rdmaPipelineBtls (ω : Weighing W) {params : Params} {ep : Endpoint W} (size : ℕ)
    (hmax : 0 < params.maxRdmaPerRequest) (hbtls : ep.btlRdma ≠ []) :
    total (rdmaPipelineBtls ω params ep size) = size := by
  apply total_calcWeightedLength
  simp [hbtls, hmax.ne']

theorem rdmaPipelineBtls_eq_nil (ω : Weighing W) {params : Params} (ep : Endpoint W) (size : ℕ)
    (hmax : params.maxRdmaPerRequest = 0) : rdmaPipelineBtls ω params ep size = [] := by
  simp [rdmaPipelineBtls, hmax, calcWeightedLength_eq_nil]

/-- The receive convertor: `local_size`, the flags that decide how it can be moved, and
where `opal_convertor_generic_simple_position` would leave it. -/
structure Convertor where
  localSize : ℕ
  count : ℕ
  bConverted : ℕ
  homogeneous : Bool
  noGaps : Bool
  contiguous : Bool
  genericSimplePosition : ℕ → ℕ

/-- `opal_convertor_need_buffers`. -/
def Convertor.needBuffers (c : Convertor) : Bool :=
  if !c.homogeneous then true
  else if c.noGaps then false
  else if c.count = 1 ∧ c.contiguous then false
  else true

/-- `opal_convertor_set_position`, on a receive convertor without checksums. -/
def Convertor.setPosition (c : Convertor) (position : ℕ) : ℕ :=
  if c.localSize ≤ position then c.localSize
  else if position = c.bConverted then position
  else if c.noGaps ∧ c.homogeneous then position
  else if position = 0 then position
  else if c.contiguous then position
  else c.genericSimplePosition position

theorem Convertor.setPosition_eq {c : Convertor} (h : c.needBuffers = false) (p : ℕ) :
    c.setPosition p = min c.localSize p := by
  unfold needBuffers at h
  unfold setPosition
  by_cases hp : c.localSize ≤ p
  · rw [if_pos hp, Nat.min_eq_left hp]
  · rw [if_neg hp, Nat.min_eq_right (by omega)]
    split_ifs at h ⊢ <;> simp_all

/-- `mca_pml_ob1_rendezvous_hdr_t`: the length and the flags `CONTIG` and `PIN`. -/
structure RndvHdr where
  msgLength : ℕ
  contig : Bool
  pin : Bool
  deriving DecidableEq

/-- `mca_pml_ob1_recv_request_t`. -/
structure RecvReq (W : Type) where
  bytesPacked : ℕ
  rdmaOffset : ℕ
  sendOffset : ℕ
  rdma : List (ComBtl W)
  rdmaIdx : ℕ
  pipelineDepth : ℕ
  ackSent : Bool
  pending : Bool

/-- `mca_pml_ob1_recv_req_start`: the two offsets keep the values of an earlier use. -/
def recvReqStart (rdmaOffset sendOffset : ℕ) : RecvReq W where
  bytesPacked := 0
  rdmaOffset := rdmaOffset
  sendOffset := sendOffset
  rdma := []
  rdmaIdx := 0
  pipelineDepth := 0
  ackSent := false
  pending := false

/-- `mca_pml_ob1_ack_hdr_t`. -/
structure AckHdr where
  sendOffset : ℕ
  nordma : Bool
  deriving DecidableEq

section Receiver

variable (ω : Weighing W) (params : Params) (ep : Endpoint W) (registered : Btl W → Bool)
  (conv : Convertor)

/-- The offset that the pipeline protocol computes. -/
def pipelineOffset (hdr : RndvHdr) (bytesReceived : ℕ) : ℕ :=
  let offset := subSize hdr.msgLength ep.btlPipelineSendLength
  conv.setPosition (if offset < bytesReceived then bytesReceived else offset)

/-- The choice of the protocol in `mca_pml_ob1_recv_request_ack`. -/
def chooseProtocol (req : RecvReq W) (hdr : RndvHdr) (bytesReceived : ℕ) : RecvReq W :=
  let req := { req with sendOffset := bytesReceived }
  if bytesReceived < hdr.msgLength ∧ conv.needBuffers = false ∧ hdr.contig ∧ ep.btlRdma ≠ [] then
    let req := { req with
      rdma := if hdr.pin then rdmaBtls ω params ep registered req.bytesPacked else [] }
    if req.rdma ≠ [] then { req with sendOffset := hdr.msgLength }
    else if ep.btlSendLimit < hdr.msgLength then
      let offset := pipelineOffset ep conv hdr bytesReceived
      { req with
        sendOffset := offset
        rdma := rdmaPipelineBtls ω params ep (subSize offset bytesReceived) }
    else req
  else req

/-- `mca_pml_ob1_recv_request_ack`, with the ACK that it sends. -/
def recvRequestAck (req : RecvReq W) (hdr : RndvHdr) (bytesReceived : ℕ) :
    RecvReq W × Option AckHdr :=
  let req := chooseProtocol ω params ep registered conv req hdr bytesReceived
  if bytesReceived < hdr.msgLength ∧ req.sendOffset = hdr.msgLength then (req, none)
  else
    ({ req with ackSent := true },
      some { sendOffset := req.sendOffset, nordma := req.sendOffset = bytesReceived })

/-- The first message of a rendezvous: its type, its header and the bytes it carries. -/
structure First where
  rget : Bool
  hdr : RndvHdr
  data : ℕ

/-- `mca_pml_ob1_recv_request_progress_rndv`, and `mca_pml_ob1_recv_request_progress_rget`
where it falls back to `mca_pml_ob1_recv_request_ack`. Otherwise the whole message is
read by a get. -/
def progress (req : RecvReq W) (first : First) : Option (RecvReq W × Option AckHdr) :=
  let req := { req with bytesPacked := first.hdr.msgLength }
  if first.rget then
    if conv.needBuffers then some (recvRequestAck ω params ep registered conv req first.hdr 0)
    else none
  else
    let req := { req with rdmaOffset := first.data }
    some (recvRequestAck ω params ep registered conv req first.hdr first.data)

end Receiver

section Sender

/-- `req_send_mode`, as far as the start of a request looks at it. -/
inductive SendMode
  | synchronous
  | buffered
  | complete
  | standard
  deriving DecidableEq

/-- A send request at its start on a BTL: `eager_limit` without the header, how many
RDMA BTLs have registered its buffer and whether the first of them can get, and the
number of bytes that can be packed. -/
structure Sender where
  bytesPacked : ℕ
  sendMode : SendMode
  needBuffers : Bool
  eagerLimit : ℕ
  rndvEagerLimit : ℕ
  rdmaCnt : ℕ
  canGet : Bool
  packable : ℕ

/-- `mca_pml_ob1_send_request_start_rndv`, and `mca_pml_ob1_send_request_start_buffered`
with no flags. -/
def Sender.startRndv (s : Sender) (size : ℕ) (contig : Bool) : First where
  rget := false
  hdr := { msgLength := s.bytesPacked, contig := contig, pin := false }
  data := min s.packable size

/-- `mca_pml_ob1_send_request_start_rdma`. -/
def Sender.startRdma (s : Sender) : First where
  rget := s.rdmaCnt = 1 ∧ s.canGet
  hdr := { msgLength := s.bytesPacked, contig := true, pin := true }
  data := 0

/-- `mca_pml_ob1_send_request_start_btl`, where it starts a rendezvous. -/
def Sender.startBtl (s : Sender) : Option First :=
  if s.bytesPacked ≤ s.eagerLimit then
    if s.sendMode = .synchronous then some (s.startRndv s.bytesPacked false) else none
  else
    let size := if s.rndvEagerLimit < s.eagerLimit then s.rndvEagerLimit else s.eagerLimit
    if s.sendMode = .buffered then some (s.startRndv size false)
    else if s.needBuffers = false then
      if s.rdmaCnt ≠ 0 then some s.startRdma else some (s.startRndv size true)
    else some (s.startRndv size false)

/-- `mca_pml_ob1_recv_frag_callback_ack`: the range that
`mca_pml_ob1_send_request_copy_in_out` queues. -/
def copyRange (bytesPacked : ℕ) : Option AckHdr → Set ℕ
  | none => ∅
  | some ack =>
    let length := subSize bytesPacked ack.sendOffset
    if length = 0 then ∅ else Set.Ico ack.sendOffset (ack.sendOffset + length)

/-- A first message carries no byte that the message does not have, and none at all when
it announces a registered buffer. -/
theorem Sender.startBtl_spec {s : Sender} {first : First} (h : s.startBtl = some first) :
    first.hdr.msgLength = s.bytesPacked ∧ first.data ≤ s.bytesPacked ∧
      (first.hdr.pin → first.data = 0) := by
  unfold startBtl at h
  simp only at h
  split_ifs at h <;> cases h <;> simp [startRndv, startRdma] <;> omega

end Sender

end Ulfm.Rndv
