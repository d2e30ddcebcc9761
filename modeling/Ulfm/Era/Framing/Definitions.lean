import Ulfm.Era.Agreement.Definitions
import Ulfm.Foundation.Bytes
import Ulfm.Foundation.Reassembly

/-!
# Messages on the wire

`send_msg` cuts the bytes of a message into fragments, and `era_cb_fn` puts them
together again and finds the parts of the message. Words are those of a
little-endian machine with `int` of four and `size_t` of eight bytes, built
without process epochs. What is undefined in C (a write or a read outside of a
buffer, a read of memory that was never written, a failed assertion) is `none`.
-/

namespace Ulfm

open Function

/-- `orte_process_name_t`. -/
structure ProcName where
  jobid : BitVec 32
  vpid : BitVec 32
deriving DecidableEq

/-- `orte_util_hash_name`. -/
def orteUtilHashName (name : ProcName) : BitVec 64 :=
  name.jobid.setWidth 64 <<< 32 + name.vpid.setWidth 64

theorem orteUtilHashName_injective : Function.Injective orteUtilHashName := by
  intro a b h
  obtain ⟨ja, va⟩ := a
  obtain ⟨jb, vb⟩ := b
  have h := congrArg BitVec.toNat h
  have h₁ := ja.isLt
  have h₂ := va.isLt
  have h₃ := jb.isLt
  have h₄ := vb.isLt
  simp only [orteUtilHashName, BitVec.toNat_add, BitVec.toNat_shiftLeft, BitVec.toNat_setWidth,
    Nat.shiftLeft_eq] at h
  rw [ProcName.mk.injEq]
  constructor <;> apply BitVec.eq_of_toNat_eq <;> omega

/-- `era_value_header_t`. -/
structure EraValueHeader where
  ret : BitVec 32
  minAid : BitVec 16
  maxAid : BitVec 16
  operand : BitVec 32
  dtCount : BitVec 32
  datatype : BitVec 32
  nbNewDead : BitVec 32
deriving DecidableEq

/-- `era_msg_header_t`; the type is the number of the enumeration. -/
structure EraMsgHeader where
  msgType : BitVec 32
  agreementId : BitVec 64
  srcCommRank : BitVec 32
  srcProcName : ProcName
  agreementValueHeader : EraValueHeader
  nbAck : BitVec 32
deriving DecidableEq

/-- The numbers of `era_msg_type_t`. -/
def MsgType.code : MsgType → BitVec 32
  | .up => 1
  | .down => 2
  | .resultRequest => 3

/-- `sizeof(era_msg_header_t)`. -/
def sizeofMsgHeader : ℕ := 56

/-- `sizeof(era_frag_t) - 1`, the room that a segment needs besides its payload. -/
def fragHeaderSize : ℕ := 31

namespace EraMsgHeader

/-- The memory of a header; four bytes of padding come before the identifier. -/
def image (h : EraMsgHeader) : List UInt8 :=
  let v := h.agreementValueHeader
  wordBytes h.msgType ++ (wordBytes (0 : BitVec 32) ++ (wordBytes h.agreementId ++
    (wordBytes h.srcCommRank ++ (wordBytes h.srcProcName.jobid ++
    (wordBytes h.srcProcName.vpid ++ (wordBytes v.ret ++ (wordBytes v.minAid ++
    (wordBytes v.maxAid ++ (wordBytes v.operand ++ (wordBytes v.dtCount ++
    (wordBytes v.datatype ++ (wordBytes v.nbNewDead ++ wordBytes h.nbAck))))))))))))

/-- The header at the beginning of a buffer. -/
def read (bs : List UInt8) : EraMsgHeader :=
  let (msgType, bs) := readWord 32 bs
  let (_, bs) := readWord 32 bs
  let (agreementId, bs) := readWord 64 bs
  let (srcCommRank, bs) := readWord 32 bs
  let (jobid, bs) := readWord 32 bs
  let (vpid, bs) := readWord 32 bs
  let (ret, bs) := readWord 32 bs
  let (minAid, bs) := readWord 16 bs
  let (maxAid, bs) := readWord 16 bs
  let (operand, bs) := readWord 32 bs
  let (dtCount, bs) := readWord 32 bs
  let (datatype, bs) := readWord 32 bs
  let (nbNewDead, bs) := readWord 32 bs
  let (nbAck, _) := readWord 32 bs
  { msgType, agreementId, srcCommRank, nbAck
    srcProcName := { jobid, vpid }
    agreementValueHeader := { ret, minAid, maxAid, operand, dtCount, datatype, nbNewDead } }

end EraMsgHeader

/-- `ERA_VALUE_BYTES_COUNT`; `dtSize` is the size of the predefined datatypes. -/
def eraValueBytesCount (dtSize : BitVec 32 → BitVec 64) (h : EraValueHeader) : ℕ :=
  (dtSize h.datatype * h.dtCount.signExtend 64).toNat

/-- The length of an array behind a counter of the header. -/
def arrayCount (n : BitVec 32) : ℕ := n.toInt.toNat

/-- The arguments of `send_msg`, with the name of the sender and its rank in the
communicator; the arrays are as long as the counters say, and only an `up`
message carries acknowledged failures. -/
structure Outgoing (dtSize : BitVec 32 → BitVec 64) where
  src : ProcName
  rank : BitVec 32
  agreementId : BitVec 64
  type : MsgType
  valueHeader : EraValueHeader
  bytes : List UInt8
  newDeadArray : List (BitVec 32)
  nbAckFailed : BitVec 32
  ackFailed : List (BitVec 32)
  length_bytes : bytes.length = eraValueBytesCount dtSize valueHeader
  newDead_nonneg : 0 ≤ valueHeader.nbNewDead.toInt
  length_newDeadArray : newDeadArray.length = arrayCount valueHeader.nbNewDead
  ackFailed_nonneg : 0 ≤ nbAckFailed.toInt
  length_ackFailed : ackFailed.length = arrayCount nbAckFailed
  ackFailed_up : type ≠ .up → nbAckFailed = 0

/-- `era_frag_t`. -/
structure EraFrag where
  src : ProcName
  msgSeqnum : BitVec 64
  msgLen : ℕ
  fragOffset : ℕ
  fragLen : ℕ
  bytes : List UInt8
deriving DecidableEq

namespace Outgoing

variable {dtSize : BitVec 32 → BitVec 64} (m : Outgoing dtSize)

def header : EraMsgHeader where
  msgType := m.type.code
  agreementId := m.agreementId
  srcCommRank := m.rank
  srcProcName := m.src
  agreementValueHeader := m.valueHeader
  nbAck := if m.type = .up then m.nbAckFailed else 0

/-- `ERA_MSG_SIZE`. -/
def msgSize : ℕ :=
  sizeofMsgHeader + eraValueBytesCount dtSize m.valueHeader +
    arrayCount m.valueHeader.nbNewDead * 4 + arrayCount m.nbAckFailed * 4

def iov : List (List UInt8) :=
  [m.header.image] ++ (if 0 < eraValueBytesCount dtSize m.valueHeader then [m.bytes] else []) ++
    (if 0 < m.valueHeader.nbNewDead.toInt then [arrayBytes m.newDeadArray] else []) ++
    (if m.type = .up ∧ 0 < m.nbAckFailed.toInt then [arrayBytes m.ackFailed] else [])

end Outgoing

/-! ### The sender -/

/-- The loop that fills a fragment: `want` bytes from the buffers, of which the
first `b` bytes of the first one are gone. The result is the bytes and what is
left of the buffers. -/
def copyPayload : List (List UInt8) → ℕ → ℕ → Option (List UInt8 × List (List UInt8) × ℕ)
  | iov, b, 0 => some ([], iov, b)
  | [], _, _ + 1 => none
  | buf :: iov, b, want + 1 =>
    if want + 1 ≤ buf.length - b then
      let out := (buf.drop b).take (want + 1)
      if b + (want + 1) = buf.length then some (out, iov, 0)
      else some (out, buf :: iov, b + (want + 1))
    else if iov = [] then none
    else
      match copyPayload iov 0 (want + 1 - (buf.length - b)) with
      | none => none
      | some (out, rest) => some (buf.drop b ++ out, rest)

/-- The loop over the fragments of a message of which `sent` bytes are out. The
segment that the transport allocates for a request of `n` bytes has `segLen n`
bytes. Every round sends a byte, so `toSend` rounds are enough. -/
def sendLoop (src : ProcName) (seqnum : BitVec 64) (segLen : ℕ → ℕ) (toSend : ℕ) :
    ℕ → List (List UInt8) → ℕ → ℕ → Option (List EraFrag)
  | rounds, iov, b, sent =>
    if sent < toSend then
      match rounds with
      | 0 => none
      | rounds + 1 =>
        let payloadSize := segLen (fragHeaderSize + (toSend - sent)) - fragHeaderSize
        if payloadSize = 0 then none
        else
          match copyPayload iov b payloadSize with
          | none => none
          | some (bytes, iov, b) =>
            let frag : EraFrag :=
              { src, msgSeqnum := seqnum, msgLen := toSend, fragOffset := sent,
                fragLen := payloadSize, bytes }
            (sendLoop src seqnum segLen toSend rounds iov b (sent + payloadSize)).map
              (frag :: ·)
    else some []

/-- `send_msg`: the fragments, and the next sequence number. The length of the
message is computed as `size_t` and kept in an `unsigned int`. -/
def sendMsg {dtSize : BitVec 32 → BitVec 64} (segLen : ℕ → ℕ) (msgSeqnum : BitVec 64)
    (m : Outgoing dtSize) : Option (List EraFrag × BitVec 64) :=
  let toSend := m.msgSize % 2 ^ 32
  (sendLoop m.src msgSeqnum segLen toSend toSend m.iov 0 0).map (·, msgSeqnum + 1)

/-! ### The receiver -/

/-- `era_incomplete_msg_t`. -/
structure IncompleteMsg where
  bytesReceived : ℕ
  bytes : List (Option UInt8)
deriving DecidableEq

/-- `era_incomplete_messages`, by the hash of the sender and the sequence number. -/
abbrev IncompleteTable := BitVec 64 × BitVec 64 → Option IncompleteMsg

/-- What `era_cb_fn` hands to the handler of a message. -/
structure Incoming where
  type : MsgType
  header : EraMsgHeader
  bytes : List UInt8
  newDead : List (BitVec 32)
  ackFailed : List (BitVec 32)
deriving DecidableEq

namespace EraMsgHeader

/-- The number of bytes that a message has behind its header. -/
def bodySize (dtSize : BitVec 32 → BitVec 64) (h : EraMsgHeader) : ℕ :=
  eraValueBytesCount dtSize h.agreementValueHeader +
    arrayCount h.agreementValueHeader.nbNewDead * 4 + arrayCount h.nbAck * 4

/-- The parts of a message, found behind its header. -/
def parts (dtSize : BitVec 32 → BitVec 64) (h : EraMsgHeader) (body : List UInt8)
    (type : MsgType) : Incoming :=
  let nbBytes := eraValueBytesCount dtSize h.agreementValueHeader
  let nbNewDead := arrayCount h.agreementValueHeader.nbNewDead
  { type
    header := h
    bytes := body.take nbBytes
    newDead := readArray 32 nbNewDead (body.drop nbBytes)
    ackFailed := readArray 32 (arrayCount h.nbAck) ((body.drop nbBytes).drop (nbNewDead * 4)) }

end EraMsgHeader

/-- The end of `era_cb_fn`: find the parts of a message and dispatch it. A message
of an unknown type is dropped. -/
def dispatchMsg (dtSize : BitVec 32 → BitVec 64) (msg : List UInt8) : Option (List Incoming) :=
  if msg.length < sizeofMsgHeader then none
  else
    let header := EraMsgHeader.read msg
    let body := msg.drop sizeofMsgHeader
    if body.length < header.bodySize dtSize then none
    else if header.msgType = MsgType.resultRequest.code then
      some [header.parts dtSize body .resultRequest]
    else if header.msgType = MsgType.up.code then some [header.parts dtSize body .up]
    else if header.msgType = MsgType.down.code then some [header.parts dtSize body .down]
    else some []

def EraFrag.piece (f : EraFrag) : Piece UInt8 where
  offset := f.fragOffset
  data := f.bytes.take f.fragLen

/-- Where the receiver keeps the message of a fragment while it is incomplete. -/
def EraFrag.key (f : EraFrag) : BitVec 64 × BitVec 64 := (orteUtilHashName f.src, f.msgSeqnum)

/-- The incomplete message under a key, a new one of `len` bytes if there is none. -/
def pendingMsg (table : IncompleteTable) (key : BitVec 64 × BitVec 64) (len : ℕ) : IncompleteMsg :=
  (table key).getD { bytesReceived := 0, bytes := blank len }

/-- `era_cb_fn`: one fragment comes in. -/
def eraCbFn (dtSize : BitVec 32 → BitVec 64) (table : IncompleteTable) (f : EraFrag) :
    Option (IncompleteTable × List Incoming) :=
  if f.msgLen = f.fragLen then
    if f.fragOffset = 0 then (dispatchMsg dtSize f.bytes).map (table, ·) else none
  else
    let msg := pendingMsg table f.key f.msgLen
    match writePiece msg.bytes f.piece with
    | none => none
    | some bytes =>
      let bytesReceived := (msg.bytesReceived + f.fragLen) % 2 ^ 32
      if bytesReceived = f.msgLen then
        match readBuffer bytes f.msgLen with
        | none => none
        | some msg => (dispatchMsg dtSize msg).map (update table f.key none, ·)
      else some (update table f.key (some { bytesReceived, bytes }), [])

/-- A sequence of fragments comes in: the table at the end and the messages that
were dispatched. -/
def receive (dtSize : BitVec 32 → BitVec 64) :
    IncompleteTable → List EraFrag → Option (IncompleteTable × List Incoming)
  | table, [] => some (table, [])
  | table, f :: fs =>
    match eraCbFn dtSize table f with
    | none => none
    | some (table, out) =>
      (receive dtSize table fs).map fun (table, out') => (table, out ++ out')

end Ulfm
