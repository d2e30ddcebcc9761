import Ulfm.Era.Framing.Definitions

/-!
# From `send_msg` to `era_cb_fn`

The fragments of a message are consecutive pieces of the bytes of its buffers.
The receiver puts them together in any order, next to those of other messages, as
long as the length fits into an `unsigned int` and the sequence number does not
come back while fragments of the same sender are under way.
-/

namespace Ulfm

open List Option EraMsgHeader

variable {dtSize : BitVec 32 → BitVec 64}

/-! ### The bytes of a message -/

@[simp] theorem EraMsgHeader.length_image (h : EraMsgHeader) :
    h.image.length = sizeofMsgHeader := by
  simp [image, sizeofMsgHeader]

theorem EraMsgHeader.read_image (h : EraMsgHeader) (rest : List UInt8) :
    read (h.image ++ rest) = h := by
  obtain ⟨_, _, _, ⟨_, _⟩, ⟨_, _, _, _, _, _, _⟩, _⟩ := h
  simp [read, image]

namespace Outgoing

variable (m : Outgoing dtSize)

def incoming : Incoming where
  type := m.type
  header := m.header
  bytes := m.bytes
  newDead := m.newDeadArray
  ackFailed := m.ackFailed

@[simp] theorem header_agreementValueHeader : m.header.agreementValueHeader = m.valueHeader := rfl

@[simp] theorem arrayCount_nbAck : arrayCount m.header.nbAck = m.ackFailed.length := by
  rw [m.length_ackFailed, header]
  split
  · rfl
  · rename_i h
    rw [m.ackFailed_up h]

def body : List UInt8 := m.bytes ++ (arrayBytes m.newDeadArray ++ arrayBytes m.ackFailed)

theorem length_body : m.body.length = m.header.bodySize dtSize := by
  simp only [body, length_append, length_arrayBytes, m.length_bytes,
    m.length_newDeadArray, bodySize, header_agreementValueHeader, arrayCount_nbAck]
  omega

theorem parts_body (type : MsgType) :
    m.header.parts dtSize m.body type = { m.incoming with type } := by
  have hbytes : m.body.take (eraValueBytesCount dtSize m.valueHeader) = m.bytes :=
    take_left' m.length_bytes
  have hdrop : m.body.drop (eraValueBytesCount dtSize m.valueHeader) =
      arrayBytes m.newDeadArray ++ arrayBytes m.ackFailed := drop_left' m.length_bytes
  have hdead : (arrayBytes m.newDeadArray).length = m.newDeadArray.length * 4 := by
    rw [length_arrayBytes, Nat.mul_comm]
  have hack : readArray 32 m.ackFailed.length (arrayBytes m.ackFailed) = m.ackFailed := by
    have h : readArray 32 m.ackFailed.length (arrayBytes m.ackFailed ++ []) = m.ackFailed :=
      readArray_arrayBytes (by decide) m.ackFailed
    rwa [List.append_nil] at h
  simp only [parts, header_agreementValueHeader, arrayCount_nbAck, hbytes, hdrop,
    ← m.length_newDeadArray, drop_left' hdead, hack,
    readArray_arrayBytes (show 8 ∣ 32 by decide), incoming]

def wire : List UInt8 := m.header.image ++ m.body

theorem iov_flatten : m.iov.flatten = m.wire := by
  have hbytes : (if 0 < eraValueBytesCount dtSize m.valueHeader then [m.bytes] else []).flatten =
      m.bytes := by
    split
    · simp
    · rename_i h
      have hlen := m.length_bytes
      rw [Nat.eq_zero_of_not_pos h, length_eq_zero_iff] at hlen
      simp [hlen]
  have harray : ∀ (n : BitVec 32) (xs : List (BitVec 32)), xs.length = arrayCount n →
      ¬ 0 < n.toInt → xs = [] := by
    intro n xs hlen hn
    rw [← length_eq_zero_iff, hlen, arrayCount]
    omega
  have hdead : (if 0 < m.valueHeader.nbNewDead.toInt then [arrayBytes m.newDeadArray]
      else []).flatten = arrayBytes m.newDeadArray := by
    split
    · simp
    · rename_i h
      rw [harray _ _ m.length_newDeadArray h]
      rfl
  have hack : (if m.type = .up ∧ 0 < m.nbAckFailed.toInt then [arrayBytes m.ackFailed]
      else []).flatten = arrayBytes m.ackFailed := by
    split
    · simp
    · rename_i h
      have hneg : ¬ 0 < m.nbAckFailed.toInt := by
        by_cases hup : m.type = .up
        · exact fun hpos => h ⟨hup, hpos⟩
        · rw [m.ackFailed_up hup]
          decide
      rw [harray _ _ m.length_ackFailed hneg]
      rfl
  simp only [iov, flatten_append, hbytes, hdead, hack, wire, body, flatten_cons,
    flatten_nil, List.append_nil, List.append_assoc]

theorem length_wire : m.wire.length = m.msgSize := by
  simp only [wire, length_append, length_image, length_body, msgSize,
    bodySize, header_agreementValueHeader, arrayCount_nbAck, m.length_ackFailed]
  omega

theorem iov_nonempty : ∀ buf ∈ m.iov, 0 < buf.length := by
  have harray : ∀ (n : BitVec 32) (xs : List (BitVec 32)), xs.length = arrayCount n →
      0 < n.toInt → 0 < (arrayBytes xs).length := by
    intro n xs hlen hn
    rw [length_arrayBytes, hlen, arrayCount]
    omega
  intro buf hbuf
  simp only [iov, mem_append, mem_singleton, mem_ite_nil_right] at hbuf
  obtain ((rfl | ⟨h, rfl⟩) | ⟨h, rfl⟩) | ⟨⟨-, h⟩, rfl⟩ := hbuf
  · simp [sizeofMsgHeader]
  · rwa [m.length_bytes]
  · exact harray _ _ m.length_newDeadArray h
  · exact harray _ _ m.length_ackFailed h

end Outgoing

theorem dispatchMsg_image (h : EraMsgHeader) (body : List UInt8) :
    dispatchMsg dtSize (h.image ++ body) = if body.length < h.bodySize dtSize then none
      else if h.msgType = MsgType.resultRequest.code then
        some [h.parts dtSize body .resultRequest]
      else if h.msgType = MsgType.up.code then some [h.parts dtSize body .up]
      else if h.msgType = MsgType.down.code then some [h.parts dtSize body .down]
      else some [] := by
  have hlen : ¬ (h.image ++ body).length < sizeofMsgHeader := by simp
  have hdrop : (h.image ++ body).drop sizeofMsgHeader = body := drop_left' h.length_image
  simp only [dispatchMsg, if_neg hlen, read_image, hdrop]

theorem dispatchMsg_wire (m : Outgoing dtSize) : dispatchMsg dtSize m.wire = some [m.incoming] := by
  have hlen : ¬ m.body.length < m.header.bodySize dtSize := by rw [m.length_body]; exact lt_irrefl _
  have htype : m.header.msgType = m.type.code := rfl
  have hparts : m.header.parts dtSize m.body m.type = m.incoming := m.parts_body m.type
  rw [Outgoing.wire, dispatchMsg_image, if_neg hlen, htype]
  cases h : m.type with
  | up | down | resultRequest => simpa [h, MsgType.code] using hparts

theorem dispatchMsg_take (m : Outgoing dtSize) {n : ℕ} (hn : n < m.msgSize) :
    dispatchMsg dtSize (m.wire.take n) = none := by
  rw [← m.length_wire] at hn
  by_cases h : n < sizeofMsgHeader
  · have hlen : (m.wire.take n).length < sizeofMsgHeader := by
      rw [length_take]
      omega
    rw [dispatchMsg, if_pos hlen]
  · obtain ⟨k, rfl⟩ := Nat.exists_eq_add_of_le (Nat.le_of_not_lt h)
    have htake : m.wire.take (sizeofMsgHeader + k) = m.header.image ++ m.body.take k := by
      rw [Outgoing.wire, ← m.header.length_image, take_length_add_append]
    rw [htake, dispatchMsg_image, ← m.length_body]
    refine if_pos ?_
    simp only [Outgoing.wire, length_append, length_image] at hn
    rw [length_take]
    omega

/-! ### The sender -/

/-- The position in the vector of buffers is inside of a buffer, or at the end. -/
structure Cursor (iov : List (List UInt8)) (b : ℕ) : Prop where
  nonempty : ∀ buf ∈ iov, 0 < buf.length
  inside : ∀ buf ∈ iov.head?, b < buf.length
  atEnd : iov = [] → b = 0

theorem cursor_zero {iov : List (List UInt8)} (h : ∀ buf ∈ iov, 0 < buf.length) : Cursor iov 0 where
  nonempty := h
  inside buf hbuf := h buf (mem_of_mem_head? hbuf)
  atEnd _ := rfl

theorem copyPayload_spec {iov : List (List UInt8)} {b want : ℕ} (h : Cursor iov b)
    (hwant : want ≤ (iov.flatten.drop b).length) :
    ∃ iov' b', copyPayload iov b want = some ((iov.flatten.drop b).take want, iov', b') ∧
      Cursor iov' b' ∧ iov'.flatten.drop b' = (iov.flatten.drop b).drop want := by
  induction iov generalizing b want with
  | nil =>
    obtain rfl : want = 0 := by simpa using hwant
    exact ⟨[], b, by simp [copyPayload], h, by simp⟩
  | cons buf iov ih =>
    have hb : b < buf.length := h.inside buf rfl
    have hrest : (buf :: iov).flatten.drop b = buf.drop b ++ iov.flatten := by
      rw [flatten_cons, drop_append_of_le_length (by omega)]
    rw [hrest] at hwant ⊢
    simp only [length_append, length_drop] at hwant
    have htail : Cursor iov 0 := cursor_zero fun q hq => h.nonempty q (by simp [hq])
    cases want with
    | zero => exact ⟨buf :: iov, b, by simp [copyPayload], h, by rw [hrest, drop_zero]⟩
    | succ want =>
      unfold copyPayload
      by_cases hle : want + 1 ≤ buf.length - b
      · have htake : (buf.drop b ++ iov.flatten).take (want + 1) = (buf.drop b).take (want + 1) :=
          take_append_of_le_length (by simpa using hle)
        have hdrop : (buf.drop b ++ iov.flatten).drop (want + 1) =
            buf.drop (b + (want + 1)) ++ iov.flatten := by
          rw [drop_append_of_le_length (by simpa using hle), drop_drop]
        rw [if_pos hle, htake, hdrop]
        by_cases hend : b + (want + 1) = buf.length
        · refine ⟨iov, 0, by simp [hend], htail, ?_⟩
          rw [hend, drop_length, drop_zero, nil_append]
        · refine ⟨buf :: iov, b + (want + 1), by simp [hend], ?_, ?_⟩
          · exact ⟨h.nonempty, by simp; omega, by simp⟩
          · rw [flatten_cons, drop_append_of_le_length (by omega)]
      · have hne : iov ≠ [] := by
          rintro rfl
          simp at hwant
          omega
        have hmore : want + 1 - (buf.length - b) ≤ (iov.flatten.drop 0).length := by
          rw [drop_zero]
          omega
        obtain ⟨iov', b', hcopy, hcur, heq⟩ := ih htail hmore
        rw [drop_zero] at hcopy heq
        refine ⟨iov', b', ?_, hcur, ?_⟩
        · simp only [if_neg hle, if_neg hne, hcopy]
          rw [take_append, length_drop, take_of_length_le (l := buf.drop b)
            (by simp; omega)]
        · rw [heq, drop_append, length_drop, drop_of_length_le (l := buf.drop b)
            (by simp; omega), nil_append]

/-- The transport returns a segment of at most the requested size, with room for
at least one byte of payload. -/
def Allocates (segLen : ℕ → ℕ) : Prop :=
  ∀ n, fragHeaderSize < n → fragHeaderSize < segLen n ∧ segLen n ≤ n

/-- The fields of a fragment of a message of `len` bytes. -/
structure EraFrag.Of (src : ProcName) (seqnum : BitVec 64) (len : ℕ) (f : EraFrag) : Prop where
  src : f.src = src
  seqnum : f.msgSeqnum = seqnum
  msgLen : f.msgLen = len
  bytes : f.bytes.length = f.fragLen

theorem EraFrag.Of.piece_length {src : ProcName} {seqnum : BitVec 64} {len : ℕ} {f : EraFrag}
    (h : f.Of src seqnum len) : f.piece.data.length = f.fragLen := by
  simp [EraFrag.piece, h.bytes]

theorem sendLoop_spec (src : ProcName) (seqnum : BitVec 64) {segLen : ℕ → ℕ} {toSend : ℕ}
    {wire : List UInt8} (hseg : Allocates segLen) (hlen : toSend ≤ wire.length) (rounds : ℕ)
    {iov : List (List UInt8)} {b sent : ℕ} (hcur : Cursor iov b)
    (hrest : iov.flatten.drop b = wire.drop sent) (hsent : sent ≤ toSend)
    (hrounds : toSend ≤ sent + rounds) :
    ∃ fs, sendLoop src seqnum segLen toSend rounds iov b sent = some fs ∧
      Consecutive (wire.take toSend) sent (fs.map EraFrag.piece) ∧
      (∀ f ∈ fs, f.Of src seqnum toSend) ∧
      ∀ f ∈ fs.head?, f.fragLen = segLen (fragHeaderSize + (toSend - sent)) - fragHeaderSize := by
  induction rounds generalizing iov b sent with
  | zero =>
    obtain rfl : sent = toSend := by omega
    refine ⟨[], by simp [sendLoop], ?_, by simp, by simp⟩
    simp [Consecutive, hlen]
  | succ rounds ih =>
    by_cases hlt : sent < toSend
    · obtain ⟨hlow, hhigh⟩ := hseg (fragHeaderSize + (toSend - sent)) (by omega)
      obtain ⟨n, hn⟩ : ∃ n, segLen (fragHeaderSize + (toSend - sent)) - fragHeaderSize = n :=
        ⟨_, rfl⟩
      have hpos : 0 < n := by omega
      have hle : n ≤ (iov.flatten.drop b).length := by
        rw [hrest, length_drop]
        omega
      obtain ⟨iov', b', hcopy, hcur', hrest'⟩ := copyPayload_spec hcur hle
      rw [hrest, drop_drop] at hrest'
      obtain ⟨fs, hfs, hcons, hof, -⟩ := ih hcur' hrest' (by omega) (by omega)
      have hbytes : ((wire.drop sent).take n).length = n := by simp; omega
      obtain ⟨f, hf⟩ : ∃ f : EraFrag, f =
        { src, msgSeqnum := seqnum, msgLen := toSend, fragOffset := sent, fragLen := n,
          bytes := (wire.drop sent).take n } := ⟨_, rfl⟩
      have hpiece : f.piece = { offset := sent, data := (wire.drop sent).take n } := by
        rw [hf, EraFrag.piece, take_take, min_self]
      have hstop : f.piece.stop = sent + n := by rw [hpiece, Piece.stop, hbytes]
      refine ⟨f :: fs, ?_, ⟨by rw [hpiece], ⟨?_, ?_, ?_⟩, by rwa [hstop]⟩, ?_, ?_⟩
      · unfold sendLoop
        rw [hrest] at hcopy
        simp only [if_pos hlt, hn, hcopy, hpos.ne', if_false, hfs, map_some, hf]
      · rw [hpiece, hbytes]
        exact hpos
      · rw [hstop, length_take]
        omega
      · intro k hk
        rw [hpiece, hbytes] at hk
        rw [hpiece]
        change ((wire.drop sent).take n)[k]? = (wire.take toSend)[sent + k]?
        rw [getElem?_take_of_lt hk, getElem?_drop, getElem?_take_of_lt (by omega)]
      · refine forall_mem_cons.2 ⟨?_, hof⟩
        rw [hf]
        exact ⟨rfl, rfl, rfl, hbytes⟩
      · intro g hg
        obtain rfl : f = g := by simpa using hg
        rw [hf, hn]
    · obtain rfl : sent = toSend := by omega
      refine ⟨[], by simp [sendLoop], ?_, by simp, by simp⟩
      simp [Consecutive, hlen]

/-- A message on its way: the arguments of `send_msg`, the sequence number that
the sender has reached and the transport. -/
structure Sent (dtSize : BitVec 32 → BitVec 64) where
  msg : Outgoing dtSize
  msgSeqnum : BitVec 64
  segLen : ℕ → ℕ
  allocates : Allocates segLen

namespace Sent

variable (s : Sent dtSize)

/-- The fragments that `send_msg` sends. -/
def frags : Option (List EraFrag) := (sendMsg s.segLen s.msgSeqnum s.msg).map Prod.fst

/-- The length of the message as `send_msg` keeps it. -/
def toSend : ℕ := s.msg.msgSize % 2 ^ 32

def wire : List UInt8 := s.msg.wire.take s.toSend

/-- The first segment has no room for the whole message. -/
def Fragmented : Prop := s.segLen (fragHeaderSize + s.toSend) < fragHeaderSize + s.toSend

theorem length_wire : s.wire.length = s.toSend := by
  rw [wire, length_take, s.msg.length_wire]
  exact min_eq_left (Nat.mod_le _ _)

theorem toSend_lt : s.toSend < 2 ^ 32 := Nat.mod_lt _ (by decide)

structure Framed (fs : List EraFrag) : Prop where
  pieces : Consecutive s.wire 0 (fs.map EraFrag.piece)
  of : ∀ f ∈ fs, f.Of s.msg.src s.msgSeqnum s.toSend
  first : ∀ f ∈ fs.head?, f.fragLen = s.segLen (fragHeaderSize + s.toSend) - fragHeaderSize

theorem exists_frags : ∃ fs, s.frags = some fs ∧ s.Framed fs := by
  have hlen : s.toSend ≤ s.msg.wire.length := by
    rw [s.msg.length_wire]
    exact Nat.mod_le _ _
  have hrest : s.msg.iov.flatten.drop 0 = s.msg.wire.drop 0 := by rw [s.msg.iov_flatten]
  obtain ⟨fs, hfs, hpieces, hof, hfirst⟩ :=
    sendLoop_spec s.msg.src s.msgSeqnum s.allocates hlen s.toSend (cursor_zero s.msg.iov_nonempty)
      hrest (Nat.zero_le _) (by omega)
  refine ⟨fs, ?_, hpieces, hof, by simpa using hfirst⟩
  simp only [toSend] at hfs
  simp only [frags, sendMsg, hfs, map_some]

variable {s} {fs : List EraFrag}

theorem Framed.whole (h : s.Framed fs) (hpos : 0 < s.toSend) (hf : ¬ s.Fragmented) :
    ∃ f, fs = [f] ∧ f.fragLen = s.toSend ∧ f.fragOffset = 0 ∧ f.bytes = s.wire := by
  cases fs with
  | nil =>
    have hzero : 0 = s.wire.length := h.pieces
    rw [s.length_wire] at hzero
    omega
  | cons f fs =>
    obtain ⟨hoff, hof, hrest⟩ := h.pieces
    have hlen : f.fragLen = s.toSend := by
      have hfirst := h.first f rfl
      have hseg := s.allocates (fragHeaderSize + s.toSend) (by omega)
      simp only [Fragmented] at hf
      omega
    have hf := h.of f (by simp)
    have hstop : f.piece.stop = s.toSend := by
      have hoff : f.piece.offset = 0 := hoff
      rw [Piece.stop, hf.piece_length, hoff, hlen, Nat.zero_add]
    have hnil : fs = [] := by
      cases fs with
      | nil => rfl
      | cons g fs =>
        obtain ⟨hgoff, hg, -⟩ := hrest
        have hbound := hg.bound
        have hne := hg.nonempty
        rw [s.length_wire] at hbound
        change g.piece.offset = f.piece.stop at hgoff
        simp only [Piece.stop] at hbound hgoff hstop
        omega
    refine ⟨f, by rw [hnil], hlen, hoff, ?_⟩
    have hdata : f.piece.data = f.bytes := take_of_length_le (by rw [hf.bytes])
    have hoff : f.piece.offset = 0 := hoff
    refine ext_getElem? fun i => ?_
    by_cases hi : i < f.bytes.length
    · rw [← hdata, hof.data i (by rwa [hdata]), hoff, Nat.zero_add]
    · rw [getElem?_eq_none (by omega), getElem?_eq_none]
      rw [s.length_wire, ← hlen, ← hf.bytes]
      omega

theorem Framed.split (h : s.Framed fs) (hf : s.Fragmented) : ∀ f ∈ fs, f.fragLen < s.toSend := by
  cases fs with
  | nil => simp
  | cons f fs =>
    have hfirst : f.fragLen < s.toSend := by
      have hfirst := h.first f rfl
      have hpos := h.pieces.2.1.nonempty
      rw [(h.of f (by simp)).piece_length] at hpos
      simp only [Fragmented] at hf
      omega
    refine forall_mem_cons.2 ⟨hfirst, fun g hg => ?_⟩
    -- the later ones start behind the first
    have hpiece : g.piece ∈ fs.map EraFrag.piece := List.mem_map_of_mem hg
    have hstart := h.pieces.2.2.le_offset hpiece
    have hbound := (h.pieces.2.2.of_mem hpiece).bound
    have hpos := h.pieces.2.1.nonempty
    have hlen := (h.of g (by simp [hg])).piece_length
    rw [s.length_wire] at hbound
    simp only [Piece.stop] at hstart hbound
    omega

end Sent

end Ulfm
