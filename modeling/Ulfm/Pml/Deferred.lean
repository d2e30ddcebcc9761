import Ulfm.Pml.Packets

/-!
# Deferred control messages

Each request is in one place: a BTL took its packet, or a record of the queue stands
for it, or a call that is going on holds it (`Books`). A FIN is rebuilt as it was. An ACK
is rebuilt with the no-RDMA flag that the record of the free list happened to have.
-/

namespace Ulfm.Pckt

open List Request PcktState

/-- The record that an ACK gets has the no-RDMA flag of the ACK. -/
def KeepsNordma (d : Bool × BitVec 8) : Prop := decide (d.2 &&& hdrFlagsNordma ≠ 0) = d.1

instance : DecidablePred KeepsNordma := fun d =>
  inferInstanceAs (Decidable (decide (d.2 &&& hdrFlagsNordma ≠ 0) = d.1))

section Requests

variable {nbo : Nat → Bool}

theorem nordma_of_flags {proc : Nat} {b b' : Bool}
    (h : (if b then hdrFlagsNordma else 0) ||| hdrHton nbo proc =
      (if b' then hdrFlagsNordma else 0) ||| hdrHton nbo proc) : b = b' := by
  unfold hdrHton at h
  cases hnbo : nbo proc <;> rw [hnbo] at h <;> revert h <;> revert b b' <;> decide

theorem Request.packet_injective : Function.Injective (Request.packet nbo) := by
  intro r r' h
  cases r with
  | ack a =>
    cases r' with
    | ack a' =>
      simp only [packet, Packet.mk.injEq, Header.ack.injEq, true_and] at h
      obtain ⟨hproc, hflags, hsrc, hdst, hoffset⟩ := h
      rw [← hproc] at hflags
      have hnordma := nordma_of_flags hflags
      cases a
      cases a'
      subst hproc hsrc hdst hoffset hnordma
      rfl
    | fin f' => simp [packet] at h
  | fin f =>
    cases r' with
    | ack a' => simp [packet] at h
    | fin f' =>
      simp only [packet, Packet.mk.injEq, Header.fin.injEq, true_and] at h
      obtain ⟨hproc, horder, -, hdes, hstatus⟩ := h
      cases f
      cases f'
      subst hproc horder hdes hstatus
      rfl

@[simp] theorem PcktPending.request_addFin (pckt : PcktPending) (f : FinCall) (dst : BmlBtl) :
    (pckt.addFin f dst).request = .fin f := rfl

theorem PcktPending.request_addAck (pckt : PcktPending) (a : AckCall) :
    (pckt.addAck a).request = .ack a ↔ KeepsNordma (a.nordma, pckt.hdrFlags) := by
  cases a
  simp only [addAck, request, KeepsNordma, Request.ack.injEq, AckCall.mk.injEq, true_and]
  rfl

end Requests

section Books

variable {nbo : Nat → Bool} {s s' : PcktState} {hand : List (Request × Request)}
  {ask : Request} {a : AckCall} {f : FinCall} {pckt : PcktPending}

/-- The packets that differ from those of their requests. -/
def wrongPacket (nbo : Nat → Bool) (w : Request × Packet) : Bool := w.2 ≠ w.1.packet nbo

/-- The records that stand for another call than the one they were queued for. -/
def wrongRecord (q : Request × PcktPending) : Bool := q.2.request ≠ q.1

def wrongCall (h : Request × Request) : Bool := h.2 ≠ h.1

/-- The books, while calls that are going on hold the requests in `hand`. -/
structure Books (nbo : Nat → Bool) (hand : List (Request × Request)) (s : PcktState) : Prop where
  once : ∀ r, (s.wire.map Prod.fst).count r + (s.pcktPending.map Prod.fst).count r +
    (hand.map Prod.fst).count r = s.asked.count r
  wrong : s.wire.countP (wrongPacket nbo) + s.pcktPending.countP wrongRecord +
    hand.countP wrongCall = s.deferred.countP fun d => ¬KeepsNordma d

theorem Books.asked (h : Books nbo hand s) (r : Request) :
    Books nbo ((r, r) :: hand) (s.ask r) where
  once x := by
    have honce := h.once x
    simp only [ask, map_cons, count_cons, count_append, count_nil] at honce ⊢
    omega
  wrong := by
    have hwrong := h.wrong
    simp only [ask, countP_cons, wrongCall] at hwrong ⊢
    simpa using hwrong

theorem Books.taken {r : Request} (h : Books nbo ((ask, r) :: hand) s) :
    Books nbo hand (s.take ask (r.packet nbo)) where
  once x := by
    have honce := h.once x
    simp only [PcktState.take, map_cons, map_append, map_nil, count_cons,
      count_append, count_nil] at honce ⊢
    omega
  wrong := by
    have hwrong := h.wrong
    have hiff : wrongPacket nbo (ask, r.packet nbo) = wrongCall (ask, r) := by
      simp [wrongPacket, wrongCall, packet_injective.eq_iff]
    simp only [PcktState.take, countP_cons, countP_append, countP_nil, hiff] at hwrong ⊢
    omega

theorem Books.requeued (h : Books nbo ((ask, pckt.request) :: hand) s) :
    Books nbo hand (s.requeue (ask, pckt)) where
  once x := by
    have honce := h.once x
    simp only [requeue, map_cons, map_append, map_nil, count_cons,
      count_append, count_nil] at honce ⊢
    omega
  wrong := by
    have hwrong := h.wrong
    have hiff : wrongRecord (ask, pckt) = wrongCall (ask, pckt.request) := rfl
    simp only [requeue, countP_cons, countP_append, countP_nil, hiff] at hwrong ⊢
    omega

theorem Books.removed {rest : List (Request × PcktPending)} (h : Books nbo hand s)
    (hqueue : s.pcktPending = (ask, pckt) :: rest) :
    Books nbo ((ask, pckt.request) :: hand) { s with pcktPending := rest } where
  once x := by
    have honce := h.once x
    rw [hqueue] at honce
    simp only [map_cons, count_cons] at honce ⊢
    omega
  wrong := by
    have hwrong := h.wrong
    have hiff : wrongRecord (ask, pckt) = wrongCall (ask, pckt.request) := rfl
    rw [hqueue] at hwrong
    simp only [countP_cons, hiff] at hwrong ⊢
    omega

theorem Books.queuedFin {dst : BmlBtl} {free : List PcktPending}
    (h : Books nbo ((ask, .fin f) :: hand) s) :
    Books nbo hand (s.queueFin ask f dst pckt free) := by
  have hadd := (pckt.request_addFin f dst).symm
  rw [hadd] at h
  have hbooks := h.requeued
  exact { once := hbooks.once, wrong := hbooks.wrong }

theorem Books.queuedAck {free : List PcktPending} (h : Books nbo ((.ack a, .ack a) :: hand) s) :
    Books nbo hand (s.queueAck (.ack a) a pckt free) where
  once x := by
    have honce := h.once x
    simp only [queueAck, map_cons, map_append, map_nil, count_cons,
      count_append, count_nil] at honce ⊢
    omega
  wrong := by
    have hwrong := h.wrong
    have hsame : wrongCall (Request.ack a, Request.ack a) = false := by simp [wrongCall]
    have hiff : wrongRecord (Request.ack a, pckt.addAck a) =
        decide ¬KeepsNordma (a.nordma, pckt.hdrFlags) := by
      simp only [wrongRecord, ne_eq, PcktPending.request_addAck]
    simp only [queueAck, countP_cons, countP_append, countP_nil, hsame, hiff] at hwrong ⊢
    simp only [Bool.false_eq_true, if_false, Nat.add_zero] at hwrong
    omega

end Books

section Runs

variable {nbo : Nat → Bool} {s s' : PcktState} {call : PcktCall} {rc : Bool}

/-- The request that a call is made for, and the call itself. -/
def PcktCall.hand : PcktCall → List (Request × Request)
  | .ackSendBtl ask a _ => [(ask, .ack a)]
  | .ackSend a _ => [(.ack a, .ack a)]
  | .sendFin ask f _ => [(ask, .fin f)]
  | _ => []

/-- The request is left to the caller when no BTL took the ACK. -/
def PcktCall.left : PcktCall → Bool → List (Request × Request)
  | .ackSendBtl ask a _, false => [(ask, .ack a)]
  | _, _ => []

theorem Runs.books (h : Runs nbo call s s' rc) :
    ∀ hand, Books nbo (call.hand ++ hand) s → Books nbo (call.left rc ++ hand) s' := by
  induction h with
  | idle | processEnd | processEmpty => exact fun _ hbooks => hbooks
  | askAck _ _ ih ihsend | askFin _ _ ih ihsend =>
    intro hand hbooks
    exact ihsend hand ((ih hand hbooks).asked _)
  | progress _ _ _ ih ihprocess | finProgress _ _ ih ihprocess =>
    intro hand hbooks
    exact ihprocess hand (ih hand hbooks)
  | reroute _ _ ih | grow _ _ ih =>
    intro hand hbooks
    have h₁ := ih hand hbooks
    exact { once := h₁.once, wrong := h₁.wrong }
  | ackFails _ ih => exact fun hand hbooks => ih _ hbooks
  | ackTaken _ _ ih ihrest | finTaken _ _ ih ihrest =>
    intro hand hbooks
    apply ihrest hand
    exact (ih _ hbooks).taken
  | ackSent _ _ _ ih =>
    intro hand hbooks
    exact ih hand { once := hbooks.once, wrong := hbooks.wrong }
  | ackNext _ _ _ _ ih ihnext =>
    intro hand hbooks
    apply ihnext hand
    exact ih hand { once := hbooks.once, wrong := hbooks.wrong }
  | ackDeferred _ _ _ ih =>
    intro hand hbooks
    exact (ih _ hbooks).queuedAck
  | finDeferred _ _ ih =>
    intro hand hbooks
    exact (ih _ hbooks).queuedFin
  | processSkip hqueue _ _ ih =>
    intro hand hbooks
    exact ih hand (hbooks.removed hqueue).requeued
  | processAck hqueue _ hack _ _ ih ihrest =>
    intro hand hbooks
    have hremoved := hbooks.removed hqueue
    rw [hack] at hremoved
    have hsent := ih hand hremoved
    exact ihrest hand { once := hsent.once, wrong := hsent.wrong }
  | processAckFails hqueue _ hack _ ih =>
    intro hand hbooks
    have hremoved := hbooks.removed hqueue
    rw [hack] at hremoved
    have hfailed := ih hand hremoved
    apply Books.requeued
    rw [hack]
    exact hfailed
  | processFin hqueue _ hfin _ _ ih ihrest =>
    intro hand hbooks
    have hremoved := hbooks.removed hqueue
    rw [hfin] at hremoved
    have hsent := ih hand hremoved
    exact ihrest hand { once := hsent.once, wrong := hsent.wrong }
  | processFinFails hqueue _ hfin _ ih =>
    intro hand hbooks
    have hremoved := hbooks.removed hqueue
    rw [hfin] at hremoved
    exact ih hand hremoved

end Runs

section Results

variable {nbo : Nat → Bool} {s s' : PcktState}

/-- Nothing has been asked for yet; the records of the free list are what they are. -/
structure PcktState.Initial (s : PcktState) : Prop where
  pcktPending : s.pcktPending = []
  wire : s.wire = []
  asked : s.asked = []
  deferred : s.deferred = []

/-- What a BTL took is the packet of its request, and so is what the queue will send. -/
def PcktState.Honest (nbo : Nat → Bool) (s : PcktState) : Prop :=
  (∀ w ∈ s.wire, w.2 = w.1.packet nbo) ∧
    ∀ q ∈ s.pcktPending, q.2.request.packet nbo = q.1.packet nbo

/-- Each request is on the wire or in the queue, once. -/
def PcktState.Once (s : PcktState) : Prop :=
  (s.wire.map Prod.fst ++ s.pcktPending.map Prod.fst).Perm s.asked

theorem PcktState.Initial.books (h : s.Initial) : Books nbo [] s where
  once r := by simp [h.wire, h.pcktPending, h.asked]
  wrong := by simp [h.wire, h.pcktPending, h.deferred]

theorem Books.honest_iff (h : Books nbo [] s) : s.Honest nbo ↔ ∀ d ∈ s.deferred, KeepsNordma d := by
  have hwrong := h.wrong
  rw [countP_nil, Nat.add_zero] at hwrong
  have hwire : s.wire.countP (wrongPacket nbo) = 0 ↔ ∀ w ∈ s.wire, w.2 = w.1.packet nbo := by
    simp [countP_eq_zero, wrongPacket]
  have hqueue : s.pcktPending.countP wrongRecord = 0 ↔
      ∀ q ∈ s.pcktPending, q.2.request.packet nbo = q.1.packet nbo := by
    simp [countP_eq_zero, wrongRecord, packet_injective.eq_iff]
  have hkept : (s.deferred.countP fun d => ¬KeepsNordma d) = 0 ↔
      ∀ d ∈ s.deferred, KeepsNordma d := by
    simp [countP_eq_zero]
  rw [← hkept, PcktState.Honest, ← hwire, ← hqueue, ← hwrong]
  omega

/-- The control messages of a run. Each is sent once or waits in the queue once, and the
ones sent and waiting are those asked for if and only if each ACK put on the queue got a
record whose no-RDMA flag was its own. -/
theorem deferred_honest_iff (hinit : s.Initial) (hruns : Runs nbo .activity s s' true) :
    s'.Once ∧ (s'.Honest nbo ↔ ∀ d ∈ s'.deferred, KeepsNordma d) := by
  have hbooks : Books nbo [] s' := hruns.books [] hinit.books
  constructor
  · apply perm_iff_count.mpr
    intro r
    have honce := hbooks.once r
    rw [count_append]
    simpa using honce
  · exact hbooks.honest_iff

section Sample

variable (flags : BitVec 8)

/-- The only record of the free list. -/
def PcktPending.sample : PcktPending := ⟨0, flags, .fin 0 0, none, 0⟩

/-- One BTL reaches peer 0. -/
def PcktState.sample : PcktState where
  pendingPckts := [.sample flags]
  btlEager _ := ⟨[⟨7, 70⟩], 0⟩

theorem PcktState.initial_sample : (PcktState.sample flags).Initial := ⟨rfl, rfl, rfl, rfl⟩

def AckCall.sample : AckCall := ⟨0, 1, 2, 3, true⟩

/-- The BTL has no descriptor, so the ACK is put on the queue. -/
def PcktState.sampleDeferred : PcktState :=
  (((sample flags).ask (.ack .sample)).setEager 0 ⟨[⟨7, 70⟩], 0⟩).queueAck
    (.ack .sample) .sample (.sample flags) []

theorem PcktState.runs_sampleDeferred (nbo : Nat → Bool) :
    Runs nbo .activity (.sample flags) (.sampleDeferred flags) true := by
  have hsend : Runs nbo (.ackSend .sample 0) ((sample flags).ask (.ack .sample))
      (.sampleDeferred flags) false := by
    apply Runs.ackNext
    · exact Nat.one_pos
    · rfl
    · exact .ackFails (.idle _)
    · exact .ackDeferred (Nat.le_refl 1) (.idle _) rfl
  exact .askAck (.idle _) hsend

/-- The BTL takes what the queue holds. -/
def PcktState.sampleSent (nbo : Nat → Bool) : PcktState :=
  (PcktState.take { PcktState.sampleDeferred flags with pcktPending := [] } (.ack .sample)
    (((PcktPending.sample flags).addAck .sample).request.packet nbo)).giveBack
    (PcktPending.addAck (.sample flags) .sample)

theorem PcktState.runs_sampleSent (nbo : Nat → Bool) :
    Runs nbo .activity (.sample flags) (.sampleSent flags nbo) true := by
  have hprocess : Runs nbo (.process 7 1) (.sampleDeferred flags) (.sampleSent flags nbo)
      true := by
    apply Runs.processAck
    · rfl
    · rfl
    · rfl
    · exact .ackTaken (.idle _) (.idle _)
    · exact .processEnd _ _
  exact .progress 7 (runs_sampleDeferred flags nbo) hprocess

end Sample

/-- The flags of the record are zero, and the ACK goes out without the flag. -/
theorem deferred_loses_nordma :
    ¬∀ (nbo : Nat → Bool) (s s' : PcktState), s.Initial → Runs nbo .activity s s' true →
      s'.Honest nbo := by
  intro h
  have hhonest := h (fun _ => false) _ _ (initial_sample 0) (runs_sampleSent 0 _)
  have hwire := hhonest.1 _ (mem_singleton_self _)
  revert hwire
  decide

/-- The record has the flag of the ACK. -/
theorem deferred_honest_iff_sample :
    (PcktState.sampleSent hdrFlagsNordma fun _ => false).Once ∧
      (PcktState.sampleSent hdrFlagsNordma fun _ => false).Honest fun _ => false := by
  obtain ⟨honce, hiff⟩ :=
    deferred_honest_iff (initial_sample hdrFlagsNordma) (runs_sampleSent hdrFlagsNordma _)
  refine ⟨honce, hiff.mpr fun d hd => ?_⟩
  obtain rfl := mem_singleton.mp hd
  exact rfl

end Results

end Ulfm.Pckt
