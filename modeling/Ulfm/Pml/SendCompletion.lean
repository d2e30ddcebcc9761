import Ulfm.Pml.SendLifetime

/-!
# The lifetime of a send request

The protocols of one message and of a get, and from all three protocols the
lifetime of every request whose failures are harmless.
-/

namespace Ulfm.SendReq

open SendRequest List

section Protocols

structure Idle (s : SendRequest) : Prop where
  protocol : s.protocol = none
  quiet : Quiet s
  flight : s.flight = []
  incomplete : s.pmlComplete = false
  lock : s.reqLock = 0
  delivered : s.bytesDelivered = 0
  carried : s.carried = 0
  acked : s.acked = false

/-- A request of a single message: in flight, or complete. -/
structure Matched (s : SendRequest) : Prop where
  protocol : s.protocol = some .matched
  quiet : Quiet s
  pending : s.pending = .none
  message : s.flight = [.matched s.bytesPacked] ∧ s.pmlComplete = false ∧ s.carried = 0 ∨
    s.flight = [] ∧ s.pmlComplete = true ∧ (s.failed = false → s.carried = s.bytesPacked)

/-- The get is in flight, perhaps behind its control message. -/
structure Getting (s : SendRequest) (n : ℕ) : Prop where
  flight : s.flight = [.ctl, .get n] ∨ s.flight = [.get n]
  size : n ≤ s.bytesPacked
  incomplete : s.pmlComplete = false
  state : s.reqState = 0
  lock : s.reqLock = 0
  delivered : s.bytesDelivered = 0
  carried : s.carried = 0

/-- A request of a get: in flight, or answered. -/
structure Rget (s : SendRequest) : Prop where
  protocol : s.protocol = some .rget
  quiet : Quiet s
  pending : s.pending = .none
  get : (∃ n, Getting s n) ∨ s.flight = [] ∧ s.acked = true ∧
      (s.failed = false → (s.pmlComplete = true ↔ s.carried = s.bytesPacked))

/-- The state of a request between two steps. -/
def Sane (s : SendRequest) : Prop := Rendezvous s ∨ Common s ∧ (Idle s ∨ Matched s ∨ Rget s)

variable {s : SendRequest} {depth : ℕ} {e : Event}

theorem Quiet.user (h : Quiet s) (mpi free ret : Bool) :
    Quiet { s with mpiComplete := mpi, freeCalled := free, returned := ret } :=
  ⟨h.ranges, h.rdma, h.owed, h.scheduling, h.pending⟩

theorem Common.user (h : Common s) (mpi free ret : Bool) :
    Common { s with mpiComplete := mpi, freeCalled := free, returned := ret } :=
  ⟨h.count, h.clean, h.packed_lt⟩

theorem Quiet.unreferenced (h : Quiet s) (hflight : s.flight = []) (hpending : s.pending = .none) :
    s.unreferenced = true :=
  unreferenced_of_settled ⟨hflight, h.ranges, h.rdma, h.owed⟩ hpending

end Protocols

section Start

variable {s : SendRequest} {depth size : ℕ} {e : Event}

theorem Idle.pended (h : Idle s) {p : SendPending} (hp : p ≠ .schedule) (state : Int) :
    Idle { s with pending := p, reqState := state } where
  protocol := h.protocol
  quiet := ⟨h.quiet.ranges, h.quiet.rdma, h.quiet.owed, h.quiet.scheduling, hp⟩
  flight := h.flight
  incomplete := h.incomplete
  lock := h.lock
  delivered := h.delivered
  carried := h.carried
  acked := h.acked

theorem Idle.user (h : Idle s) (mpi free ret : Bool) :
    Idle { s with mpiComplete := mpi, freeCalled := free, returned := ret } where
  protocol := h.protocol
  quiet := h.quiet.user mpi free ret
  flight := h.flight
  incomplete := h.incomplete
  lock := h.lock
  delivered := h.delivered
  carried := h.carried
  acked := h.acked

theorem rendezvous_start (hc : Common s) (h : Idle s) (hpending : s.pending = .none)
    (hsize : size ≤ s.bytesPacked) : Rendezvous (step s (.start .rndv size)) := by
  refine ⟨⟨hc.count, hc.clean, hc.packed_lt⟩, .inl ⟨?_, ?_⟩⟩
  · exact
      { protocol := rfl
        incomplete := h.incomplete
        pieces := by
          intro d hd
          rw [mem_singleton.1 hd]
          trivial
        state := by
          change (2 : Int) = 1 + if s.acked then 0 else 1
          rw [h.acked]
          rfl
        books := by
          refine .inl ⟨?_, ?_, ?_⟩
          · dsimp only [step]
            rw [h.delivered, h.quiet.ranges, h.quiet.rdma]
            simp [flightBytes, Descriptor.length, hsize]
          · dsimp only [step]
            rw [h.quiet.ranges]
            exact fun n hn => by cases hn
          · dsimp only [step]
            rw [h.quiet.rdma]
            exact fun n hn => by cases hn
        pending := .inl hpending
        lock := iff_of_true h.lock ⟨h.quiet.scheduling, hpending⟩
        tally := fun _ => h.delivered.trans h.carried.symm }
  · intro hq hstate
    have hzero : (2 : Int) = 0 := hstate.1
    omega

theorem sane_of_idle (hc : Common s) (h : Idle s) (hpossible : Possible depth s e)
    (hsound : Sound s e) : Sane (step s e) := by
  have htransfer := h.quiet.not_transfer hpossible
  have hprotocol := h.protocol
  cases e with
  | postpone | restart | attempt =>
    refine .inr ⟨⟨hc.count, hc.clean, hc.packed_lt⟩, .inl ?_⟩
    first
      | exact h.pended SendPending.noConfusion _
      | exact h.pended h.quiet.pending _
  | start p size =>
    cases p with
    | matched =>
      refine .inr ⟨⟨hc.count, hc.clean, hc.packed_lt⟩, .inr (.inl ?_)⟩
      exact ⟨rfl, ⟨h.quiet.ranges, h.quiet.rdma, h.quiet.owed, h.quiet.scheduling,
        h.quiet.pending⟩, hpossible.2, .inl ⟨rfl, h.incomplete, h.carried⟩⟩
    | rndv => exact .inl (rendezvous_start hc h hpossible.2.1 hpossible.2.2)
    | rget =>
      refine .inr ⟨⟨hc.count, hc.clean, hc.packed_lt⟩, .inr (.inr ?_)⟩
      obtain ⟨-, hpending, -, hsize⟩ := hpossible
      exact ⟨rfl, ⟨h.quiet.ranges, h.quiet.rdma, h.quiet.owed, h.quiet.scheduling,
        h.quiet.pending⟩, hpending, .inl ⟨size, .inl rfl, hsize, h.incomplete, hsound, h.lock,
          h.delivered, h.carried⟩⟩
  | complete i ok =>
    have hi : i < s.flight.length := hpossible
    rw [h.flight] at hi
    exact absurd hi (Nat.not_lt_zero i)
  | ack sendOffset nordma =>
    obtain ⟨-, -, hget | ⟨hrndv, -⟩⟩ := hpossible
    · cases hprotocol.symm.trans hget
    · cases hprotocol.symm.trans hrndv
  | nack =>
    obtain ⟨-, hget | hrndv⟩ := hpossible
    · cases hprotocol.symm.trans hget
    · cases hprotocol.symm.trans hrndv
  | put | retryPut | fragment | fragmentInline | exhausted | scheduled | resume =>
    exact absurd trivial htransfer
  | free | cancel => exact .inr ⟨hc.user _ _ _, .inl (h.user _ _ _)⟩

end Start

section Matched

variable {s : SendRequest} {depth : ℕ} {e : Event}

theorem getElem?_singleton {d d' : Descriptor} {i : ℕ} (h : [d][i]? = some d') :
    i = 0 ∧ d' = d := by
  cases i with
  | zero => exact ⟨rfl, (Option.some.inj h).symm⟩
  | succ i => cases h

theorem matched_complete (hc : Common s) (h : Matched s) {i : ℕ} {ok : Bool}
    (hi : i < s.flight.length) : Sane (step s (.complete i ok)) := by
  obtain ⟨hflight, hincomplete, hcarried⟩ | ⟨hflight, -⟩ := h.message
  · obtain ⟨d, hd⟩ : ∃ d, s.flight[i]? = some d := ⟨_, getElem?_eq_getElem hi⟩
    rw [step_complete hd]
    rw [hflight] at hd ⊢
    obtain ⟨rfl, rfl⟩ := getElem?_singleton hd
    refine .inr ⟨?_, .inr (.inl ?_)⟩
    · apply Common.complete
      · exact ⟨hc.count, hc.clean, hc.packed_lt⟩
      · exact hincomplete
      · exact unreferenced_of_settled ⟨rfl, h.quiet.ranges, h.quiet.rdma, h.quiet.owed⟩ h.pending
    · refine ⟨h.protocol, ⟨h.quiet.ranges, h.quiet.rdma, h.quiet.owed, h.quiet.scheduling,
        h.quiet.pending⟩, h.pending, .inr ⟨rfl, rfl, fun hfailed => ?_⟩⟩
      obtain ⟨-, rfl⟩ := failed_or hfailed
      change s.carried + s.bytesPacked = s.bytesPacked
      rw [hcarried, Nat.zero_add]
  · rw [hflight] at hi
    exact absurd hi (Nat.not_lt_zero i)

theorem sane_of_matched (hc : Common s) (h : Matched s) (hpossible : Possible depth s e) :
    Sane (step s e) := by
  have htransfer := h.quiet.not_transfer hpossible
  have hprotocol := h.protocol
  have hstarted := protocol_ne hprotocol
  cases e with
  | postpone | restart | attempt => exact absurd hpossible.1 hstarted
  | start p size => cases p <;> exact absurd hpossible.1 hstarted
  | complete i ok => exact matched_complete hc h hpossible
  | ack sendOffset nordma =>
    obtain ⟨-, -, hget | ⟨hrndv, -⟩⟩ := hpossible
    · cases hprotocol.symm.trans hget
    · cases hprotocol.symm.trans hrndv
  | nack =>
    obtain ⟨-, hget | hrndv⟩ := hpossible
    · cases hprotocol.symm.trans hget
    · cases hprotocol.symm.trans hrndv
  | put | retryPut | fragment | fragmentInline | exhausted | scheduled | resume =>
    exact absurd trivial htransfer
  | free | cancel =>
    exact .inr ⟨hc.user _ _ _, .inr (.inl ⟨h.protocol, h.quiet.user _ _ _, h.pending, h.message⟩)⟩

end Matched

section Rget

variable {s : SendRequest} {depth n : ℕ} {e : Event} {ok : Bool}

theorem rget_check (hc : Common s) (hprotocol : s.protocol = some .rget) (hquiet : Quiet s)
    (hpending : s.pending = .none) (hflight : s.flight = []) (hacked : s.acked = true)
    (hincomplete : s.pmlComplete = false) (hlock : s.reqLock = 0) (hstate : s.reqState = 0)
    (htally : s.failed = false → s.bytesDelivered = s.carried ∧ s.carried ≤ s.bytesPacked) :
    Sane (pmlCompleteCheck s).1 := by
  unfold pmlCompleteCheck
  rw [if_pos hlock]
  split
  · next hfull =>
      refine .inr ⟨?_, .inr (.inr ?_)⟩
      · apply Common.complete
        · exact ⟨hc.count, hc.clean, hc.packed_lt⟩
        · exact hincomplete
        · exact hquiet.unreferenced hflight hpending
      · refine ⟨hprotocol, ⟨hquiet.ranges, hquiet.rdma, hquiet.owed, hquiet.scheduling,
          hquiet.pending⟩, hpending, .inr ⟨hflight, hacked, fun hfailed => ?_⟩⟩
        obtain ⟨hcarried, hle⟩ := htally hfailed
        have hdelivered := hfull.2
        refine iff_of_true rfl ?_
        change s.carried = s.bytesPacked
        omega
  · next hfull =>
      refine .inr ⟨hc, .inr (.inr ⟨hprotocol, hquiet, hpending, .inr ⟨hflight, hacked, ?_⟩⟩)⟩
      intro hfailed
      obtain ⟨hcarried, hle⟩ := htally hfailed
      refine iff_of_false ?_ fun heq => hfull ⟨hstate, ?_⟩
      · rw [hincomplete]
        exact Bool.false_ne_true
      · exact Nat.le_of_eq (hcarried.trans heq).symm

theorem rget_completion (hc : Common s) (h : Rget s) (hget : Getting s n) (ok : Bool) :
    Sane (rgetCompletion n ok { s with flight := [] }) := by
  have hlt := hc.packed_lt
  have hsize := hget.size
  apply rget_check
  · exact ⟨hc.count, hc.clean, hc.packed_lt⟩
  · exact h.protocol
  · exact ⟨h.quiet.ranges, h.quiet.rdma, h.quiet.owed, h.quiet.scheduling, h.quiet.pending⟩
  · exact h.pending
  · rfl
  · rfl
  · exact hget.incomplete
  · exact hget.lock
  · exact hget.state
  · intro hfailed
    obtain ⟨-, rfl⟩ := failed_or hfailed
    change addSize s.bytesDelivered n = s.carried + n ∧ s.carried + n ≤ s.bytesPacked
    rw [hget.delivered, hget.carried, addSize_of_lt (by omega)]
    omega

theorem rget_complete (hc : Common s) (h : Rget s) {i : ℕ} (hi : i < s.flight.length)
    (hsound : Sound s (.complete i ok)) : Sane (step s (.complete i ok)) := by
  obtain ⟨d, hd⟩ : ∃ d, s.flight[i]? = some d := ⟨_, getElem?_eq_getElem hi⟩
  simp only [Sound, hd] at hsound
  rw [step_complete hd]
  obtain ⟨n, hget⟩ | ⟨hflight, -⟩ := h.get
  · rcases hget.flight with hflight | hflight
    · -- the control message is still in flight, so it is what ends
      rw [hflight] at hd hsound ⊢
      obtain _ | _ | i := i
      · cases hd
        refine .inr ⟨⟨hc.count, hc.clean, hc.packed_lt⟩, .inr (.inr ?_)⟩
        exact ⟨h.protocol, ⟨h.quiet.ranges, h.quiet.rdma, h.quiet.owed, h.quiet.scheduling,
          h.quiet.pending⟩, h.pending, .inl ⟨n, .inr rfl, hget.size, hget.incomplete,
            hget.state, hget.lock, hget.delivered, hget.carried⟩⟩
      · cases hd
        exact absurd mem_cons_self hsound
      · cases hd
    · rw [hflight] at hd ⊢
      obtain ⟨rfl, rfl⟩ := getElem?_singleton hd
      exact rget_completion hc h hget ok
  · rw [hflight] at hi
    exact absurd hi (Nat.not_lt_zero i)

theorem Getting.user (h : Getting s n) (mpi free ret : Bool) :
    Getting { s with mpiComplete := mpi, freeCalled := free, returned := ret } n :=
  ⟨h.flight, h.size, h.incomplete, h.state, h.lock, h.delivered, h.carried⟩

theorem sane_of_rget (hc : Common s) (h : Rget s) (hpossible : Possible depth s e)
    (hsound : Sound s e) : Sane (step s e) := by
  have htransfer := h.quiet.not_transfer hpossible
  have hstarted := protocol_ne h.protocol
  cases e with
  | postpone | restart | attempt => exact absurd hpossible.1 hstarted
  | start p size => cases p <;> exact absurd hpossible.1 hstarted
  | complete i ok => exact rget_complete hc h hpossible hsound
  | ack => exact absurd h.protocol hsound
  | nack =>
    obtain ⟨n, hget⟩ | ⟨-, hacked, -⟩ := h.get
    · have hempty := hsound.1
      rcases hget.flight with hflight | hflight <;> cases hflight.symm.trans hempty
    · exact Bool.noConfusion (hacked.symm.trans hpossible.1)
  | put | retryPut | fragment | fragmentInline | exhausted | scheduled | resume =>
    exact absurd trivial htransfer
  | free | cancel =>
    refine .inr ⟨hc.user _ _ _, .inr (.inr ⟨h.protocol, h.quiet.user _ _ _, h.pending, ?_⟩)⟩
    exact h.get.imp_left fun ⟨n, hget⟩ => ⟨n, hget.user _ _ _⟩

end Rget

section Lifetime

variable {s : SendRequest} {depth : ℕ} {e : Event}

theorem sane_init (bytesPacked : UInt64) (throttleSends reqRecv : Bool) :
    Sane (init bytesPacked throttleSends reqRecv) := by
  refine .inr ⟨⟨rfl, rfl, bytesPacked.toNat_lt⟩, .inl ?_⟩
  exact ⟨rfl, ⟨rfl, rfl, rfl, rfl, SendPending.noConfusion⟩, rfl, rfl, rfl, rfl, rfl, rfl⟩

theorem sane_step (h : Sane s) (hpossible : Possible depth s e) (hsound : Sound s e) :
    Sane (step s e) := by
  obtain h | ⟨hc, hidle | hmatched | hrget⟩ := h
  · exact .inl (rendezvous_step h hpossible hsound)
  · exact sane_of_idle hc hidle hpossible hsound
  · exact sane_of_matched hc hmatched hpossible
  · exact sane_of_rget hc hrget hpossible hsound

theorem Common.once (hc : Common s) : s.completions ≤ 1 := by
  rw [hc.count]
  split
  · exact Nat.le_refl 1
  · exact Nat.zero_le 1

theorem Live.open (h : Live s) (harmed : Armed s) (hfailed : s.failed = false) (hq : quiescent s) :
    ¬(s.flight = [] ∧ s.carried = s.bytesPacked ∧ s.acked = true) := by
  rintro ⟨hflight, hcarried, hacked⟩
  have hstate := h.state
  rw [hflight, hacked, if_pos rfl] at hstate
  exact harmed hq ⟨hstate, Nat.le_of_eq ((h.tally hfailed).trans hcarried).symm⟩

theorem Rendezvous.lifetime (h : Rendezvous s) : Lifetime s := by
  obtain ⟨hc, ⟨hlive, harmed⟩ | hdone⟩ := h
  · refine ⟨hc.once, hc.clean, fun hfailed hq => iff_of_false ?_ ?_⟩
    · rw [hlive.incomplete]
      exact Bool.false_ne_true
    · rintro ⟨-, hflight, hcarried, hacked⟩
      exact hlive.open harmed hfailed hq ⟨hflight, hcarried, hacked hlive.protocol⟩
  · refine ⟨hc.once, hc.clean, fun hfailed hq => iff_of_true hdone.complete ?_⟩
    exact ⟨protocol_ne hdone.protocol, hdone.settled.flight, hdone.full hfailed,
      fun _ => hdone.acked⟩

theorem Idle.lifetime (hc : Common s) (h : Idle s) : Lifetime s := by
  refine ⟨hc.once, hc.clean, fun hfailed hq => iff_of_false ?_ ?_⟩
  · rw [h.incomplete]
    exact Bool.false_ne_true
  · exact fun hstarted => hstarted.1 h.protocol

theorem Matched.lifetime (hc : Common s) (h : Matched s) : Lifetime s := by
  refine ⟨hc.once, hc.clean, fun hfailed hq => ?_⟩
  obtain ⟨hflight, hincomplete, -⟩ | ⟨hflight, hcomplete, hcarried⟩ := h.message
  · refine iff_of_false ?_ fun hdone => ?_
    · rw [hincomplete]
      exact Bool.false_ne_true
    · cases hflight.symm.trans hdone.2.1
  · refine iff_of_true hcomplete ⟨protocol_ne h.protocol, hflight, hcarried hfailed, ?_⟩
    intro hrndv
    cases h.protocol.symm.trans hrndv

theorem Rget.lifetime (hc : Common s) (h : Rget s) : Lifetime s := by
  refine ⟨hc.once, hc.clean, fun hfailed hq => ?_⟩
  obtain ⟨n, hget⟩ | ⟨hflight, -, hexact⟩ := h.get
  · refine iff_of_false ?_ fun hdone => ?_
    · rw [hget.incomplete]
      exact Bool.false_ne_true
    · rcases hget.flight with hflight | hflight <;> cases hflight.symm.trans hdone.2.1
  · rw [hexact hfailed]
    constructor
    · intro hcarried
      refine ⟨protocol_ne h.protocol, hflight, hcarried, fun hrndv => ?_⟩
      cases h.protocol.symm.trans hrndv
    · exact fun hdone => hdone.2.2.1

theorem Sane.lifetime (h : Sane s) : Lifetime s := by
  obtain h | ⟨hc, hidle | hmatched | hrget⟩ := h
  · exact h.lifetime
  · exact Idle.lifetime hc hidle
  · exact Matched.lifetime hc hmatched
  · exact Rget.lifetime hc hrget

/-- In a run whose failures are harmless the request is completed at most once,
with nothing referring to it; and while all transfers succeed, exactly when its
bytes have been carried and the answer is in. -/
theorem send_request_lifetime (bytesPacked : UInt64) (throttleSends reqRecv : Bool) (depth : ℕ)
    (events : List Event) (hrun : Along step (fun s e => Possible depth s e ∧ Sound s e)
      (init bytesPacked throttleSends reqRecv) events) :
    Lifetime (events.foldl step (init bytesPacked throttleSends reqRecv)) := by
  have hsane := Along.invariant (I := Sane)
    (fun s e h he => sane_step h he.1 he.2) (sane_init bytesPacked throttleSends reqRecv) hrun
  exact hsane.lifetime

/-- A rendezvous of three bytes, of which the last two follow in a fragment. -/
def fragmentedSend : List Event :=
  [.start .rndv 1, .complete 0 true, .ack 1 false, .fragment 2, .scheduled, .complete 0 true]

theorem fragmentedSend_harmless :
    Along step (fun s e => Possible 4 s e ∧ Sound s e) (init 3 false false) fragmentedSend := by
  refine ⟨⟨⟨rfl, rfl, by decide⟩, trivial⟩, ⟨Nat.zero_lt_one, trivial⟩,
    ⟨⟨rfl, by decide, .inr ⟨rfl, by decide⟩⟩, ?_⟩,
    ⟨⟨rfl, by decide, 2, rfl, by decide, by decide⟩, trivial⟩, ⟨⟨rfl, .inl rfl⟩, trivial⟩,
    ⟨Nat.zero_lt_one, ?_⟩, trivial⟩
  · exact (by decide : some Protocol.rndv ≠ some .rget)
  · exact fun hfailed => Bool.noConfusion hfailed

theorem send_request_lifetime_fragmented :
    (fragmentedSend.foldl step (init 3 false false)).pmlComplete = true ∧
      Lifetime (fragmentedSend.foldl step (init 3 false false)) :=
  ⟨by decide, send_request_lifetime 3 false false 4 fragmentedSend fragmentedSend_harmless⟩

/-- Two fragments are in flight and the first one fails: the request is complete
while the second one still refers to it. -/
def failedFragment : List Event :=
  [.start .rndv 1, .ack 1 false, .fragment 1, .fragment 1, .scheduled, .complete 0 true,
    .complete 0 false]

theorem completed_with_fragment_in_flight :
    ¬∀ (bytesPacked : UInt64) (throttleSends reqRecv : Bool) (depth : ℕ) (events : List Event),
      Along step (Possible depth) (init bytesPacked throttleSends reqRecv) events →
        Lifetime (events.foldl step (init bytesPacked throttleSends reqRecv)) := by
  intro h
  have hrun : Along step (Possible 4) (init 3 false false) failedFragment := by
    refine ⟨⟨rfl, rfl, by decide⟩, ⟨rfl, by decide, .inr ⟨rfl, by decide⟩⟩,
      ⟨rfl, by decide, 2, rfl, by decide, by decide⟩,
        ⟨rfl, by decide, 1, rfl, by decide, by decide⟩,
      ⟨rfl, .inl rfl⟩, ?_, ?_, trivial⟩
    · exact (by decide : 0 < 3)
    · exact (by decide : 0 < 2)
  have hclean := (h 3 false false 4 failedFragment hrun).clean
  exact absurd hclean (by decide)

end Lifetime

end Ulfm.SendReq
