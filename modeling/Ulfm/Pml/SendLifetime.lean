import Mathlib.Algebra.BigOperators.Group.List.Basic
import Ulfm.Pml.SendRequest

/-!
# Send requests that are completed once and last

In a run whose failures are harmless (`Sound`) the bytes delivered, in flight,
waiting and not yet asked for never exceed the message, and the state counter
counts the rendezvous in flight and the answer awaited. So when the check finds
the counter at zero and all bytes delivered, nothing refers to the request.
-/

namespace Ulfm.SendReq

open List Option SendRequest

/-- The failures that do not complete a request early: a fragment or a put fails
when it is the last piece of the message; a revoked communicator is reported
when nothing is in flight and nobody schedules; a get ends after its control message; it is not
answered by an acknowledgement, and follows no attempt at a rendezvous. -/
def Sound (s : SendRequest) : Event → Prop
  | .start .rget _ => s.reqState = 0
  | .complete i ok =>
    match s.flight[i]? with
    | some (.frag _) | some (.put _) =>
      ok = false → s.reqState = 0 ∧ s.flight.length = 1 ∧ s.sendRanges = [] ∧
        s.rdmaPending = [] ∧ s.owed = 0
    | some (.get _) => .ctl ∉ s.flight
    | _ => True
  | .fragmentInline size ok =>
    ok = false → s.reqState = 0 ∧ s.flight = [] ∧ s.sendRanges = [size] ∧
      s.rdmaPending = [] ∧ s.owed = 0
  | .ack _ _ => s.protocol ≠ some .rget
  | .nack =>
    s.flight = [] ∧ s.sendRanges = [] ∧ s.rdmaPending = [] ∧ s.scheduling = false
  | _ => True

section Books

/-- Nothing is in flight, waiting or still to come. -/
structure Settled (s : SendRequest) : Prop where
  flight : s.flight = []
  ranges : s.sendRanges = []
  rdma : s.rdmaPending = []
  owed : s.owed = 0

/-- The descriptors of a rendezvous protocol. -/
def Descriptor.IsPiece : Descriptor → Prop
  | .rndv _ => True
  | .frag n => 0 < n
  | .put n => 0 < n
  | _ => False

def Descriptor.isRndv : Descriptor → Bool
  | .rndv _ => true
  | _ => false

/-- The bytes of the descriptors in flight. -/
def flightBytes (flight : List Descriptor) : ℕ := (flight.map Descriptor.length).sum

/-- No byte is counted twice, and nothing that waits is empty. -/
structure Accounted (s : SendRequest) : Prop where
  bytes : s.bytesDelivered + flightBytes s.flight + s.sendRanges.sum + s.rdmaPending.sum
    + s.owed ≤ s.bytesPacked
  ranges : ∀ n ∈ s.sendRanges, 0 < n
  rdma : ∀ n ∈ s.rdmaPending, 0 < n

theorem eq_nil_of_sum {l : List ℕ} (h : ∀ n ∈ l, 0 < n) (hsum : l.sum = 0) : l = [] := by
  cases l with
  | nil => rfl
  | cons n l =>
    have hn := h n mem_cons_self
    rw [sum_cons] at hsum
    omega

theorem eq_nil_of_flightBytes {l : List Descriptor} (h : ∀ d ∈ l, d.IsPiece)
    (hrndv : l.countP Descriptor.isRndv = 0) (hsum : flightBytes l = 0) : l = [] := by
  cases l with
  | nil => rfl
  | cons d l =>
    have hd := h d mem_cons_self
    rw [flightBytes, map_cons, sum_cons] at hsum
    cases d with
    | matched | get | ctl => exact hd.elim
    | rndv n => simp [Descriptor.isRndv] at hrndv
    | frag n | put n =>
      have hpos : 0 < n := hd
      simp only [Descriptor.length] at hsum
      omega

section

variable {l : List Descriptor} {i : ℕ} {d : Descriptor} (h : l[i]? = some d)
include h

theorem perm_eraseIdx : l.Perm (d :: l.eraseIdx i) := by
  obtain ⟨hi, rfl⟩ := List.getElem?_eq_some_iff.1 h
  exact (getElem_cons_eraseIdx_perm hi).symm

theorem flightBytes_eraseIdx : flightBytes l = d.length + flightBytes (l.eraseIdx i) := by
  have hperm := ((perm_eraseIdx h).map Descriptor.length).sum_eq
  rwa [map_cons, sum_cons] at hperm

theorem countP_eraseIdx : l.countP Descriptor.isRndv
      = (l.eraseIdx i).countP Descriptor.isRndv + if d.isRndv then 1 else 0 := by
  rw [(perm_eraseIdx h).countP_eq, countP_cons]

end

theorem isPiece_eraseIdx {l : List Descriptor} {i : ℕ} (h : ∀ d ∈ l, d.IsPiece) :
    ∀ d ∈ l.eraseIdx i, d.IsPiece :=
  fun d hd => h d (mem_of_mem_eraseIdx hd)

theorem flightBytes_append (l : List Descriptor) (d : Descriptor) :
    flightBytes (l ++ [d]) = flightBytes l + d.length := by
  simp [flightBytes]

end Books

section Rendezvous

/-- What holds of every request, whatever its protocol. -/
structure Common (s : SendRequest) : Prop where
  count : s.completions = if s.pmlComplete then 1 else 0
  clean : s.clean = true
  packed_lt : s.bytesPacked < sizeMod

/-- A request of the rendezvous protocol that is not complete. -/
structure Live (s : SendRequest) : Prop where
  protocol : s.protocol = some .rndv
  incomplete : s.pmlComplete = false
  pieces : ∀ d ∈ s.flight, d.IsPiece
  state : s.reqState = s.flight.countP Descriptor.isRndv + if s.acked then 0 else 1
  books : Accounted s ∨ s.failed = true ∧ Settled s
  pending : s.pending = .none ∨ s.pending = .schedule ∧ s.sendRanges ≠ [] ∧ s.scheduling = false
  lock : s.reqLock = 0 ↔ s.scheduling = false ∧ s.pending = .none
  tally : s.failed = false → s.bytesDelivered = s.carried

/-- The check would not complete the request now. -/
def Armed (s : SendRequest) : Prop :=
  quiescent s → ¬(s.reqState = 0 ∧ s.bytesPacked ≤ s.bytesDelivered)

/-- A request of the rendezvous protocol that is complete. -/
structure Done (s : SendRequest) : Prop where
  protocol : s.protocol = some .rndv
  complete : s.pmlComplete = true
  settled : Settled s
  quiescent : quiescent s
  acked : s.acked = true
  full : s.failed = false → s.carried = s.bytesPacked

def Rendezvous (s : SendRequest) : Prop := Common s ∧ (Live s ∧ Armed s ∨ Done s)

variable {s : SendRequest}

theorem Live.settled (h : Live s) (hstate : s.reqState = 0)
    (hfull : s.bytesPacked ≤ s.bytesDelivered) :
    Settled s ∧ s.acked = true ∧ s.pending = .none ∧
      (s.failed = false → s.carried = s.bytesPacked) := by
  have hcount : s.flight.countP Descriptor.isRndv = 0 ∧ s.acked = true := by
    have hs := h.state
    rw [hstate] at hs
    cases hacked : s.acked with
    | true =>
      rw [hacked, if_pos rfl] at hs
      exact ⟨by omega, rfl⟩
    | false =>
      rw [hacked, if_neg Bool.false_ne_true] at hs
      omega
  have hsettled : Settled s := by
    rcases h.books with hb | ⟨-, hb⟩
    · have hbytes := hb.bytes
      exact ⟨eq_nil_of_flightBytes h.pieces hcount.1 (by omega),
        eq_nil_of_sum hb.ranges (by omega), eq_nil_of_sum hb.rdma (by omega), by omega⟩
    · exact hb
  refine ⟨hsettled, hcount.2, ?_, fun hfailed => ?_⟩
  · rcases h.pending with hp | ⟨-, hne, -⟩
    · exact hp
    · exact absurd hsettled.ranges hne
  · have htally := h.tally hfailed
    rcases h.books with hb | ⟨hf, -⟩
    · have hbytes := hb.bytes
      omega
    · rw [hfailed] at hf
      cases hf

theorem unreferenced_of_settled (h : Settled s) (hp : s.pending = .none) :
    s.unreferenced = true := by
  simp [unreferenced, h.flight, h.ranges, h.rdma, hp]

theorem Common.complete (hc : Common s) (hincomplete : s.pmlComplete = false)
    (href : s.unreferenced = true) : Common s.sendRequestPmlComplete := by
  refine ⟨?_, ?_, hc.packed_lt⟩
  · have hcount := hc.count
    rw [hincomplete, if_neg Bool.false_ne_true] at hcount
    simp [sendRequestPmlComplete, hcount]
  · change (s.clean && s.unreferenced) = true
    rw [hc.clean, href]
    rfl

/-- The lock changes with the scheduler and the list of pending requests. -/
theorem Live.reschedule (h : Live s) {lock : ℕ} {running : Bool} {wait : SendPending}
    (hpending : wait = .none ∨ wait = .schedule ∧ s.sendRanges ≠ [] ∧ running = false)
    (hlock : lock = 0 ↔ running = false ∧ wait = .none) :
    Live { s with reqLock := lock, scheduling := running, pending := wait } where
  protocol := h.protocol
  incomplete := h.incomplete
  pieces := h.pieces
  state := h.state
  books := h.books.imp (fun b => ⟨b.bytes, b.ranges, b.rdma⟩)
    fun ⟨hf, b⟩ => ⟨hf, b.flight, b.ranges, b.rdma, b.owed⟩
  pending := hpending
  lock := hlock
  tally := h.tally

theorem Live.locked (h : Live s) (hlock : s.reqLock ≠ 0) (n : ℕ) :
    Live { s with reqLock := n + 1 } :=
  h.reschedule h.pending (iff_of_false (Nat.succ_ne_zero n) (mt h.lock.2 hlock))

section

variable (hc : Common s) (h : Live s)
include hc h

theorem check_spec : Common (pmlCompleteCheck s).1 ∧
      ((pmlCompleteCheck s).2 = false ∧ Live (pmlCompleteCheck s).1 ∧
          Armed (pmlCompleteCheck s).1 ∨
        (pmlCompleteCheck s).2 = true ∧ Done (pmlCompleteCheck s).1) := by
  unfold pmlCompleteCheck
  split
  · next hfull =>
      split
      · next hlock =>
          obtain ⟨hsettled, hacked, hpending, hcarried⟩ := h.settled hfull.1 hfull.2
          have hq := h.lock.1 hlock
          have hcommon : Common { s with reqLock := s.reqLock + 1 } :=
            ⟨hc.count, hc.clean, hc.packed_lt⟩
          have href : s.unreferenced = true := unreferenced_of_settled hsettled hpending
          refine ⟨hcommon.complete h.incomplete href, .inr ⟨rfl, ?_⟩⟩
          · exact ⟨h.protocol, rfl, ⟨hsettled.flight, hsettled.ranges, hsettled.rdma,
              hsettled.owed⟩,
              hq, hacked, hcarried⟩
      · next hlock =>
          refine ⟨⟨hc.count, hc.clean, hc.packed_lt⟩, .inl ⟨rfl, h.locked hlock _, ?_⟩⟩
          intro hq
          exact absurd (h.lock.2 hq) hlock
  · next hfull => exact ⟨hc, .inl ⟨rfl, h, fun _ => hfull⟩⟩

theorem rendezvous_check : Rendezvous (pmlCompleteCheck s).1 := by
  obtain ⟨hcommon, ⟨-, hlive, harmed⟩ | ⟨-, hdone⟩⟩ := check_spec hc h
  · exact ⟨hcommon, .inl ⟨hlive, harmed⟩⟩
  · exact ⟨hcommon, .inr hdone⟩

theorem rendezvous_schedule : Rendezvous s.schedule := by
  unfold schedule
  split
  · next hlock =>
      have hq := h.lock.1 hlock
      refine ⟨⟨hc.count, hc.clean, hc.packed_lt⟩, .inl ⟨?_, ?_⟩⟩
      · exact h.reschedule (.inl hq.2)
          (iff_of_false (Nat.succ_ne_zero _) fun hs => Bool.noConfusion hs.1)
      · exact fun hs => Bool.noConfusion hs.1
  · next hlock =>
      refine ⟨⟨hc.count, hc.clean, hc.packed_lt⟩, .inl ⟨h.locked hlock _, ?_⟩⟩
      intro hq
      exact absurd (h.lock.2 hq) hlock

theorem rendezvous_checkOrSchedule : Rendezvous s.checkOrSchedule := by
  obtain ⟨hcommon, hres⟩ := check_spec hc h
  unfold checkOrSchedule
  generalize pmlCompleteCheck s = r at hcommon hres
  obtain ⟨s', done⟩ := r
  rcases hres with ⟨rfl, hlive, -⟩ | ⟨rfl, hdone⟩
  · exact rendezvous_schedule hcommon hlive
  · exact ⟨hcommon, .inr hdone⟩

end

end Rendezvous

section Completions

variable {s : SendRequest} {i n : ℕ} {ok : Bool}

theorem Live.accounted {d : Descriptor} (h : Live s) (hd : s.flight[i]? = some d) :
    Accounted s := by
  rcases h.books with hb | ⟨-, hb⟩
  · exact hb
  · rw [hb.flight] at hd
    cases hd

theorem addSize_of_lt {a b : ℕ} (h : a + b < sizeMod) : addSize a b = a + b := Nat.mod_eq_of_lt h

theorem failed_or {f : Bool} (h : (f || !ok) = false) : f = false ∧ ok = true := by
  cases f <;> cases ok <;> simp_all

theorem Live.delivered {d : Descriptor} (hc : Common s) (h : Live s) (hd : s.flight[i]? = some d)
    (ok : Bool) (depth : ℕ) :
    Live { s with
      flight := s.flight.eraseIdx i
      carried := s.carried + (if ok then d.length else 0)
      failed := s.failed || !ok
      pipelineDepth := depth
      bytesDelivered := addSize s.bytesDelivered d.length
      reqState := s.reqState - if d.isRndv then 1 else 0 } := by
  have hb := h.accounted hd
  have hbytes := hb.bytes
  have hflight := flightBytes_eraseIdx hd
  have hcount := countP_eraseIdx hd
  have hlt := hc.packed_lt
  have hadd : addSize s.bytesDelivered d.length = s.bytesDelivered + d.length :=
    addSize_of_lt (by omega)
  rw [hadd]
  exact
    { protocol := h.protocol
      incomplete := h.incomplete
      pieces := isPiece_eraseIdx h.pieces
      state := by
        have hstate := h.state
        rw [hcount] at hstate
        dsimp only
        rw [hstate]
        split <;> push_cast <;> omega
      books := .inl ⟨by dsimp only; omega, hb.ranges, hb.rdma⟩
      pending := h.pending
      lock := h.lock
      tally := fun hfailed => by
        obtain ⟨hf, rfl⟩ := failed_or hfailed
        have htally := h.tally hf
        dsimp only
        rw [htally, if_pos rfl] }

theorem Live.lastFailed (h : Live s) (hstate : s.reqState = 0) (hranges : s.sendRanges = [])
    (hrdma : s.rdmaPending = []) (howed : s.owed = 0) (depth delivered carried : ℕ) :
    Live { s with
      flight := []
      carried := carried
      failed := true
      pipelineDepth := depth
      bytesDelivered := delivered } where
  protocol := h.protocol
  incomplete := h.incomplete
  pieces := fun d hd => by cases hd
  state := by
    have hs := h.state
    rw [hstate] at hs
    dsimp only
    rw [hstate, countP_nil]
    split at hs
    · next hacked =>
        rw [if_pos hacked]
        rfl
    · omega
  books := .inr ⟨rfl, rfl, hranges, hrdma, howed⟩
  pending := h.pending
  lock := h.lock
  tally := fun hf => by cases hf

theorem eraseIdx_of_length_one {d : Descriptor} (hd : s.flight[i]? = some d)
    (hlen : s.flight.length = 1) : s.flight.eraseIdx i = [] := by
  have hi := (List.getElem?_eq_some_iff.1 hd).1
  apply eq_nil_of_length_eq_zero
  rw [length_eraseIdx_of_lt hi, hlen]

theorem step_complete {d : Descriptor} (hd : s.flight[i]? = some d) :
    step s (.complete i ok) = completion { s with flight := s.flight.eraseIdx i } ok d := by
  simp only [step, hd]

theorem rendezvous_complete (hc : Common s) (h : Live s) (hi : i < s.flight.length)
    (hsound : Sound s (.complete i ok)) : Rendezvous (step s (.complete i ok)) := by
  obtain ⟨d, hd⟩ : ∃ d, s.flight[i]? = some d := ⟨_, getElem?_eq_getElem hi⟩
  have hmem := mem_of_getElem? hd
  have hpiece := h.pieces d hmem
  simp only [Sound, hd] at hsound
  rw [step_complete hd]
  cases d with
  | matched | get | ctl => exact hpiece.elim
  | rndv n =>
    have hlive := h.delivered hc hd ok s.pipelineDepth
    exact rendezvous_check ⟨hc.count, hc.clean, hc.packed_lt⟩ hlive
  | frag n =>
    cases ok with
    | true =>
      have hlive := h.delivered hc hd true (subSize s.pipelineDepth 1)
      simp only [Descriptor.isRndv, Bool.false_eq_true, if_false, sub_zero] at hlive
      exact rendezvous_checkOrSchedule ⟨hc.count, hc.clean, hc.packed_lt⟩ hlive
    | false =>
      obtain ⟨hstate, hlen, hranges, hrdma, howed⟩ := hsound rfl
      have hlive := h.lastFailed hstate hranges hrdma howed (subSize s.pipelineDepth 1)
        (addSize s.bytesDelivered (subSize s.bytesPacked s.bytesDelivered)) s.carried
      rw [eraseIdx_of_length_one hd hlen]
      refine rendezvous_checkOrSchedule ⟨hc.count, hc.clean, hc.packed_lt⟩ ?_
      simpa [carry] using hlive
  | put n =>
    cases ok with
    | true =>
      have hlive := h.delivered hc hd true s.pipelineDepth
      simp only [Descriptor.isRndv, Bool.false_eq_true, if_false, sub_zero] at hlive
      exact rendezvous_check ⟨hc.count, hc.clean, hc.packed_lt⟩ hlive
    | false =>
      obtain ⟨hstate, hlen, hranges, hrdma, howed⟩ := hsound rfl
      have hlive := h.lastFailed hstate hranges hrdma howed s.pipelineDepth
        (addSize s.bytesDelivered s.bytesPacked) s.carried
      rw [eraseIdx_of_length_one hd hlen]
      refine rendezvous_check ⟨hc.count, hc.clean, hc.packed_lt⟩ ?_
      simpa [carry] using hlive

end Completions

section Messages

variable {s : SendRequest} {n : ℕ}

/-- The range of a number of bytes, if there are any. -/
def rangeOf (length : ℕ) : List ℕ := if length = 0 then [] else [length]

theorem sum_rangeOf (length : ℕ) : (rangeOf length).sum = length := by
  unfold rangeOf
  split
  · next hzero => exact hzero.symm
  · exact sum_singleton

theorem pos_of_mem_append {l : List ℕ} {length : ℕ} (h : ∀ n ∈ l, 0 < n) :
    ∀ n ∈ l ++ rangeOf length, 0 < n := by
  intro n hn
  rcases mem_append.1 hn with hn | hn
  · exact h n hn
  · unfold rangeOf at hn
    split at hn
    · cases hn
    · rw [mem_singleton.1 hn]
      omega

theorem copyInOut_eq (length : ℕ) (s : SendRequest) :
    s.copyInOut length = { s with sendRanges := s.sendRanges ++ rangeOf length } := by
  unfold copyInOut rangeOf
  split
  · rw [List.append_nil]
  · rfl

theorem ranges_ne_nil {l : List ℕ} {length : ℕ} (h : l ≠ []) : l ++ rangeOf length ≠ [] :=
  append_ne_nil_of_left_ne_nil h _

theorem settled_range (h : Settled s) {length : ℕ} (hle : length ≤ s.owed) :
    s.sendRanges ++ rangeOf length = [] := by
  have hzero : length = 0 := by
    have howed := h.owed
    omega
  rw [h.ranges, hzero]
  rfl

theorem rendezvous_ack (hc : Common s) (h : Live s) {sendOffset : ℕ} {nordma : Bool}
    (hacked : s.acked = false) (howed : s.bytesPacked - sendOffset ≤ s.owed) :
    Rendezvous (s.ack sendOffset nordma) := by
  have hstate := h.state
  rw [hacked, if_neg Bool.false_ne_true] at hstate
  have hne : s.reqState ≠ 0 := by omega
  simp only [SendRequest.ack, copyInOut_eq]
  rw [if_pos hne]
  refine rendezvous_checkOrSchedule ⟨hc.count, hc.clean, hc.packed_lt⟩ ?_
  exact
    { protocol := h.protocol
      incomplete := h.incomplete
      pieces := h.pieces
      state := by
        dsimp only
        rw [hstate, if_pos rfl]
        omega
      books := by
        rcases h.books with hb | ⟨hf, hb⟩
        · refine .inl ⟨?_, pos_of_mem_append hb.ranges, hb.rdma⟩
          have hbytes := hb.bytes
          dsimp only
          rw [sum_append, sum_rangeOf]
          omega
        · refine .inr ⟨hf, hb.flight, settled_range hb howed, hb.rdma, ?_⟩
          have hzero := hb.owed
          dsimp only
          omega
      pending := h.pending.imp_right fun ⟨hp, hr, hs⟩ => ⟨hp, ranges_ne_nil hr, hs⟩
      lock := h.lock
      tally := h.tally }

/-- The bytes of a put that is being dealt with still count as owed. -/
abbrev owing (length : ℕ) (s : SendRequest) : SendRequest := { s with owed := s.owed + length }

theorem accounted_owing (h : Live (owing n s)) (hn : 0 < n) : Accounted (owing n s) := by
  rcases h.books with hb | ⟨-, hb⟩
  · exact hb
  · have howed : s.owed + n = 0 := hb.owed
    omega

theorem Live.placed (h : Live (owing n s)) (hn : 0 < n) (flight : List Descriptor)
    (rdma ranges : List ℕ)
    (hbytes : flightBytes flight + ranges.sum + rdma.sum
      ≤ flightBytes s.flight + s.sendRanges.sum + s.rdmaPending.sum + n)
    (hpieces : ∀ d ∈ flight, d.IsPiece)
    (hcount : flight.countP Descriptor.isRndv = s.flight.countP Descriptor.isRndv)
    (hrdma : (∀ k ∈ s.rdmaPending, 0 < k) → ∀ k ∈ rdma, 0 < k)
    (hranges : (∀ k ∈ s.sendRanges, 0 < k) → ∀ k ∈ ranges, 0 < k)
    (hne : s.sendRanges ≠ [] → ranges ≠ []) :
    Live { s with flight := flight, rdmaPending := rdma, sendRanges := ranges } ∧
      s.bytesDelivered < s.bytesPacked := by
  have hb := accounted_owing h hn
  have hold : s.bytesDelivered + flightBytes s.flight + s.sendRanges.sum + s.rdmaPending.sum
    + (s.owed + n) ≤ s.bytesPacked := hb.bytes
  refine ⟨?_, by omega⟩
  exact
    { protocol := h.protocol
      incomplete := h.incomplete
      pieces := hpieces
      state := by
        have hstate := h.state
        dsimp only at hstate ⊢
        rw [hstate, hcount]
      books := .inl ⟨by dsimp only; omega, hranges hb.ranges, hrdma hb.rdma⟩
      pending := h.pending.imp_right fun ⟨hp, hr, hs⟩ => ⟨hp, hne hr, hs⟩
      lock := h.lock
      tally := h.tally }

theorem armed_of_lt (h : s.bytesDelivered < s.bytesPacked) : Armed s :=
  fun _ hfull => Nat.not_le_of_lt h hfull.2

theorem rendezvous_scheduleAfterAck (hc : Common s) (h : Live s)
    (hlt : s.bytesDelivered < s.bytesPacked) : Rendezvous s.scheduleAfterAck := by
  unfold scheduleAfterAck
  split
  · exact rendezvous_schedule hc h
  · exact ⟨hc, .inl ⟨h, armed_of_lt hlt⟩⟩

theorem rendezvous_putFrag (hc : Common s) (h : Live (owing n s)) (hn : 0 < n)
    {outcome : PutOutcome} (hfits : PutOutcome.Fits n outcome) :
    Rendezvous (s.putFrag n outcome) := by
  have hpieces : ∀ d ∈ s.flight, d.IsPiece := h.pieces
  have hcommon : ∀ flight rdma ranges, Common { s with
      flight := flight, rdmaPending := rdma, sendRanges := ranges } :=
    fun _ _ _ => ⟨hc.count, hc.clean, hc.packed_lt⟩
  cases outcome with
  | noFrag =>
    obtain ⟨hlive, hlt⟩ := h.placed hn s.flight s.rdmaPending s.sendRanges
      (Nat.le_add_right _ n) hpieces rfl id id id
    exact rendezvous_scheduleAfterAck hc hlive hlt
  | issued k =>
    obtain ⟨hpos, hle⟩ := hfits
    have hbytes := flightBytes_append s.flight (.put k)
    obtain ⟨hlive, hlt⟩ := h.placed hn (s.flight ++ [.put k]) s.rdmaPending
      s.sendRanges (by rw [hbytes, Descriptor.length]; omega)
      (by
        intro d hd
        rcases mem_append.1 hd with hd | hd
        · exact hpieces d hd
        · rw [mem_singleton.1 hd]
          exact hpos)
      (by simp [Descriptor.isRndv]) id id id
    exact ⟨hcommon _ _ _, .inl ⟨hlive, armed_of_lt hlt⟩⟩
  | later =>
    obtain ⟨hlive, hlt⟩ := h.placed hn s.flight (s.rdmaPending ++ [n])
      s.sendRanges (by rw [sum_append, sum_singleton]; omega) hpieces rfl
      (by
        intro hr k hk
        rcases mem_append.1 hk with hk | hk
        · exact hr k hk
        · rw [mem_singleton.1 hk]
          exact hn) id id
    exact ⟨hcommon _ _ _, .inl ⟨hlive, armed_of_lt hlt⟩⟩
  | copied =>
    obtain ⟨hlive, hlt⟩ := h.placed hn s.flight s.rdmaPending
      (s.sendRanges ++ rangeOf n) (by rw [sum_append, sum_rangeOf]; omega)
      hpieces rfl id pos_of_mem_append ranges_ne_nil
    rw [putFrag, copyInOut_eq]
    exact rendezvous_scheduleAfterAck (hcommon _ _ _) hlive hlt

theorem rendezvous_put (hc : Common s) (h : Live s) {ackFlag : Bool} {outcome : PutOutcome}
    (hn : 0 < n) (howed : n ≤ s.owed) (hflag : ackFlag = true → s.acked = false)
    (hfits : PutOutcome.Fits n outcome) : Rendezvous (s.put n ackFlag outcome) := by
  have hsub : s.owed - n + n = s.owed := Nat.sub_add_cancel howed
  cases ackFlag with
  | false =>
    rw [put, if_neg Bool.false_ne_true]
    apply rendezvous_putFrag
    · exact ⟨hc.count, hc.clean, hc.packed_lt⟩
    · simp only [owing, hsub]
      exact h
    · exact hn
    · exact hfits
  | true =>
    have hacked := hflag rfl
    have hstate := h.state
    rw [hacked, if_neg Bool.false_ne_true] at hstate
    rw [put, if_pos rfl]
    apply rendezvous_putFrag
    · exact ⟨hc.count, hc.clean, hc.packed_lt⟩
    · simp only [owing, hsub]
      exact
        { protocol := h.protocol
          incomplete := h.incomplete
          pieces := h.pieces
          state := by
            dsimp only
            rw [hstate, if_pos rfl]
            omega
          books := h.books.imp (fun b => ⟨b.bytes, b.ranges, b.rdma⟩)
            fun ⟨hf, b⟩ => ⟨hf, b.flight, b.ranges, b.rdma, b.owed⟩
          pending := h.pending
          lock := h.lock
          tally := h.tally }
    · exact hn
    · exact hfits

theorem sum_eraseIdx {l : List ℕ} {i k : ℕ} (h : l[i]? = some k) :
    l.sum = k + (l.eraseIdx i).sum := by
  obtain ⟨hi, rfl⟩ := List.getElem?_eq_some_iff.1 h
  have hperm := (getElem_cons_eraseIdx_perm hi).sum_eq
  rw [sum_cons] at hperm
  exact hperm.symm

theorem rendezvous_retryPut (hc : Common s) (h : Live s) {i : ℕ} {outcome : PutOutcome}
    (hi : s.rdmaPending[i]? = some n) (hfits : PutOutcome.Fits n outcome) :
    Rendezvous (step s (.retryPut i outcome)) := by
  have hb : Accounted s := by
    rcases h.books with hb | ⟨-, hb⟩
    · exact hb
    · rw [hb.rdma] at hi
      cases hi
  have hsum := sum_eraseIdx hi
  have hbytes := hb.bytes
  simp only [step, hi]
  apply rendezvous_putFrag
  · exact ⟨hc.count, hc.clean, hc.packed_lt⟩
  · exact
      { protocol := h.protocol
        incomplete := h.incomplete
        pieces := h.pieces
        state := h.state
        books := .inl ⟨by dsimp only; omega, hb.ranges,
          fun k hk => hb.rdma k (mem_of_mem_eraseIdx hk)⟩
        pending := h.pending
        lock := h.lock
        tally := h.tally }
  · exact hb.rdma n (mem_of_getElem? hi)
  · exact hfits

end Messages

section Scheduler

variable {s : SendRequest} {n : ℕ}

theorem fragSent_eq {length : ℕ} {rest : List ℕ} (h : s.sendRanges = length :: rest) (size : ℕ) :
    fragSent size s = { s with
      sendRanges := rangeOf (length - size) ++ rest,
      pipelineDepth := addSize s.pipelineDepth 1 } := by
  unfold fragSent rangeOf
  rw [h]
  dsimp only
  split <;> rfl

theorem pos_of_remaining (hb : Accounted s) {length size : ℕ} {rest : List ℕ}
    (hr : s.sendRanges = length :: rest) : ∀ k ∈ rangeOf (length - size) ++ rest, 0 < k := by
  intro k hk
  rcases mem_append.1 hk with hk | hk
  · exact pos_of_mem_append (l := []) (fun _ hn => by cases hn) k hk
  · exact hb.ranges k (by rw [hr]; exact mem_cons_of_mem _ hk)

theorem Live.pending_of_scheduling (h : Live s) (hsched : s.scheduling = true) :
    s.pending = .none := by
  rcases h.pending with hp | ⟨-, -, hs⟩
  · exact hp
  · exact Bool.noConfusion (hsched.symm.trans hs)

theorem Live.accounted_of_range (h : Live s) {length : ℕ} {rest : List ℕ}
    (hr : s.sendRanges = length :: rest) : Accounted s := by
  rcases h.books with hb | ⟨-, hb⟩
  · exact hb
  · rw [hb.ranges] at hr
    cases hr

theorem rendezvous_fragment (hc : Common s) (h : Live s) {size length : ℕ} {rest : List ℕ}
    (hsched : s.scheduling = true) (hr : s.sendRanges = length :: rest) (hpos : 0 < size)
    (hle : size ≤ length) : Rendezvous (step s (.fragment size)) := by
  have hb := h.accounted_of_range hr
  have hbytes := hb.bytes
  have hflight := flightBytes_append s.flight (.frag size)
  have hlength : (Descriptor.frag size).length = size := rfl
  rw [hr, sum_cons] at hbytes
  rw [step, fragSent_eq (s := { s with flight := s.flight ++ [.frag size] }) hr]
  refine ⟨⟨hc.count, hc.clean, hc.packed_lt⟩, .inl ⟨?_, fun hq => ?_⟩⟩
  · exact
      { protocol := h.protocol
        incomplete := h.incomplete
        pieces := fun d hd => by
          rcases mem_append.1 hd with hd | hd
          · exact h.pieces d hd
          · rw [mem_singleton.1 hd]
            exact hpos
        state := by
          have hstate := h.state
          dsimp only
          rw [countP_append]
          simpa [Descriptor.isRndv] using hstate
        books := by
          refine .inl ⟨?_, fun k hk => ?_, hb.rdma⟩
          · dsimp only
            rw [hflight, sum_append, sum_rangeOf]
            omega
          · exact pos_of_remaining hb hr k hk
        pending := .inl (h.pending_of_scheduling hsched)
        lock := h.lock
        tally := h.tally }
  · exact Bool.noConfusion (hsched.symm.trans hq.1)

theorem checkOrSchedule_of_locked (hlock : s.reqLock ≠ 0) :
    ∃ k, s.checkOrSchedule = { s with reqLock := k + 1 } := by
  unfold checkOrSchedule pmlCompleteCheck
  split_ifs with hfull
  · exact ⟨s.reqLock + 1, rfl⟩
  · dsimp only
    rw [schedule, if_neg hlock]
    exact ⟨s.reqLock, rfl⟩

theorem step_fragmentInline (hlock : s.reqLock ≠ 0) {length : ℕ} {rest : List ℕ}
    (hr : s.sendRanges = length :: rest) (size : ℕ) (ok : Bool) :
    ∃ k, step s (.fragmentInline size ok) = { s.carry size ok with
      sendRanges := rangeOf (length - size) ++ rest
      pipelineDepth := addSize (subSize s.pipelineDepth 1) 1
      bytesDelivered := addSize s.bytesDelivered
        (if ok then size else subSize s.bytesPacked s.bytesDelivered)
      reqLock := k + 1 } := by
  obtain ⟨k, hk⟩ := checkOrSchedule_of_locked (s := { s.carry size ok with
    pipelineDepth := subSize s.pipelineDepth 1
    bytesDelivered := addSize s.bytesDelivered
      (if ok then size else subSize s.bytesPacked s.bytesDelivered) }) hlock
  refine ⟨k, (congrArg (fragSent size) hk).trans ?_⟩
  rw [fragSent_eq]
  exact hr

section

variable (hc : Common s) (h : Live s)
include hc h

theorem rendezvous_fragmentInline {size length : ℕ} {ok : Bool}
    {rest : List ℕ} (hsched : s.scheduling = true) (hr : s.sendRanges = length :: rest)
    (hpos : 0 < size) (hle : size ≤ length) (hsound : Sound s (.fragmentInline size ok)) :
    Rendezvous (step s (.fragmentInline size ok)) := by
  have hb := h.accounted_of_range hr
  have hbytes := hb.bytes
  have hlt := hc.packed_lt
  have hpending := h.pending_of_scheduling hsched
  have hlock : s.reqLock ≠ 0 := by
    intro hzero
    exact Bool.noConfusion (hsched.symm.trans (h.lock.1 hzero).1)
  rw [hr, sum_cons] at hbytes
  obtain ⟨k, hk⟩ := step_fragmentInline hlock hr size ok
  rw [hk]
  refine ⟨⟨hc.count, hc.clean, hc.packed_lt⟩, .inl ⟨?_, fun hq => ?_⟩⟩
  · exact
      { protocol := h.protocol
        incomplete := h.incomplete
        pieces := h.pieces
        state := h.state
        books := by
          cases ok with
          | true =>
            refine .inl ⟨?_, pos_of_remaining hb hr, hb.rdma⟩
            dsimp only [carry]
            rw [sum_append, sum_rangeOf, if_pos rfl, addSize_of_lt (by omega)]
            omega
          | false =>
            obtain ⟨-, hflight, hranges, hrdma, howed⟩ := hsound rfl
            rw [hr] at hranges
            obtain ⟨rfl, rfl⟩ := List.cons.inj hranges
            refine .inr ⟨Bool.or_true _, hflight, ?_, hrdma, howed⟩
            dsimp only
            rw [Nat.sub_self]
            rfl
        pending := .inl hpending
        lock := iff_of_false (Nat.succ_ne_zero k) fun hs =>
          Bool.noConfusion (hsched.symm.trans hs.1)
        tally := fun hfailed => by
          obtain ⟨hf, rfl⟩ := failed_or hfailed
          have htally := h.tally hf
          dsimp only [carry]
          rw [if_pos rfl, if_pos rfl, addSize_of_lt (by omega), htally] }
  · exact Bool.noConfusion (hsched.symm.trans hq.1)

theorem rendezvous_exhausted (hsched : s.scheduling = true)
    (hr : s.sendRanges ≠ []) : Rendezvous (step s .exhausted) := by
  have hlock : s.reqLock ≠ 0 := by
    intro hzero
    exact Bool.noConfusion (hsched.symm.trans (h.lock.1 hzero).1)
  refine ⟨⟨hc.count, hc.clean, hc.packed_lt⟩, .inl ⟨?_, fun hq => ?_⟩⟩
  · exact h.reschedule (.inr ⟨rfl, hr, rfl⟩)
      (iff_of_false hlock fun hp => SendPending.noConfusion hp.2)
  · exact SendPending.noConfusion hq.2

theorem rendezvous_resume (hp : s.pending = .schedule) : Rendezvous (step s .resume) := by
  have hlock : s.reqLock ≠ 0 := by
    intro hzero
    exact SendPending.noConfusion (hp.symm.trans (h.lock.1 hzero).2)
  refine ⟨⟨hc.count, hc.clean, hc.packed_lt⟩, .inl ⟨?_, fun hq => ?_⟩⟩
  · exact h.reschedule (.inl rfl) (iff_of_false hlock fun hs => Bool.noConfusion hs.1)
  · exact Bool.noConfusion hq.1

theorem rendezvous_scheduled (hsched : s.scheduling = true) : Rendezvous (step s .scheduled) := by
  have hpending := h.pending_of_scheduling hsched
  rw [step, scheduleReturns]
  dsimp only
  split
  · next hzero =>
      apply rendezvous_check
      · exact ⟨hc.count, hc.clean, hc.packed_lt⟩
      · exact h.reschedule (.inl hpending) (iff_of_true hzero ⟨rfl, hpending⟩)
  · next hpos =>
      refine ⟨⟨hc.count, hc.clean, hc.packed_lt⟩, .inl ⟨?_, fun hq => ?_⟩⟩
      · exact h.reschedule (.inl hpending)
          (iff_of_false hpos fun hs => Bool.noConfusion (hsched.symm.trans hs.1))
      · exact Bool.noConfusion (hsched.symm.trans hq.1)

end

end Scheduler

section Steps

variable {s : SendRequest} {depth : ℕ} {e : Event}

theorem rendezvous_nack (hc : Common s) (h : Live s) (hsound : Sound s .nack) :
    Rendezvous (step s .nack) := by
  obtain ⟨hflight, hranges, hrdma, hsched⟩ := hsound
  have hpending : s.pending = .none := by
    rcases h.pending with hp | ⟨-, hne, -⟩
    · exact hp
    · exact absurd hranges hne
  have hcommon : Common { s with reqRecv := false, acked := true, owed := 0, failed := true } :=
    ⟨hc.count, hc.clean, hc.packed_lt⟩
  refine ⟨hcommon.complete h.incomplete ?_, .inr ?_⟩
  · exact unreferenced_of_settled ⟨hflight, hranges, hrdma, rfl⟩ hpending
  · exact ⟨h.protocol, rfl, ⟨hflight, hranges, hrdma, rfl⟩, ⟨hsched, hpending⟩, rfl,
      fun hf => Bool.noConfusion hf⟩

theorem Live.user (h : Live s) (mpi free ret : Bool) :
    Live { s with mpiComplete := mpi, freeCalled := free, returned := ret } where
  protocol := h.protocol
  incomplete := h.incomplete
  pieces := h.pieces
  state := h.state
  books := h.books.imp (fun b => ⟨b.bytes, b.ranges, b.rdma⟩)
    fun ⟨hf, b⟩ => ⟨hf, b.flight, b.ranges, b.rdma, b.owed⟩
  pending := h.pending
  lock := h.lock
  tally := h.tally

theorem protocol_ne {p : Protocol} (h : s.protocol = some p) : s.protocol ≠ none := by
  rw [h]
  exact some_ne_none p

theorem rendezvous_of_live (hc : Common s) (h : Live s) (harmed : Armed s)
    (hpossible : Possible depth s e) (hsound : Sound s e) : Rendezvous (step s e) := by
  have hstarted := protocol_ne h.protocol
  cases e with
  | postpone | restart | attempt => exact absurd hpossible.1 hstarted
  | start p size => cases p <;> exact absurd hpossible.1 hstarted
  | complete i ok => exact rendezvous_complete hc h hpossible hsound
  | ack sendOffset nordma =>
    obtain ⟨hacked, -, hget | ⟨-, howed⟩⟩ := hpossible
    · exact absurd hget hsound
    · exact rendezvous_ack hc h hacked howed
  | nack => exact rendezvous_nack hc h hsound
  | put length ackFlag outcome =>
    obtain ⟨-, hpos, howed, hflag, hfits⟩ := hpossible
    exact rendezvous_put hc h hpos howed hflag hfits
  | retryPut i outcome =>
    obtain ⟨-, length, hi, hfits⟩ := hpossible
    exact rendezvous_retryPut hc h hi hfits
  | fragment size =>
    obtain ⟨hsched, -, length, hhead, hpos, hle⟩ := hpossible
    obtain ⟨rest, hr⟩ := head?_eq_some_iff.1 hhead
    exact rendezvous_fragment hc h hsched hr hpos hle
  | fragmentInline size ok =>
    obtain ⟨hsched, -, length, hhead, hpos, hle⟩ := hpossible
    obtain ⟨rest, hr⟩ := head?_eq_some_iff.1 hhead
    exact rendezvous_fragmentInline hc h hsched hr hpos hle hsound
  | exhausted => exact rendezvous_exhausted hc h hpossible.1 hpossible.2.2
  | scheduled => exact rendezvous_scheduled hc h hpossible.1
  | resume => exact rendezvous_resume hc h hpossible
  | free | cancel =>
    exact ⟨⟨hc.count, hc.clean, hc.packed_lt⟩, .inl ⟨h.user _ _ _, harmed⟩⟩

/-- Nothing waits to be sent, and nobody schedules the request. -/
structure Quiet (s : SendRequest) : Prop where
  ranges : s.sendRanges = []
  rdma : s.rdmaPending = []
  owed : s.owed = 0
  scheduling : s.scheduling = false
  pending : s.pending ≠ .schedule

def Event.IsTransfer : Event → Prop
  | .put _ _ _ | .retryPut _ _ | .fragment _ | .fragmentInline _ _ | .exhausted | .scheduled
  | .resume => True
  | _ => False

theorem Quiet.not_transfer (h : Quiet s) (hpossible : Possible depth s e) : ¬e.IsTransfer := by
  intro htransfer
  cases e with
  | postpone | restart | attempt | start | complete | ack | nack | free | cancel => exact htransfer
  | put length ackFlag outcome =>
    obtain ⟨-, hpos, howed, -⟩ := hpossible
    have hzero := h.owed
    omega
  | retryPut i outcome =>
    obtain ⟨-, length, hi, -⟩ := hpossible
    rw [h.rdma] at hi
    cases hi
  | fragment | fragmentInline | exhausted | scheduled =>
    exact Bool.noConfusion (h.scheduling.symm.trans hpossible.1)
  | resume => exact h.pending hpossible

theorem possible_of_settled (h : Quiet s) (hflight : s.flight = []) (hacked : s.acked = true)
    (hstarted : s.protocol ≠ none) (hpossible : Possible depth s e) : e = .free ∨ e = .cancel := by
  have htransfer := h.not_transfer hpossible
  cases e with
  | postpone | restart | attempt => exact absurd hpossible.1 hstarted
  | start p size => cases p <;> exact absurd hpossible.1 hstarted
  | complete i ok =>
    have hi : i < s.flight.length := hpossible
    rw [hflight] at hi
    exact absurd hi (Nat.not_lt_zero i)
  | ack | nack => exact Bool.noConfusion (hacked.symm.trans hpossible.1)
  | put | retryPut | fragment | fragmentInline | exhausted | scheduled | resume =>
    exact absurd trivial htransfer
  | free => exact .inl rfl
  | cancel => exact .inr rfl

theorem Done.quiet (h : Done s) : Quiet s where
  ranges := h.settled.ranges
  rdma := h.settled.rdma
  owed := h.settled.owed
  scheduling := h.quiescent.1
  pending := by
    rw [h.quiescent.2]
    exact SendPending.noConfusion

theorem rendezvous_of_done (hc : Common s) (h : Done s) (hpossible : Possible depth s e) :
    Rendezvous (step s e) := by
  have hsettled := h.settled
  rcases possible_of_settled h.quiet hsettled.flight h.acked (protocol_ne h.protocol) hpossible
    with rfl | rfl <;>
    exact ⟨⟨hc.count, hc.clean, hc.packed_lt⟩, .inr ⟨h.protocol, h.complete,
      ⟨hsettled.flight, hsettled.ranges, hsettled.rdma, hsettled.owed⟩, h.quiescent, h.acked,
      h.full⟩⟩

theorem rendezvous_step (h : Rendezvous s) (hpossible : Possible depth s e)
    (hsound : Sound s e) : Rendezvous (step s e) := by
  obtain ⟨hc, ⟨hlive, harmed⟩ | hdone⟩ := h
  · exact rendezvous_of_live hc hlive harmed hpossible hsound
  · exact rendezvous_of_done hc hdone hpossible

end Steps

end Ulfm.SendReq
