import Mathlib.Algebra.BigOperators.Group.List.Basic
import Ulfm.Pml.RecvRequest

/-!
# The bytes of a receive request

The bytes counted, in flight, owed by the sender and not yet asked for are those of the
message as long as no put fails while the scheduler runs (`Orderly`), so the request is
completed at most once and with nothing in flight. What is counted is what has come in
if and only if no get fails and a put fails only when nothing is left to be asked for.
-/

namespace Ulfm.RecvReq

open List Option Ulfm.RecvReq.RecvRequest

open SendReq (sizeMod addSize subSize)

section Sizes

theorem addSize_of_lt {a b : ℕ} (h : a + b < sizeMod) : addSize a b = a + b := Nat.mod_eq_of_lt h

theorem subSize_of_le {a b : ℕ} (ha : a < sizeMod) (hb : b ≤ a) : subSize a b = a - b := by
  have heq : a + sizeMod - b = (a - b) + sizeMod := by omega
  rw [subSize, heq, Nat.add_mod_right, Nat.mod_eq_of_lt (by omega)]

def flightBytes (flight : List Fragment) : ℕ := (flight.map Fragment.length).sum

@[simp] theorem flightBytes_nil : flightBytes [] = 0 := rfl

theorem flightBytes_append (l : List Fragment) (d : Fragment) :
    flightBytes (l ++ [d]) = flightBytes l + d.length := by
  simp [flightBytes]

theorem flightBytes_eraseIdx {l : List Fragment} {i : ℕ} {d : Fragment} (h : l[i]? = some d) :
    flightBytes l = d.length + flightBytes (l.eraseIdx i) := by
  obtain ⟨hi, rfl⟩ := List.getElem?_eq_some_iff.1 h
  have hperm := (((getElem_cons_eraseIdx_perm hi).symm).map Fragment.length).sum_eq
  rwa [map_cons, sum_cons] at hperm

theorem length_le_flightBytes {l : List Fragment} (h : ∀ d ∈ l, 0 < d.length) :
    l.length ≤ flightBytes l := by
  induction l with
  | nil => exact Nat.zero_le _
  | cons d l ih =>
    have hd := h d mem_cons_self
    have hrest := ih fun e he => h e (mem_cons_of_mem d he)
    simp only [flightBytes, map_cons, sum_cons, length_cons] at hrest ⊢
    omega

end Sizes

section Ledger

/-- What the check and the scheduler leave alone. -/
structure Ledger where
  source : Option ℕ
  protocol : Option Protocol
  bytesPacked : ℕ
  bytesReceived : ℕ
  landed : ℕ
  flight : List Fragment
  owed : ℕ
  rdmaOffset : ℕ
  sendOffset : ℕ

def ledger (s : RecvRequest) : Ledger where
  source := s.source
  protocol := s.protocol
  bytesPacked := s.bytesPacked
  bytesReceived := s.bytesReceived
  landed := s.landed
  flight := s.flight
  owed := s.owed
  rdmaOffset := s.rdmaOffset
  sendOffset := s.sendOffset

variable (s : RecvRequest)

theorem recvRequestPmlComplete_spec : ledger s.recvRequestPmlComplete = ledger s ∧
      s.recvRequestPmlComplete.completions = s.completions + 1 ∧
      (quiescent s → quiescent s.recvRequestPmlComplete) := by
  unfold RecvRequest.recvRequestPmlComplete
  dsimp only
  split_ifs <;> exact ⟨rfl, rfl, fun hq => hq⟩

theorem ledger_pmlCompleteCheck : ledger s.pmlCompleteCheck.1 = ledger s := by
  unfold pmlCompleteCheck
  split_ifs
  · exact (recvRequestPmlComplete_spec { s with reqLock := s.reqLock + 1 }).1
  · rfl
  · rfl

theorem ledger_schedule : ledger s.schedule = ledger s := by
  unfold schedule
  split_ifs <;> rfl

theorem ledger_checkOrSchedule : ledger s.checkOrSchedule = ledger s := by
  have hcheck := ledger_pmlCompleteCheck s
  unfold checkOrSchedule
  generalize s.pmlCompleteCheck = r at hcheck
  obtain ⟨s', done⟩ := r
  cases done with
  | true => exact hcheck
  | false =>
    dsimp only
    split_ifs
    · exact (ledger_schedule s').trans hcheck
    · exact hcheck

theorem Ended.congr {s s' : RecvRequest} (h : Ended s) (hledger : ledger s' = ledger s)
    (hq : quiescent s') : Ended s' := by
  obtain ⟨hsource, hflight, howed, hunscheduled, -⟩ := h
  have hsource' : s'.source = s.source := congrArg Ledger.source hledger
  have hflight' : s'.flight = s.flight := congrArg Ledger.flight hledger
  have howed' : s'.owed = s.owed := congrArg Ledger.owed hledger
  have hprotocol : s'.protocol = s.protocol := congrArg Ledger.protocol hledger
  have hsend : s'.sendOffset = s.sendOffset := congrArg Ledger.sendOffset hledger
  have hrdma : s'.rdmaOffset = s.rdmaOffset := congrArg Ledger.rdmaOffset hledger
  rw [unscheduled] at hunscheduled
  refine ⟨?_, hflight'.trans hflight, howed'.trans howed, ?_, hq⟩
  · rw [hsource']
    exact hsource
  · rw [unscheduled, hprotocol, hsend, hrdma]
    exact hunscheduled

end Ledger

section Books

variable {depth : ℕ} {s : RecvRequest}

/-- A request that no message has matched. -/
structure Fresh (s : RecvRequest) : Prop where
  source : s.source = none
  completions : s.completions = 0
  bytesReceived : s.bytesReceived = 0
  landed : s.landed = 0
  flight : s.flight = []
  owed : s.owed = 0
  quiescent : quiescent s
  lock : s.reqLock = 0
  depth : s.pipelineDepth = 0

structure Live (s : RecvRequest) : Prop where
  source : s.source ≠ none
  matched : s.matchReceived = true
  protocol : s.protocol = some .rndv
  completions : s.completions = 0
  packed_lt : s.bytesPacked < sizeMod
  bytes : s.bytesReceived + flightBytes s.flight + s.owed + (s.sendOffset - s.rdmaOffset)
    = s.bytesPacked
  offsets : s.rdmaOffset ≤ s.sendOffset
  send_le : s.sendOffset ≤ s.bytesPacked
  puts : ∀ d ∈ s.flight, ∃ n, d = .put n ∧ 0 < n
  depth : s.pipelineDepth = s.flight.length
  remaining : ∀ r, s.scheduling = some r → r = s.sendOffset - s.rdmaOffset
  lock : s.reqLock = 0 ↔ quiescent s
  exclusive : s.pending = true → s.scheduling = none

/-- The check would not complete the request now, and the pipeline is full unless all
has been asked for. -/
def Armed (depth : ℕ) (s : RecvRequest) : Prop :=
  quiescent s → s.bytesReceived < s.bytesPacked ∧
    (s.rdmaOffset = s.sendOffset ∨ depth ≤ s.pipelineDepth)

/-- A message that comes by copy, as the buffer is not contiguous. -/
structure Copying (s : RecvRequest) : Prop where
  source : s.source ≠ none
  matched : s.matchReceived = true
  protocol : s.protocol = some .copy
  completions : s.completions = 0
  packed_lt : s.bytesPacked < sizeMod
  bytes : s.bytesReceived + s.owed = s.bytesPacked
  short : s.bytesReceived < s.bytesPacked
  sendOffset : s.sendOffset = 0
  flight : s.flight = []
  quiescent : quiescent s
  lock : s.reqLock = 0

structure Getting (s : RecvRequest) : Prop where
  source : s.source ≠ none
  matched : s.matchReceived = true
  protocol : s.protocol = some .rget
  completions : s.completions = 0
  packed_pos : 0 < s.bytesPacked
  packed_lt : s.bytesPacked < sizeMod
  bytesReceived : s.bytesReceived = 0
  landed : s.landed = 0
  owed : s.owed = 0
  flight : s.flight = [.get s.bytesPacked]
  quiescent : quiescent s
  lock : s.reqLock = 0

/-- All fragments have ended, and the request is complete. -/
def Settled (s : RecvRequest) : Prop := Ended s ∧ s.completions = 1

/-- All fragments have ended, but perhaps the request waits for ever. -/
def Over (s : RecvRequest) : Prop := Ended s ∧ s.completions ≤ 1

inductive Books (depth : ℕ) (s : RecvRequest) : Prop
  | fresh (h : Fresh s)
  | live (h : Live s) (harmed : Armed depth s)
  | copying (h : Copying s)
  | getting (h : Getting s)
  | settled (h : Settled s)

theorem fresh_start (bytesExpected : ℕ) (rdmaOffset sendOffset : UInt64) :
    Fresh (start bytesExpected rdmaOffset sendOffset) :=
  ⟨rfl, rfl, rfl, rfl, rfl, rfl, ⟨rfl, rfl⟩, rfl, rfl⟩

section

variable (h : Live s)
include h

theorem Live.positive : ∀ d ∈ s.flight, 0 < d.length := by
  intro d hd
  obtain ⟨n, rfl, hn⟩ := h.puts d hd
  exact hn

theorem Live.unscheduled_eq : unscheduled s = s.sendOffset - s.rdmaOffset := by
  rw [unscheduled, if_pos h.protocol]

theorem Live.subSize_eq : subSize s.sendOffset s.rdmaOffset = s.sendOffset - s.rdmaOffset := by
  have hlt := h.packed_lt
  have hle := h.send_le
  exact subSize_of_le (by omega) h.offsets

theorem Live.ended (hfull : s.bytesPacked ≤ s.bytesReceived) (hq : quiescent s) : Ended s := by
  have hbytes := h.bytes
  have hlength := length_le_flightBytes h.positive
  have hflight : s.flight.length = 0 := by omega
  refine ⟨h.source, length_eq_zero_iff.1 hflight, ?_, ?_, hq⟩
  · omega
  · rw [h.unscheduled_eq]
    omega

theorem Live.locked (hlock : s.reqLock ≠ 0) : Live { s with reqLock := s.reqLock + 1 } :=
  { h with lock := iff_of_false (Nat.succ_ne_zero _) (mt h.lock.2 hlock) }

theorem Live.check : s.pmlCompleteCheck.2 = true ∧ Settled s.pmlCompleteCheck.1 ∨
      s.pmlCompleteCheck.2 = false ∧ Live s.pmlCompleteCheck.1 ∧ (quiescent s.pmlCompleteCheck.1 →
          s.pmlCompleteCheck.1.bytesReceived < s.pmlCompleteCheck.1.bytesPacked) := by
  unfold pmlCompleteCheck
  split_ifs with hfull hlock
  · left
    have hq := h.lock.1 hlock
    have hended := h.ended hfull.2 hq
    obtain ⟨hledger, hcompletions, hquiet⟩ :=
      recvRequestPmlComplete_spec { s with reqLock := s.reqLock + 1 }
    refine ⟨rfl, hended.congr hledger (hquiet hq), ?_⟩
    rw [hcompletions, h.completions]
  · right
    refine ⟨rfl, h.locked hlock, ?_⟩
    intro hq
    exact absurd (h.lock.2 hq) hlock
  · right
    refine ⟨rfl, h, ?_⟩
    intro _
    have hmatched := h.matched
    rw [not_and, Nat.not_le] at hfull
    exact hfull hmatched

theorem Live.schedule : Live s.schedule ∧ ¬quiescent s.schedule := by
  unfold RecvRequest.schedule
  split_ifs with hlock
  · have hq := h.lock.1 hlock
    constructor
    · exact
        { h with
          remaining := by
            intro r hr
            cases hr
            exact h.subSize_eq
          lock := iff_of_false (Nat.succ_ne_zero _) (fun hs => nomatch hs.1)
          exclusive := fun hp => Bool.noConfusion (hq.2.symm.trans hp) }
    · intro hs
      cases hs.1
  · exact ⟨h.locked hlock, fun hq => hlock (h.lock.2 hq)⟩

theorem Live.checkOrSchedule :
    Settled s.checkOrSchedule ∨ Live s.checkOrSchedule ∧ Armed depth s.checkOrSchedule := by
  have hcheck := h.check
  unfold RecvRequest.checkOrSchedule
  generalize s.pmlCompleteCheck = r at hcheck
  obtain ⟨s', done⟩ := r
  obtain ⟨rfl, hsettled⟩ | ⟨rfl, hlive, hshort⟩ := hcheck
  · exact .inl hsettled
  · right
    dsimp only
    split_ifs with hoffset
    · exact ⟨hlive.schedule.1, fun hq => absurd hq hlive.schedule.2⟩
    · refine ⟨hlive, fun hq => ⟨hshort hq, .inl ?_⟩⟩
      have hoffsets := hlive.offsets
      dsimp only at hoffset hoffsets
      omega

theorem Live.books : Books depth s.checkOrSchedule := by
  obtain hsettled | ⟨hlive, harmed⟩ : Settled s.checkOrSchedule ∨
    Live s.checkOrSchedule ∧ Armed depth s.checkOrSchedule := h.checkOrSchedule
  · exact .settled hsettled
  · exact .live hlive harmed

end

end Books

section Steps

variable {depth : ℕ} {s : RecvRequest} {e : Event}

/-- No put fails while the scheduler has others to ask for. -/
def Orderly (s : RecvRequest) : Event → Prop
  | .complete i status =>
    match s.flight[i]? with
    | some (.put _) =>
      status = ompiSuccess ∨ s.scheduling = none ∨ s.rdmaOffset = s.sendOffset
    | _ => True
  | _ => True

theorem Fresh.progressMatch (h : Fresh s) (src length : ℕ) :
    Settled (s.progressMatch src length) := by
  obtain ⟨hledger, hcompletions, hquiet⟩ := recvRequestPmlComplete_spec
    (((s.recvReqMatched src length .matched).land length).count length)
  have hended : Ended (((s.recvReqMatched src length .matched).land length).count length) :=
    ⟨some_ne_none src, h.flight, h.owed, rfl, h.quiescent⟩
  refine ⟨hended.congr hledger (hquiet h.quiescent), hcompletions.trans ?_⟩
  have hzero := h.completions
  exact congrArg (· + 1) hzero

theorem Fresh.progressRndv (h : Fresh s) {src length data offset : ℕ} (hlt : length < sizeMod)
    (hdata : data ≤ offset) (hoffset : offset ≤ length) :
    Books depth (s.progressRndv src length data offset) := by
  have hcount : addSize s.bytesReceived data = data := by
    rw [h.bytesReceived, addSize_of_lt (by omega), Nat.zero_add]
  apply Live.books
  exact
    { source := some_ne_none src
      matched := rfl
      protocol := rfl
      completions := h.completions
      packed_lt := hlt
      bytes := by
        simp only [RecvRequest.count, land, RecvRequest.recvReqMatched, hcount,
          h.flight, flightBytes_nil]
        omega
      offsets := hdata
      send_le := hoffset
      puts := by
        intro d hd
        have hnil : d ∈ s.flight := hd
        rw [h.flight] at hnil
        cases hnil
      depth := by
        have hflight := congrArg List.length h.flight
        exact h.depth.trans hflight.symm
      remaining := by
        intro r hr
        cases hr.symm.trans h.quiescent.1
      lock := iff_of_true h.lock h.quiescent
      exclusive := fun _ => h.quiescent.1 }

theorem Fresh.progressRget (h : Fresh s) {src length : ℕ} (hpos : 0 < length)
    (hlt : length < sizeMod) (needBuffers : Bool) :
    Books depth (s.progressRget src length needBuffers) := by
  have hzero := h.bytesReceived
  cases needBuffers with
  | true =>
    apply Books.copying
    exact
      { source := some_ne_none src
        matched := rfl
        protocol := rfl
        completions := h.completions
        packed_lt := hlt
        bytes := by
          change s.bytesReceived + length = length
          omega
        short := by
          change s.bytesReceived < length
          omega
        sendOffset := rfl
        flight := h.flight
        quiescent := h.quiescent
        lock := h.lock }
  | false =>
    apply Books.getting
    exact
      { source := some_ne_none src
        matched := rfl
        protocol := rfl
        completions := h.completions
        packed_pos := hpos
        packed_lt := hlt
        bytesReceived := h.bytesReceived
        landed := h.landed
        owed := h.owed
        flight := rfl
        quiescent := h.quiescent
        lock := h.lock }

section

variable (h : Live s)
include h

theorem Live.progressFrag {n : ℕ} (hn : n ≤ s.owed) :
    Live ((s.land n).count n |> fun s => { s with owed := s.owed - n }) := by
  have hbytes := h.bytes
  have hlt := h.packed_lt
  have hcount : addSize s.bytesReceived n = s.bytesReceived + n := addSize_of_lt (by omega)
  exact
    { h with
      bytes := by
        simp only [RecvRequest.count, land, hcount]
        omega }

theorem Live.put_le {i n : ℕ} (hi : s.flight[i]? = some (.put n)) :
    flightBytes s.flight = n + flightBytes (s.flight.eraseIdx i) ∧
      subSize s.pipelineDepth 1 = s.pipelineDepth - 1 ∧
      addSize s.bytesReceived n = s.bytesReceived + n := by
  have hbytes := h.bytes
  have hlt := h.packed_lt
  have hdepth := h.depth
  have hflight : flightBytes s.flight = n + flightBytes (s.flight.eraseIdx i) :=
    flightBytes_eraseIdx hi
  have hlength := length_le_flightBytes h.positive
  have hmem : i < s.flight.length := (List.getElem?_eq_some_iff.1 hi).1
  refine ⟨hflight, ?_, ?_⟩
  · exact subSize_of_le (by omega) (by omega)
  · exact addSize_of_lt (by omega)

theorem Live.completed {i n received landed owed rdma : ℕ} {status : ℤ}
    (hi : s.flight[i]? = some (.put n)) (hrdma : s.rdmaOffset ≤ rdma) (hle : rdma ≤ s.sendOffset)
    (hreceived : received + owed = s.bytesReceived + n + s.owed + (rdma - s.rdmaOffset))
    (hremaining : s.scheduling = none ∨ rdma = s.rdmaOffset) :
    Live { s with
      flight := s.flight.eraseIdx i
      pipelineDepth := s.pipelineDepth - 1
      landed := landed
      owed := owed
      rdmaOffset := rdma
      error := status
      bytesReceived := received } := by
  have hbytes := h.bytes
  have hflight := (h.put_le hi).1
  have hmem : i < s.flight.length := (List.getElem?_eq_some_iff.1 hi).1
  have hdepth := h.depth
  exact
    { h with
      bytes := by
        dsimp only
        omega
      offsets := hle
      puts := fun d hd => h.puts d (mem_of_mem_eraseIdx hd)
      depth := by
        dsimp only
        rw [length_eraseIdx_of_lt hmem]
        omega
      remaining := by
        intro r hr
        obtain hnone | rfl := hremaining
        · cases hr.symm.trans hnone
        · exact h.remaining r hr }

theorem Live.putCompletion {i n : ℕ} {status : ℤ} (hi : s.flight[i]? = some (.put n))
    (horderly : status = ompiSuccess ∨ s.scheduling = none ∨ s.rdmaOffset = s.sendOffset) :
    Books depth (RecvRequest.putCompletion n status { s with flight := s.flight.eraseIdx i }) := by
  have hsub := h.subSize_eq
  have hoffsets := h.offsets
  obtain ⟨-, hdepth, hadd⟩ := h.put_le hi
  have hskip : addSize s.bytesReceived (s.sendOffset - s.rdmaOffset) =
      s.bytesReceived + (s.sendOffset - s.rdmaOffset) := by
    have hbytes := h.bytes
    have hlt := h.packed_lt
    exact addSize_of_lt (by omega)
  unfold RecvRequest.putCompletion
  simp only [RecvRequest.count, RecvRequest.land, hsub, hdepth, hadd, hskip]
  split_ifs with hok
  · apply Live.books
    exact h.completed hi (Nat.le_refl _) hoffsets (by omega) (.inr rfl)
  · apply Live.books
    have hremaining := horderly.resolve_left hok
    exact h.completed hi hoffsets (Nat.le_refl _) (by omega) (hremaining.imp_right Eq.symm)

theorem Live.putSent {remaining n : ℕ} (hscheduling : s.scheduling = some remaining)
    (hpos : 0 < n) (hn : n ≤ remaining) : Live (s.putSent remaining n) := by
  have hremaining := h.remaining remaining hscheduling
  have hbytes := h.bytes
  have hlt := h.packed_lt
  have hoffsets := h.offsets
  have hsend := h.send_le
  have hlength := length_le_flightBytes h.positive
  have hdepth := h.depth
  have hrdma : addSize s.rdmaOffset n = s.rdmaOffset + n := addSize_of_lt (by omega)
  have hdeeper : addSize s.pipelineDepth 1 = s.pipelineDepth + 1 := addSize_of_lt (by omega)
  have hput : (Fragment.put n).length = n := rfl
  unfold RecvRequest.putSent
  rw [hrdma, hdeeper]
  have hbusy : ¬quiescent s := fun hq => nomatch hscheduling.symm.trans hq.1
  exact
    { h with
      bytes := by
        dsimp only
        rw [flightBytes_append, hput]
        omega
      offsets := by
        dsimp only
        omega
      puts := by
        intro d hd
        rcases mem_append.1 hd with hold | hnew
        · exact h.puts d hold
        · rw [mem_singleton.1 hnew]
          exact ⟨n, rfl, hpos⟩
      depth := by
        dsimp only
        rw [length_append, length_singleton]
        omega
      remaining := by
        intro r hr
        cases hr
        dsimp only
        omega
      lock := iff_of_false (mt h.lock.1 hbusy) (fun hq => nomatch hq.1)
      exclusive := fun hp => nomatch hscheduling.symm.trans (h.exclusive hp) }

theorem Live.scheduleReturns {remaining : ℕ} (hscheduling : s.scheduling = some remaining)
    (hstop : remaining = 0 ∨ depth ≤ s.pipelineDepth) : Books depth s.scheduleReturns := by
  have hremaining := h.remaining remaining hscheduling
  have hoffsets := h.offsets
  have hsub := h.subSize_eq
  have hpending : s.pending = false := by
    cases hp : s.pending with
    | false => rfl
    | true => cases hscheduling.symm.trans (h.exclusive hp)
  unfold RecvRequest.scheduleReturns
  dsimp only
  split_ifs with hlock
  · have hlive : Live { s with reqLock := s.reqLock - 1, scheduling := none } :=
      { h with
        remaining := fun r hr => by cases hr
        lock := iff_of_true hlock ⟨rfl, hpending⟩
        exclusive := fun _ => rfl }
    have hledger := ledger_pmlCompleteCheck { s with reqLock := s.reqLock - 1, scheduling := none }
    have hcheck := hlive.check
    obtain ⟨-, hsettled⟩ | ⟨-, hlive', hshort⟩ := hcheck
    · exact .settled hsettled
    · refine .live hlive' fun hq => ⟨hshort hq, ?_⟩
      have hrdma := congrArg Ledger.rdmaOffset hledger
      have hsend := congrArg Ledger.sendOffset hledger
      have hflight := congrArg Ledger.flight hledger
      dsimp only [ledger] at hrdma hsend hflight
      rw [hrdma, hsend, hlive'.depth, hflight, ← h.depth]
      exact hstop.imp_left (by omega)
  · apply Books.live
    · exact
        { h with
          remaining := by
            intro r hr
            cases hr
            exact hsub
          lock := iff_of_false hlock (fun hq => by cases hq.1)
          exclusive := fun hp => by cases hpending.symm.trans hp }
    · intro hq
      cases hq.1

theorem Live.exhausted {remaining : ℕ} (hscheduling : s.scheduling = some remaining) :
    Books depth { s with pending := true, scheduling := none } := by
  have hbusy : ¬quiescent s := fun hq => by cases hscheduling.symm.trans hq.1
  apply Books.live
  · exact
      { h with
        remaining := fun r hr => by cases hr
        lock := iff_of_false (mt h.lock.1 hbusy) (fun hq => by cases hq.2)
        exclusive := fun _ => rfl }
  · intro hq
    cases hq.2

theorem Live.resume (hpending : s.pending = true) : Books depth
      { s with pending := false, scheduling := some (subSize s.sendOffset s.rdmaOffset) } := by
  have hbusy : ¬quiescent s := fun hq => by cases hpending.symm.trans hq.2
  apply Books.live
  · exact
      { h with
        remaining := by
          intro r hr
          cases hr
          exact h.subSize_eq
        lock := iff_of_false (mt h.lock.1 hbusy) (fun hq => by cases hq.1)
        exclusive := fun hp => by cases hp }
  · intro hq
    cases hq.1

end

theorem check_of_unlocked (hmatched : s.matchReceived = true) (hlock : s.reqLock = 0)
    (hcompletions : s.completions = 0) :
    (s.bytesPacked ≤ s.bytesReceived → (quiescent s → quiescent s.pmlCompleteCheck.1) ∧
      s.pmlCompleteCheck.2 = true ∧ s.pmlCompleteCheck.1.completions = 1) ∧
      (s.bytesReceived < s.bytesPacked → s.pmlCompleteCheck = (s, false)) := by
  unfold pmlCompleteCheck
  constructor
  · intro hfull
    rw [if_pos ⟨hmatched, hfull⟩, if_pos hlock]
    obtain ⟨-, hone, hquiet⟩ := recvRequestPmlComplete_spec { s with reqLock := s.reqLock + 1 }
    exact ⟨hquiet, rfl, hone.trans (congrArg (· + 1) hcompletions)⟩
  · intro hshort
    rw [if_neg (by omega)]

theorem checkOrSchedule_of_unlocked (hmatched : s.matchReceived = true) (hlock : s.reqLock = 0)
    (hcompletions : s.completions = 0) (hsend : s.sendOffset = 0) :
    (s.bytesPacked ≤ s.bytesReceived →
      (quiescent s → quiescent s.checkOrSchedule) ∧ s.checkOrSchedule.completions = 1) ∧
      (s.bytesReceived < s.bytesPacked → s.checkOrSchedule = s) := by
  obtain ⟨hfull, hshort⟩ := check_of_unlocked hmatched hlock hcompletions
  unfold checkOrSchedule
  constructor
  · intro hle
    have hcheck := hfull hle
    generalize s.pmlCompleteCheck = r at hcheck
    obtain ⟨s', done⟩ := r
    obtain ⟨hquiet, rfl, hone⟩ := hcheck
    exact ⟨hquiet, hone⟩
  · intro hlt
    rw [hshort hlt]
    dsimp only
    rw [if_neg (by omega)]

theorem Copying.progressFrag (h : Copying s) {n : ℕ} (hn : n ≤ s.owed) :
    Copying (s.progressFrag n) ∨ Settled (s.progressFrag n) := by
  have hbytes := h.bytes
  have hlt := h.packed_lt
  have hcount : addSize s.bytesReceived n = s.bytesReceived + n := addSize_of_lt (by omega)
  unfold RecvRequest.progressFrag
  simp only [RecvRequest.land, RecvRequest.count, hcount]
  obtain ⟨hfull, hshort⟩ := checkOrSchedule_of_unlocked (s := { s with
    bytesReceived := s.bytesReceived + n, owed := s.owed - n, landed := s.landed + n })
    h.matched h.lock h.completions h.sendOffset
  by_cases hle : s.bytesPacked ≤ s.bytesReceived + n
  · right
    obtain ⟨hquiet, hone⟩ := hfull hle
    refine ⟨Ended.congr ?_ (ledger_checkOrSchedule _) (hquiet h.quiescent), hone⟩
    refine ⟨h.source, h.flight, ?_, ?_, h.quiescent⟩
    · dsimp only
      omega
    · rw [unscheduled, if_neg]
      exact fun hrndv => nomatch h.protocol.symm.trans hrndv
  · left
    rw [hshort (by dsimp only; omega)]
    exact
      { h with
        bytes := by
          dsimp only
          omega
        short := by
          dsimp only
          omega }

theorem Ended.check (h : Ended s) (hmatched : s.matchReceived = true) (hlock : s.reqLock = 0)
    (hcompletions : s.completions = 0) :
    Over s.pmlCompleteCheck.1 ∧
      (s.pmlCompleteCheck.1.completions = 1 ↔ s.bytesPacked ≤ s.bytesReceived) := by
  obtain ⟨hfull, hshort⟩ := check_of_unlocked hmatched hlock hcompletions
  by_cases hle : s.bytesPacked ≤ s.bytesReceived
  · obtain ⟨hquiet, -, hone⟩ := hfull hle
    have hended := h.congr (ledger_pmlCompleteCheck s) (hquiet h.2.2.2.2)
    exact ⟨⟨hended, Nat.le_of_eq hone⟩, iff_of_true hone hle⟩
  · rw [hshort (by omega)]
    have hzero : (s, false).1.completions = 0 := hcompletions
    exact ⟨⟨h, by omega⟩, iff_of_false (by omega) hle⟩

theorem ended_count (n : ℕ) : Ended (s.count n) ↔ Ended s := by
  simp only [Ended, unscheduled, quiescent, RecvRequest.count]
  rfl

theorem Ended.check_count (h : Ended s) (hmatched : s.matchReceived = true)
    (hlock : s.reqLock = 0) (hcompletions : s.completions = 0) (n : ℕ) :
    Over (s.count n).pmlCompleteCheck.1 ∧ ((s.count n).pmlCompleteCheck.1.completions = 1 ↔
        s.bytesPacked ≤ addSize s.bytesReceived n) := by
  have hcheck := ((ended_count n).2 h).check
  simp only [RecvRequest.count] at hcheck ⊢
  exact hcheck hmatched hlock hcompletions

theorem Getting.ended (h : Getting s) (landed rdmaOffset : ℕ) (error : ℤ) : Ended { s with
      flight := [], landed := landed, rdmaOffset := rdmaOffset, error := error } := by
  refine ⟨h.source, rfl, h.owed, ?_, h.quiescent⟩
  rw [unscheduled, if_neg]
  exact fun hrndv => nomatch h.protocol.symm.trans hrndv

theorem Getting.completed (h : Getting s) (status : ℤ) :
    Over (RecvRequest.rgetCompletion s.bytesPacked status { s with flight := [] }) ∧
      (status = ompiSuccess →
        (RecvRequest.rgetCompletion s.bytesPacked status { s with flight := [] }).completions
          = 1) := by
  have hcount : addSize s.bytesReceived s.bytesPacked = s.bytesPacked := by
    have hlt := h.packed_lt
    rw [h.bytesReceived, addSize_of_lt (by omega), Nat.zero_add]
  unfold rgetCompletion
  by_cases hok : status = ompiSuccess
  · rw [if_pos hok]
    have hended := h.ended (s.landed + s.bytesPacked) s.rdmaOffset s.error
    obtain ⟨hover, hone⟩ := hended.check_count h.matched h.lock h.completions s.bytesPacked
    exact ⟨hover, fun _ => hone.2 (Nat.le_of_eq hcount.symm)⟩
  · rw [if_neg hok]
    have hended := h.ended s.landed s.sendOffset status
    have hcheck := hended.check_count h.matched h.lock h.completions
      (subSize s.sendOffset s.rdmaOffset)
    exact ⟨hcheck.1, fun hstatus => absurd hstatus hok⟩

/-- The first message, and what the scheduler does. -/
def Event.IsFirst : Event → Prop
  | .progressMatch _ _ | .progressRndv _ _ _ _ | .progressRget _ _ _ => True
  | _ => False

def Event.IsScheduling : Event → Prop
  | .putSent _ | .scheduled | .exhausted | .resume => True
  | _ => False

theorem Possible.not_first (h : Possible depth s e) (hsource : s.source ≠ none) : ¬e.IsFirst := by
  intro hfirst
  cases e with
  | progressMatch | progressRndv | progressRget => exact hsource h.1.1
  | progressFrag | complete | putSent | scheduled | exhausted | resume | free => exact hfirst

theorem Possible.not_scheduling (h : Possible depth s e) (hq : quiescent s) : ¬e.IsScheduling := by
  intro hscheduling
  cases e with
  | progressMatch | progressRndv | progressRget | progressFrag | complete | free =>
    exact hscheduling
  | putSent size | exhausted =>
    obtain ⟨-, remaining, hsome, -⟩ := h
    cases hsome.symm.trans hq.1
  | scheduled =>
    obtain ⟨remaining, hsome, -⟩ := h
    cases hsome.symm.trans hq.1
  | resume => cases hq.2.symm.trans h

theorem Possible.not_complete {i : ℕ} {status : ℤ} (h : Possible depth s (.complete i status))
    (hflight : s.flight = []) : False := by
  have hi : i < s.flight.length := h
  rw [hflight] at hi
  exact Nat.not_lt_zero i hi

theorem step_complete {i : ℕ} {status : ℤ} {d : Fragment} (hi : s.flight[i]? = some d) :
    step s (.complete i status) =
      RecvRequest.completion { s with flight := s.flight.eraseIdx i } status d := by
  simp only [step, hi]

theorem Fresh.step (h : Fresh s) (hpossible : Possible depth s e) : Books depth (step s e) := by
  have hquiet := hpossible.not_scheduling h.quiescent
  cases e with
  | progressMatch src length => exact .settled (h.progressMatch src length)
  | progressRndv src length data offset =>
    obtain ⟨-, hlt, hdata, hoffset⟩ := hpossible
    exact h.progressRndv hlt hdata hoffset
  | progressRget src length needBuffers =>
    obtain ⟨-, hpos, hlt⟩ := hpossible
    exact h.progressRget hpos hlt needBuffers
  | progressFrag n =>
    obtain ⟨hpos, hn⟩ := hpossible
    have howed := h.owed
    omega
  | complete i status => exact (hpossible.not_complete h.flight).elim
  | putSent | scheduled | exhausted | resume => exact absurd trivial hquiet
  | free => exact .fresh { h with }

theorem Live.step (h : Live s) (harmed : Armed depth s) (hpossible : Possible depth s e)
    (horderly : Orderly s e) : Books depth (step s e) := by
  have hfirst := hpossible.not_first h.source
  cases e with
  | progressMatch | progressRndv | progressRget => exact absurd trivial hfirst
  | progressFrag n => exact (h.progressFrag hpossible.2).books
  | complete i status =>
    have hi : i < s.flight.length := hpossible
    obtain ⟨n, hput, -⟩ := h.puts _ (getElem_mem hi)
    have hsome : s.flight[i]? = some (.put n) := by
      rw [getElem?_eq_getElem hi, hput]
    rw [step_complete hsome]
    simp only [Orderly, hsome] at horderly
    exact h.putCompletion hsome horderly
  | putSent size =>
    obtain ⟨-, remaining, hscheduling, hpos, hle⟩ := hpossible
    have hstep : step s (.putSent size) = s.putSent remaining size := by
      simp only [step, hscheduling]
    rw [hstep]
    exact .live (h.putSent hscheduling hpos hle) fun hq => nomatch hq.1
  | scheduled =>
    obtain ⟨remaining, hscheduling, hstop⟩ := hpossible
    exact h.scheduleReturns hscheduling hstop
  | exhausted =>
    obtain ⟨-, remaining, hscheduling, -⟩ := hpossible
    exact h.exhausted hscheduling
  | resume => exact h.resume hpossible
  | free => exact .live { h with } harmed

theorem Copying.step (h : Copying s) (hpossible : Possible depth s e) : Books depth (step s e) := by
  have hfirst := hpossible.not_first h.source
  have hquiet := hpossible.not_scheduling h.quiescent
  cases e with
  | progressMatch | progressRndv | progressRget => exact absurd trivial hfirst
  | progressFrag n =>
    obtain hcopying | hsettled := h.progressFrag hpossible.2
    · exact .copying hcopying
    · exact .settled hsettled
  | complete i status => exact (hpossible.not_complete h.flight).elim
  | putSent | scheduled | exhausted | resume => exact absurd trivial hquiet
  | free => exact .copying { h with }

def GetFails (s : RecvRequest) (e : Event) : Prop :=
  ∃ i n status, e = .complete i status ∧ s.flight[i]? = some (.get n) ∧ status ≠ ompiSuccess

theorem Getting.step (h : Getting s) (hpossible : Possible depth s e) :
    Books depth (step s e) ∨ Over (step s e) ∧ GetFails s e := by
  have hfirst := hpossible.not_first h.source
  have hquiet := hpossible.not_scheduling h.quiescent
  cases e with
  | progressMatch | progressRndv | progressRget => exact absurd trivial hfirst
  | progressFrag n =>
    obtain ⟨hpos, hn⟩ := hpossible
    have howed := h.owed
    omega
  | complete i status =>
    have hi : i < s.flight.length := hpossible
    rw [h.flight, length_singleton, Nat.lt_one_iff] at hi
    subst hi
    have hsome : s.flight[0]? = some (.get s.bytesPacked) := by rw [h.flight]; rfl
    have herase : s.flight.eraseIdx 0 = [] := by rw [h.flight]; rfl
    obtain ⟨hover, hone⟩ := h.completed status
    rw [step_complete hsome, herase]
    by_cases hok : status = ompiSuccess
    · exact .inl (.settled ⟨hover.1, hone hok⟩)
    · exact .inr ⟨hover, 0, s.bytesPacked, status, rfl, hsome, hok⟩
  | putSent | scheduled | exhausted | resume => exact absurd trivial hquiet
  | free => exact .inl (.getting { h with })

theorem Ended.possible (h : Ended s) (hpossible : Possible depth s e) : e = .free := by
  obtain ⟨hsource, hflight, howed, -, hq⟩ := h
  have hfirst := hpossible.not_first hsource
  have hquiet := hpossible.not_scheduling hq
  cases e with
  | progressMatch | progressRndv | progressRget => exact absurd trivial hfirst
  | progressFrag n =>
    obtain ⟨hpos, hn⟩ := hpossible
    omega
  | complete i status => exact (hpossible.not_complete hflight).elim
  | putSent | scheduled | exhausted | resume => exact absurd trivial hquiet
  | free => rfl

theorem books_step (h : Books depth s) (hpossible : Possible depth s e)
    (horderly : Orderly s e) : Books depth (step s e) ∨ Over (step s e) ∧ GetFails s e := by
  cases h with
  | fresh h | copying h => exact .inl (h.step hpossible)
  | live h harmed => exact .inl (h.step harmed hpossible horderly)
  | getting h => exact h.step hpossible
  | settled h =>
    obtain ⟨hended, hone⟩ := h
    obtain rfl := hended.possible hpossible
    exact .inl (.settled ⟨hended, hone⟩)

end Steps

section Results

variable {depth : ℕ} {s : RecvRequest} {e : Event} {events : List Event}

theorem Harmless.orderly (h : Harmless s e) : Orderly s e ∧ ¬GetFails s e := by
  cases e with
  | complete i status =>
    constructor
    · unfold Orderly
      unfold Harmless at h
      dsimp only at h ⊢
      split
      · next n hi =>
        rw [hi] at h
        exact h.imp_right Or.inr
      · trivial
    · intro ⟨j, n, status', heq, hj, hfails⟩
      cases heq
      unfold Harmless at h
      dsimp only at h
      rw [hj] at h
      exact hfails h
  | progressMatch | progressRndv | progressRget | progressFrag | putSent | scheduled | exhausted
  | resume | free => exact ⟨trivial, fun ⟨_, _, _, heq, _⟩ => nomatch heq⟩

theorem tally_checkOrSchedule (h : s.bytesReceived = s.landed) :
    s.checkOrSchedule.bytesReceived = s.checkOrSchedule.landed := by
  have hreceived := congrArg Ledger.bytesReceived (ledger_checkOrSchedule s)
  have hlanded := congrArg Ledger.landed (ledger_checkOrSchedule s)
  exact hreceived.trans (h.trans hlanded.symm)

theorem tally_pmlCompleteCheck (h : s.bytesReceived = s.landed) :
    s.pmlCompleteCheck.1.bytesReceived = s.pmlCompleteCheck.1.landed := by
  have hreceived := congrArg Ledger.bytesReceived (ledger_pmlCompleteCheck s)
  have hlanded := congrArg Ledger.landed (ledger_pmlCompleteCheck s)
  exact hreceived.trans (h.trans hlanded.symm)

theorem tally_land (h : s.bytesReceived = s.landed) {n : ℕ} (hlt : s.bytesReceived + n < sizeMod) :
    ((s.land n).count n).bytesReceived = ((s.land n).count n).landed := by
  have hcount : addSize s.bytesReceived n = s.bytesReceived + n := addSize_of_lt hlt
  simp only [RecvRequest.count, land, hcount]
  rw [h]

theorem Books.owed_lt (h : Books depth s) (howed : 0 < s.owed) :
    s.bytesReceived + s.owed < sizeMod := by
  cases h with
  | fresh h | getting h =>
    have hzero := h.owed
    omega
  | live h harmed | copying h =>
    have hbytes := h.bytes
    have hlt := h.packed_lt
    omega
  | settled h =>
    have hzero := h.1.2.2.1
    omega

theorem Books.flight (h : Books depth s) {i : ℕ} {d : Fragment} (hi : s.flight[i]? = some d) :
    Live s ∧ (∃ n, d = .put n) ∨ Getting s ∧ i = 0 ∧ d = .get s.bytesPacked := by
  have hnone (hflight : s.flight = []) : False := by
    rw [hflight] at hi
    exact nomatch hi
  cases h with
  | fresh h | copying h => exact (hnone h.flight).elim
  | live h harmed =>
    obtain ⟨n, hput, -⟩ := h.puts d (mem_of_getElem? hi)
    exact .inl ⟨h, n, hput⟩
  | getting h =>
    right
    rw [h.flight] at hi
    cases i with
    | zero => exact ⟨h, rfl, (Option.some.inj hi).symm⟩
    | succ i => exact nomatch hi
  | settled h => exact (hnone h.1.2.1).elim

section

variable (h : Books depth s) (htally : s.bytesReceived = s.landed)
include h htally

theorem tally_completion {i : ℕ} {d : Fragment} {status : ℤ} (hi : s.flight[i]? = some d)
    (hharmless : Harmless s (.complete i status)) :
    (step s (.complete i status)).bytesReceived = (step s (.complete i status)).landed := by
  rw [step_complete hi]
  simp only [Harmless, hi] at hharmless
  obtain ⟨hlive, n, rfl⟩ | ⟨hgetting, -, rfl⟩ := h.flight hi
  · have hbytes := hlive.bytes
    have hlt := hlive.packed_lt
    obtain ⟨hflight, -⟩ := hlive.put_le hi
    have hput : (Fragment.put n).length = n := rfl
    unfold completion putCompletion
    dsimp only
    generalize subSize s.pipelineDepth 1 = depth'
    split_ifs with hok
    · apply tally_checkOrSchedule
      apply tally_land
      · exact htally
      · dsimp only
        omega
    · apply tally_checkOrSchedule
      have hall := hharmless.resolve_left hok
      have hzero : subSize s.sendOffset s.rdmaOffset = 0 := by
        rw [hlive.subSize_eq]
        omega
      have hcount : addSize s.bytesReceived 0 = s.bytesReceived := addSize_of_lt (by omega)
      simp only [RecvRequest.count, hzero, hcount]
      exact htally
  · have hlt := hgetting.packed_lt
    have hzero := hgetting.bytesReceived
    have hok : status = ompiSuccess := hharmless
    unfold completion rgetCompletion
    dsimp only
    rw [if_pos hok]
    apply tally_pmlCompleteCheck
    apply tally_land
    · exact htally
    · dsimp only
      omega

theorem tally_step (hpossible : Possible depth s e) (hharmless : Harmless s e) :
    (step s e).bytesReceived = (step s e).landed := by
  have hfresh (hposted : Posted s) : s.bytesReceived = 0 := by
    cases h with
    | fresh h => exact h.bytesReceived
    | live h harmed | copying h | getting h => exact absurd hposted.1 h.source
    | settled h => exact absurd hposted.1 h.1.1
  cases e with
  | progressMatch src length =>
    obtain ⟨hposted, hlt⟩ := hpossible
    have hzero := hfresh hposted
    have hspec := (recvRequestPmlComplete_spec
      (((s.recvReqMatched src length .matched).land length).count length)).1
    have hreceived := congrArg Ledger.bytesReceived hspec
    have hlanded := congrArg Ledger.landed hspec
    have hland : (((s.recvReqMatched src length .matched).land length).count length).bytesReceived
        = (((s.recvReqMatched src length .matched).land length).count length).landed := by
      apply tally_land
      · exact htally
      · change s.bytesReceived + length < sizeMod
        omega
    exact hreceived.trans (hland.trans hlanded.symm)
  | progressRndv src length data offset =>
    obtain ⟨hposted, hlt, hdata, hoffset⟩ := hpossible
    have hzero := hfresh hposted
    apply tally_checkOrSchedule
    apply tally_land
    · exact htally
    · change s.bytesReceived + data < sizeMod
      omega
  | progressRget src length needBuffers =>
    cases needBuffers with
    | true | false => exact htally
  | progressFrag n =>
    obtain ⟨hpos, hn⟩ := hpossible
    have hlt := h.owed_lt (by omega)
    apply tally_checkOrSchedule
    apply tally_land
    · exact htally
    · change s.bytesReceived + n < sizeMod
      omega
  | complete i status =>
    have hi : i < s.flight.length := hpossible
    exact tally_completion h htally (getElem?_eq_getElem hi) hharmless
  | putSent size =>
    obtain ⟨-, remaining, hscheduling, -⟩ := hpossible
    have hstep : step s (.putSent size) = s.putSent remaining size := by
      simp only [step, hscheduling]
    rw [hstep]
    exact htally
  | scheduled =>
    change s.scheduleReturns.bytesReceived = s.scheduleReturns.landed
    unfold scheduleReturns
    dsimp only
    split_ifs
    · exact tally_pmlCompleteCheck htally
    · exact htally
  | exhausted | resume | free => exact htally

theorem Books.accounted : Accounted s := by
  refine ⟨htally, ?_⟩
  cases h with
  | fresh h =>
    rw [if_neg fun hended => hended.1 h.source]
    exact h.completions
  | live h harmed =>
    rw [if_neg, h.completions]
    intro hended
    obtain ⟨-, hflight, howed, hunscheduled, hq⟩ := hended
    have hshort := (harmed hq).1
    have hbytes := h.bytes
    rw [h.unscheduled_eq] at hunscheduled
    rw [hflight, flightBytes_nil] at hbytes
    omega
  | copying h =>
    rw [if_neg, h.completions]
    intro hended
    have howed := hended.2.2.1
    have hbytes := h.bytes
    have hshort := h.short
    omega
  | getting h =>
    rw [if_neg, h.completions]
    intro hended
    exact nomatch h.flight.symm.trans hended.2.1
  | settled h =>
    obtain ⟨hended, hone⟩ := h
    rw [if_pos hended, hone]

end

theorem Live.miscounts (h : Live s) (htally : s.bytesReceived = s.landed) {i n : ℕ} {status : ℤ}
    (hharmful : ¬(status = ompiSuccess ∨ s.rdmaOffset = s.sendOffset)) :
    ¬Accounted (RecvRequest.putCompletion n status { s with flight := s.flight.eraseIdx i }) := by
  obtain ⟨hfails, hleft⟩ := not_or.1 hharmful
  have hbytes := h.bytes
  have hlt := h.packed_lt
  have hoffsets := h.offsets
  have hcount : addSize s.bytesReceived (s.sendOffset - s.rdmaOffset) =
      s.bytesReceived + (s.sendOffset - s.rdmaOffset) := addSize_of_lt (by omega)
  intro haccounted
  have hexact := haccounted.exactly
  unfold RecvRequest.putCompletion at hexact
  simp only [RecvRequest.count, h.subSize_eq, hcount, if_neg hfails] at hexact
  have hreceived := congrArg Ledger.bytesReceived (ledger_checkOrSchedule { s with
    flight := s.flight.eraseIdx i, pipelineDepth := subSize s.pipelineDepth 1
    error := status, rdmaOffset := s.sendOffset, owed := s.owed + n
    bytesReceived := s.bytesReceived + (s.sendOffset - s.rdmaOffset) })
  have hlanded := congrArg Ledger.landed (ledger_checkOrSchedule { s with
    flight := s.flight.eraseIdx i, pipelineDepth := subSize s.pipelineDepth 1
    error := status, rdmaOffset := s.sendOffset, owed := s.owed + n
    bytesReceived := s.bytesReceived + (s.sendOffset - s.rdmaOffset) })
  dsimp only [ledger] at hreceived hlanded
  omega

/-- Where nothing has come in, bytes that are counted are not those that came in, and
without them the request is never completed. -/
theorem Ended.miscounts (h : Ended s) (hmatched : s.matchReceived = true) (hlock : s.reqLock = 0)
    (hcompletions : s.completions = 0) (hlanded : s.landed = 0) (hpos : 0 < s.bytesPacked)
    (n : ℕ) : ¬Accounted (s.count n).pmlCompleteCheck.1 := by
  intro haccounted
  obtain ⟨⟨hstill, -⟩, hiff⟩ := h.check_count hmatched hlock hcompletions n
  have hone := haccounted.once
  rw [if_pos hstill] at hone
  have hfull := hiff.1 hone
  have hexact := haccounted.exactly
  have hreceived := congrArg Ledger.bytesReceived (ledger_pmlCompleteCheck (s.count n))
  have hcame := congrArg Ledger.landed (ledger_pmlCompleteCheck (s.count n))
  simp only [ledger] at hreceived hcame
  rw [hreceived, hcame] at hexact
  simp only [RecvRequest.count] at hexact
  omega

theorem Getting.miscounts (h : Getting s) {status : ℤ} (hfails : status ≠ ompiSuccess) :
    ¬Accounted (RecvRequest.rgetCompletion s.bytesPacked status { s with flight := [] }) := by
  unfold rgetCompletion
  rw [if_neg hfails]
  have hended := h.ended s.landed s.sendOffset status
  exact hended.miscounts h.matched h.lock h.completions h.landed h.packed_pos _

theorem not_accounted_of_not_harmless (h : Books depth s) (htally : s.bytesReceived = s.landed)
    (hharmless : ¬Harmless s e) : ¬Accounted (step s e) := by
  cases e with
  | progressMatch | progressRndv | progressRget | progressFrag | putSent | scheduled | exhausted
  | resume | free => exact absurd trivial hharmless
  | complete i status =>
    cases hi : s.flight[i]? with
    | none =>
      simp only [Harmless, hi, not_true_eq_false] at hharmless
    | some d =>
      rw [step_complete hi]
      simp only [Harmless, hi] at hharmless
      obtain ⟨hlive, n, rfl⟩ | ⟨hgetting, rfl, rfl⟩ := h.flight hi
      · exact hlive.miscounts htally hharmless
      · have herase : s.flight.eraseIdx 0 = [] := by rw [hgetting.flight]; rfl
        rw [herase]
        exact hgetting.miscounts hharmless

theorem Harmless.books (h : Harmless s e) (hbooks : Books depth s)
    (hpossible : Possible depth s e) : Books depth (step s e) := by
  obtain ⟨horderly, hget⟩ := h.orderly
  obtain hbooks' | ⟨-, hfails⟩ := books_step hbooks hpossible horderly
  · exact hbooks'
  · exact absurd hfails hget

theorem accounted_iff (hbooks : Books depth s) (htally : s.bytesReceived = s.landed)
    (hrun : Along step (Possible depth) s events) :
    Along step (fun s e => Accounted (step s e)) s events ↔ Along step Harmless s events := by
  induction events generalizing s with
  | nil => exact Iff.rfl
  | cons e events ih =>
    obtain ⟨hpossible, hrun⟩ := hrun
    constructor
    · intro ⟨haccounted, hrest⟩
      have hharmless : Harmless s e := by
        by_contra hnot
        exact not_accounted_of_not_harmless hbooks htally hnot haccounted
      have htally' := tally_step hbooks htally hpossible hharmless
      exact ⟨hharmless, (ih (hharmless.books hbooks hpossible) htally' hrun).1 hrest⟩
    · intro ⟨hharmless, hrest⟩
      have hbooks' := hharmless.books hbooks hpossible
      have htally' := tally_step hbooks htally hpossible hharmless
      exact ⟨hbooks'.accounted htally', (ih hbooks' htally' hrun).2 hrest⟩

/-- Every fragment that has been scheduled has ended. -/
structure Idle (s : RecvRequest) : Prop where
  source : s.source ≠ none
  flight : s.flight = []
  owed : s.owed = 0
  quiescent : quiescent s

theorem Books.ended_of_idle (h : Books depth s) (hdepth : 0 < depth) (hidle : Idle s) :
    Settled s := by
  cases h with
  | fresh h => exact absurd h.source hidle.source
  | live h harmed =>
    obtain ⟨hshort, hall⟩ := harmed hidle.quiescent
    have hbytes := h.bytes
    have hempty := h.depth
    have hoffsets := h.offsets
    rw [hidle.flight, hidle.owed, flightBytes_nil] at hbytes
    rw [hidle.flight, length_nil] at hempty
    omega
  | copying h =>
    have hbytes := h.bytes
    have hshort := h.short
    have howed := hidle.owed
    omega
  | getting h => exact nomatch h.flight.symm.trans hidle.flight
  | settled h => exact h

/-- In a run of a receive, the bytes counted are those that came in and the request is
completed once, when all fragments have ended, if and only if every step is harmless.
Then the request is complete as soon as every fragment that was scheduled has ended. -/
theorem recv_accounted_iff (bytesExpected : ℕ) (rdmaOffset sendOffset : UInt64)
    (hrun : Along step (Possible depth) (start bytesExpected rdmaOffset sendOffset) events) :
    (Along step (fun s e => Accounted (step s e)) (start bytesExpected rdmaOffset sendOffset)
        events ↔
      Along step Harmless (start bytesExpected rdmaOffset sendOffset) events) ∧
    (Along step Harmless (start bytesExpected rdmaOffset sendOffset) events → 0 < depth →
      Idle (events.foldl step (start bytesExpected rdmaOffset sendOffset)) →
      (events.foldl step (start bytesExpected rdmaOffset sendOffset)).completions = 1) := by
  have hbooks : Books depth (start bytesExpected rdmaOffset sendOffset) :=
    .fresh (fresh_start bytesExpected rdmaOffset sendOffset)
  constructor
  · exact accounted_iff hbooks rfl hrun
  · intro hharmless hdepth hidle
    have hend : Books depth (events.foldl step (start bytesExpected rdmaOffset sendOffset)) :=
      Along.invariant (fun s e h hboth => hboth.2.books h hboth.1) hbooks (hrun.and hharmless)
    exact (hend.ended_of_idle hdepth hidle).2

/-- A message of four bytes by two puts, the first of which fails: the sender copies its
bytes, and the receiver never asks for the rest. -/
def skipping : List Event :=
  [.progressRndv 0 4 0 4, .putSent 2, .scheduled, .complete 0 (-1), .progressFrag 2]

theorem possible_skipping : Along step (Possible 1) (start 4 0 0) skipping :=
  ⟨⟨⟨rfl, rfl⟩, by decide, by decide, by decide⟩,
    ⟨by decide, 4, rfl, by decide, by decide⟩, ⟨2, rfl, .inr (by decide)⟩, Nat.one_pos,
    ⟨by decide, by decide⟩, trivial⟩

/-- The request is complete with two bytes of four. -/
theorem recv_completes_short :
    ¬∀ (depth bytesExpected : ℕ) (rdmaOffset sendOffset : UInt64) (events : List Event),
      Along step (Possible depth) (start bytesExpected rdmaOffset sendOffset) events →
        Along step (fun s e => Accounted (step s e)) (start bytesExpected rdmaOffset sendOffset)
          events := by
  intro h
  obtain ⟨-, -, -, -, hlast, -⟩ := h 1 4 0 0 skipping possible_skipping
  have hexact := hlast.exactly
  revert hexact
  decide

/-- The same message, where the second put fails: the receiver has asked for everything. -/
def served : List Event :=
  [.progressRndv 0 4 0 4, .putSent 2, .scheduled, .complete 0 ompiSuccess, .putSent 2, .scheduled,
    .complete 0 (-1), .progressFrag 2]

theorem recv_accounted_iff_served :
    Along step (fun s e => Accounted (step s e)) (start 4 0 0) served ∧
      (served.foldl step (start 4 0 0)).completions = 1 := by
  have hpossible : Along step (Possible 1) (start 4 0 0) served :=
    ⟨⟨⟨rfl, rfl⟩, by decide, by decide, by decide⟩,
      ⟨by decide, 4, rfl, by decide, by decide⟩, ⟨2, rfl, .inr (by decide)⟩, Nat.one_pos,
      ⟨by decide, 2, rfl, by decide, by decide⟩, ⟨0, rfl, .inl rfl⟩, Nat.one_pos,
      ⟨by decide, by decide⟩, trivial⟩
  have hharmless : Along step Harmless (start 4 0 0) served :=
    ⟨trivial, trivial, trivial, .inl rfl, trivial, trivial, .inr rfl, trivial, trivial⟩
  obtain ⟨haccounted, hcomplete⟩ := recv_accounted_iff 4 0 0 hpossible
  exact ⟨haccounted.2 hharmless,
    hcomplete hharmless Nat.one_pos ⟨some_ne_none 0, rfl, rfl, by decide⟩⟩

end Results

end Ulfm.RecvReq
