import Mathlib.Order.CompletePartialOrder
import Mathlib.Order.Interval.Set.Disjoint
import Ulfm.Pml.Rendezvous

/-!
# A rendezvous moves every byte once

The loop of `mca_pml_ob1_recv_request_schedule_once` asks for the bytes of the RDMA
interval, piece by piece and on the BTLs in turn, for as long as some BTL has bytes
left. It comes to the end of the interval when the lengths of the BTLs add up to it.
They do, and the three parts make up the message, unless the subtraction that gives
the pipeline protocol its offset wraps around.
-/

namespace Ulfm.Rndv

open List Convertor Nat

open SendReq (sizeMod subSize addSize)

variable {W : Type}

theorem subSize_of_le {a b : ℕ} (ha : a < sizeMod) (hb : b ≤ a) : subSize a b = a - b := by
  unfold subSize sizeMod at *
  omega

theorem subSize_of_lt {a b : ℕ} (hb : b < sizeMod) (h : a < b) : subSize a b = a + sizeMod - b := by
  unfold subSize sizeMod at *
  omega

section Schedule

/-- What happens in one pass of the loop: the put callbacks since the last test, how
many bytes `mca_bml_base_prepare_dst` prepares if it has a descriptor at all, and
whether the control message can be allocated and sent. -/
structure Pass where
  completed : ℕ
  dst : Option ℕ
  ctl : Bool
  sent : Bool
  deriving DecidableEq

def Pass.Refuses (p : Pass) : Prop := p.dst = none ∨ p.dst = some 0 ∨ p.ctl = false ∨ p.sent = false

inductive Rc
  | success
  | outOfResource
  deriving DecidableEq

def nextIdx (cnt idx : ℕ) : ℕ := if cnt ≤ idx + 1 then 0 else idx + 1

/-- The `do` loop over the BTLs. It goes round for ever when no BTL has bytes left. -/
def nextBtl (rdma : List (ComBtl W)) : ℕ → ℕ → Option (ComBtl W × ℕ)
  | 0, _ => none
  | n + 1, idx =>
    match rdma[idx]? with
    | none => none
    | some b => if b.length ≠ 0 then some (b, idx) else nextBtl rdma n (nextIdx rdma.length idx)

/-- The body of the loop on one BTL, with the bytes that it asks for. -/
def tryFragment (p : Pass) (b : ComBtl W) (idx : ℕ) (req : RecvReq W) : RecvReq W × ℕ :=
  let limit := b.bmlBtl.rdmaPipelineFragSize
  let size := if b.btlReg = .null ∧ limit ≠ 0 ∧ limit < b.length then limit else b.length
  match p.dst with
  | none => (req, 0)
  | some n =>
    let size := min n size
    if !p.ctl then (req, 0)
    else if !p.sent then ({ req with ackSent := true }, 0)
    else
      ({ req with
          ackSent := true
          rdmaOffset := addSize req.rdmaOffset size
          pipelineDepth := req.pipelineDepth + 1
          rdma := req.rdma.set idx { b with length := b.length - size } }, size)

/-- The loop of `mca_pml_ob1_recv_request_schedule_once`. -/
def scheduleLoop (params : Params) (conv : Convertor) (world : ℕ → Pass) :
    ℕ → ℕ → RecvReq W → ℕ → ℕ → ℕ → Option (RecvReq W × Rc)
  | 0, _, _, _, _, _ => none
  | fuel + 1, n, req, remaining, prev, fails =>
    let req := { req with pipelineDepth := req.pipelineDepth - (world n).completed }
    if remaining = 0 ∨ params.recvPipelineDepth ≤ req.pipelineDepth then some (req, .success)
    else if prev = remaining ∧ fails + 1 = req.rdma.length then
      some ({ req with pending := true }, .outOfResource)
    else
      let fails := if prev = remaining then fails + 1 else 0
      match nextBtl req.rdma req.rdma.length req.rdmaIdx with
      | none => none
      | some (b, idx) =>
        let req := { req with
          rdmaIdx := nextIdx req.rdma.length idx
          rdmaOffset := conv.setPosition req.rdmaOffset }
        let next := tryFragment (world n) b idx req
        scheduleLoop params conv world fuel (n + 1) next.1 (subSize remaining next.2)
          remaining fails

/-- The BTL that has just completed a put is served first. -/
def startOn (start : Option ℕ) (req : RecvReq W) : RecvReq W :=
  match start with
  | none => req
  | some name =>
    match req.rdma.findIdx? (fun b => b.bmlBtl.name = name) with
    | none => req
    | some i =>
      match req.rdma[i]? with
      | none => req
      | some b => if b.length ≠ 0 then { req with rdmaIdx := i } else req

/-- `mca_pml_ob1_recv_request_schedule_once`. -/
def scheduleOnce (params : Params) (conv : Convertor) (start : Option ℕ) (world : ℕ → Pass)
    (fuel : ℕ) (req : RecvReq W) : Option (RecvReq W × Rc) :=
  let req := startOn start req
  scheduleLoop params conv world fuel 0 req (subSize req.sendOffset req.rdmaOffset) 0 0

/-- The lengths of the BTLs add up to what is left of the interval, which lies in the
receive buffer. -/
structure Balanced (conv : Convertor) (req : RecvReq W) : Prop where
  sum : req.rdmaOffset + total req.rdma = req.sendOffset
  bound : req.sendOffset ≤ conv.localSize
  idx : 0 < req.rdma.length → req.rdmaIdx < req.rdma.length

theorem total_set {l : List (ComBtl W)} {b : ComBtl W} {i n : ℕ} (h : l[i]? = some b)
    (hn : n ≤ b.length) : total (l.set i { b with length := b.length - n }) + n = total l := by
  induction l generalizing i with
  | nil => simp at h
  | cons c l ih =>
    cases i with
    | zero =>
      obtain rfl : c = b := by simpa using h
      simp only [set_cons_zero, total_cons]
      omega
    | succ i =>
      have := ih (i := i) (by simpa using h)
      simp only [set_cons_succ, total_cons]
      omega

theorem total_eq_zero {l : List (ComBtl W)}
    (h : ∀ (i : ℕ) (b : ComBtl W), l[i]? = some b → b.length = 0) : total l = 0 := by
  induction l with
  | nil => rfl
  | cons c l ih =>
    rw [total_cons, h 0 c rfl, Nat.zero_add]
    exact ih fun i b hb => h (i + 1) b hb

theorem nextIdx_eq {cnt idx : ℕ} (h : idx < cnt) : nextIdx cnt idx = (idx + 1) % cnt := by
  unfold nextIdx
  split_ifs with hle
  · have : idx + 1 = cnt := by omega
    rw [this, mod_self]
  · rw [mod_eq_of_lt (by omega)]

theorem nextBtl_spec {rdma : List (ComBtl W)} {n idx : ℕ} {b : ComBtl W} {i : ℕ}
    (h : nextBtl rdma n idx = some (b, i)) : rdma[i]? = some b ∧ b.length ≠ 0 := by
  induction n generalizing idx with
  | zero => simp [nextBtl] at h
  | succ n ih =>
    simp only [nextBtl] at h
    split at h
    · cases h
    · next c hc =>
        split_ifs at h with hlen
        · cases h
          exact ⟨hc, hlen⟩
        · exact ih h

theorem length_eq_zero_of_nextBtl {rdma : List (ComBtl W)} {n idx : ℕ}
    (hidx : idx < rdma.length) (h : nextBtl rdma n idx = none) (k : ℕ) (hk : k < n) :
    ∀ b, rdma[(idx + k) % rdma.length]? = some b → b.length = 0 := by
  induction n generalizing idx k with
  | zero => omega
  | succ n ih =>
    intro b hb
    rw [nextBtl, getElem?_eq_getElem hidx] at h
    simp only [ne_eq, ite_not] at h
    split_ifs at h with hlen
    cases k with
    | zero =>
      rw [Nat.add_zero, mod_eq_of_lt hidx, getElem?_eq_getElem hidx] at hb
      cases hb
      exact hlen
    | succ k =>
      refine @ih (nextIdx rdma.length idx) ?_ h k (by omega) b ?_
      · rw [nextIdx_eq hidx]
        exact mod_lt _ (by omega)
      · rw [nextIdx_eq hidx, mod_add_mod]
        rwa [show idx + 1 + k = idx + (k + 1) by omega]

theorem exists_nextBtl {rdma : List (ComBtl W)} {idx : ℕ} (hidx : idx < rdma.length)
    (htotal : total rdma ≠ 0) : ∃ b i, nextBtl rdma rdma.length idx = some (b, i) := by
  cases h : nextBtl rdma rdma.length idx with
  | some r => exact ⟨r.1, r.2, rfl⟩
  | none =>
    refine absurd (total_eq_zero ?_) htotal
    intro i b hb
    have hi : i < rdma.length := (List.getElem?_eq_some_iff.mp hb).1
    -- the place `i` is reached after `i - idx` steps, modulo the number of BTLs
    refine length_eq_zero_of_nextBtl hidx h ((i + rdma.length - idx) % rdma.length)
      (mod_lt _ (by omega)) b ?_
    rw [add_mod_mod, show idx + (i + rdma.length - idx) = i + rdma.length by omega,
      add_mod_right, mod_eq_of_lt hi]
    exact hb

theorem tryFragment_spec {conv : Convertor} (hlocal : conv.localSize < sizeMod) (p : Pass)
    {b : ComBtl W} {i : ℕ} {req : RecvReq W} (hreq : Balanced conv req)
    (hb : req.rdma[i]? = some b) (hlen : b.length ≠ 0) :
    Balanced conv (tryFragment p b i req).1 ∧
      total (tryFragment p b i req).1.rdma + (tryFragment p b i req).2 = total req.rdma ∧
      (tryFragment p b i req).1.sendOffset = req.sendOffset ∧
      (tryFragment p b i req).1.rdma.length = req.rdma.length ∧
      ((tryFragment p b i req).2 = 0 → p.Refuses) := by
  unfold tryFragment
  cases hdst : p.dst with
  | none => exact ⟨hreq, rfl, rfl, rfl, fun _ => .inl hdst⟩
  | some n =>
    cases hctl : p.ctl with
    | false => exact ⟨hreq, rfl, rfl, rfl, fun _ => .inr (.inr (.inl hctl))⟩
    | true =>
      cases hsent : p.sent with
      | false =>
        exact ⟨⟨hreq.sum, hreq.bound, hreq.idx⟩, rfl, rfl, rfl, fun _ => .inr (.inr (.inr hsent))⟩
      | true =>
        simp only [Bool.not_true, Bool.false_eq_true, if_false, length_set]
        set limit := b.bmlBtl.rdmaPipelineFragSize
        set size := if b.btlReg = .null ∧ limit ≠ 0 ∧ limit < b.length then limit
          else b.length with hsize
        have hpos : 0 < size ∧ size ≤ b.length := by
          rw [hsize]
          split_ifs <;> omega
        have hset := total_set hb (n := min n size) (by omega)
        have hsum := hreq.sum
        have hbound := hreq.bound
        have hadd : addSize req.rdmaOffset (min n size) = req.rdmaOffset + min n size := by
          apply mod_eq_of_lt
          omega
        refine ⟨⟨?_, hbound, fun h => ?_⟩, hset, trivial, trivial, fun h => ?_⟩
        · simp only [hadd]
          omega
        · rw [length_set] at h ⊢
          exact hreq.idx h
        · have : n = 0 := by omega
          exact .inr (.inl (by rw [hdst, this]))

/-- The state of the loop: the bytes that remain are those of the BTLs, and a pass
without progress has been refused. -/
structure LoopInv (conv : Convertor) (world : ℕ → Pass) (req : RecvReq W)
    (remaining prev fails : ℕ) : Prop where
  balanced : Balanced conv req
  left : remaining = total req.rdma
  refused : 0 < remaining → prev = remaining → fails < req.rdma.length ∧ ∃ n, (world n).Refuses

/-- The number of passes that the loop can still make. -/
def passesLeft (cnt remaining prev fails : ℕ) : ℕ :=
  remaining * (cnt + 2) + if prev = remaining then cnt - fails else cnt + 1

theorem passesLeft_lt {cnt remaining prev fails size : ℕ}
    (hfails : prev = remaining → fails < cnt) (hsize : size ≤ remaining) :
    passesLeft cnt (remaining - size) remaining (if prev = remaining then fails + 1 else 0) <
      passesLeft cnt remaining prev fails := by
  unfold passesLeft
  cases size with
  | zero =>
    rw [Nat.sub_zero, if_pos rfl]
    split_ifs with hprev
    · have := hfails hprev
      omega
    · omega
  | succ size =>
    rw [if_neg (by omega)]
    have hmul : (remaining - (size + 1)) * (cnt + 2) + (cnt + 2) ≤ remaining * (cnt + 2) := by
      rw [← succ_mul]
      exact Nat.mul_le_mul_right _ (by omega)
    omega

section Loop

variable (params : Params) {conv : Convertor} (hconv : conv.needBuffers = false)
  (hlocal : conv.localSize < sizeMod) {world : ℕ → Pass}

include hconv hlocal

theorem LoopInv.pass {req : RecvReq W} {remaining prev fails n : ℕ}
    (h : LoopInv conv world req remaining prev fails) (hpos : 0 < remaining)
    (hstuck : ¬(prev = remaining ∧ fails + 1 = req.rdma.length)) :
    ∃ b idx, nextBtl req.rdma req.rdma.length req.rdmaIdx = some (b, idx) ∧ ∃ next size,
        tryFragment (world n) b idx { req with
          rdmaIdx := nextIdx req.rdma.length idx
          rdmaOffset := conv.setPosition req.rdmaOffset } = (next, size) ∧
        next.sendOffset = req.sendOffset ∧ next.rdma.length = req.rdma.length ∧
        subSize remaining size + size = remaining ∧
        LoopInv conv world next (subSize remaining size) remaining
          (if prev = remaining then fails + 1 else 0) := by
  have hsum := h.balanced.sum
  have hbound := h.balanced.bound
  have hrem := h.left
  have hlen : 0 < req.rdma.length := by
    rw [length_pos_iff]
    intro hnil
    rw [hnil, total_nil] at hrem
    omega
  obtain ⟨b, idx, hnext⟩ := exists_nextBtl (h.balanced.idx hlen) (by omega)
  obtain ⟨hb, hbpos⟩ := nextBtl_spec hnext
  refine ⟨b, idx, hnext, ?_⟩
  -- the convertor stands at the offset already, which is inside the buffer
  have hpos' : conv.setPosition req.rdmaOffset = req.rdmaOffset := by
    rw [setPosition_eq hconv]
    omega
  rw [hpos']
  have hidx : nextIdx req.rdma.length idx < req.rdma.length := by
    rw [nextIdx_eq (List.getElem?_eq_some_iff.mp hb).1]
    exact mod_lt _ hlen
  let req' : RecvReq W := { req with
    rdmaIdx := nextIdx req.rdma.length idx, rdmaOffset := req.rdmaOffset }
  have hreq' : Balanced conv req' := ⟨hsum, hbound, fun _ => hidx⟩
  have hspec := tryFragment_spec hlocal (world n) hreq' hb hbpos
  change ∃ next size, tryFragment (world n) b idx req' = (next, size) ∧ _
  generalize tryFragment (world n) b idx req' = r at hspec
  obtain ⟨next, size⟩ := r
  obtain ⟨hbal, htotal, hsend, hlength, hrefuse⟩ := hspec
  have htotal' : total next.rdma + size = remaining := htotal.trans hrem.symm
  have hsub : subSize remaining size = remaining - size := subSize_of_le (by omega) (by omega)
  refine ⟨next, size, rfl, hsend, hlength, ?_⟩
  rw [hsub]
  refine ⟨by omega, hbal, by omega, fun hlt heq => ?_⟩
  rw [hlength]
  refine ⟨?_, n, hrefuse (by simp only; omega)⟩
  split_ifs with hprev
  · have := (h.refused hpos hprev).1
    have hne : fails + 1 ≠ req.rdma.length := fun h' => hstuck ⟨hprev, h'⟩
    change fails + 1 < req.rdma.length
    omega
  · exact hlen

/-- What a call leaves behind when it returns. -/
structure Returned (params : Params) (conv : Convertor) (world : ℕ → Pass) (sendOffset : ℕ)
    (req : RecvReq W) (rc : Rc) : Prop where
  balanced : Balanced conv req
  same : req.sendOffset = sendOffset
  success : rc = .success →
    req.rdmaOffset = req.sendOffset ∨ params.recvPipelineDepth ≤ req.pipelineDepth
  outOfResource : rc = .outOfResource → ∃ n, (world n).Refuses

theorem LoopInv.step {req : RecvReq W} {remaining prev fails : ℕ}
    (h : LoopInv conv world req remaining prev fails) (fuel n : ℕ) :
    (∃ r rc, scheduleLoop params conv world (fuel + 1) n req remaining prev fails = some (r, rc) ∧
      Returned params conv world req.sendOffset r rc) ∨
    0 < remaining ∧ ∃ next size,
      scheduleLoop params conv world (fuel + 1) n req remaining prev fails =
        scheduleLoop params conv world fuel (n + 1) next (subSize remaining size) remaining
          (if prev = remaining then fails + 1 else 0) ∧
      next.sendOffset = req.sendOffset ∧ next.rdma.length = req.rdma.length ∧
      subSize remaining size + size = remaining ∧
      LoopInv conv world next (subSize remaining size) remaining
        (if prev = remaining then fails + 1 else 0) := by
  let req' : RecvReq W := { req with pipelineDepth := req.pipelineDepth - (world n).completed }
  have hbal : Balanced conv req' := ⟨h.balanced.sum, h.balanced.bound, h.balanced.idx⟩
  have hinv' : LoopInv conv world req' remaining prev fails := ⟨hbal, h.left, h.refused⟩
  have hleft := h.left
  by_cases hdone : remaining = 0 ∨ params.recvPipelineDepth ≤ req'.pipelineDepth
  · refine .inl ⟨req', .success, by simp only [scheduleLoop]; exact if_pos hdone,
      hbal, rfl, fun _ => ?_, fun hrc => by cases hrc⟩
    rcases hdone with hzero | hdepth
    · have hsum := hbal.sum
      change req'.rdmaOffset + total req.rdma = req'.sendOffset at hsum
      omega
    · exact .inr hdepth
  have hpos : 0 < remaining := by omega
  by_cases hstuck : prev = remaining ∧ fails + 1 = req'.rdma.length
  · refine .inl ⟨{ req' with pending := true }, .outOfResource, ?_,
      ⟨hbal.sum, hbal.bound, hbal.idx⟩, rfl, (fun hrc => by cases hrc),
      fun _ => (h.refused hpos hstuck.1).2⟩
    simp only [scheduleLoop]
    exact (if_neg hdone).trans (if_pos hstuck)
  · obtain ⟨b, idx, hnext, next, size, htry, hsend, hlength, hsub, hinv⟩ :=
      LoopInv.pass hconv hlocal (n := n) hinv' hpos hstuck
    refine .inr ⟨hpos, next, size, ?_, hsend, hlength, hsub, hinv⟩
    simp only [scheduleLoop]
    refine ((if_neg hdone).trans (if_neg hstuck)).trans ?_
    simp only [req'] at hnext htry
    simp only [hnext, htry]

theorem scheduleLoop_returned {fuel n : ℕ} {req r : RecvReq W} {remaining prev fails : ℕ} {rc : Rc}
    (h : LoopInv conv world req remaining prev fails)
    (hrun : scheduleLoop params conv world fuel n req remaining prev fails = some (r, rc)) :
    Returned params conv world req.sendOffset r rc := by
  induction fuel generalizing n req remaining prev fails with
  | zero => cases hrun
  | succ fuel ih =>
    obtain ⟨r', rc', hrun', hret⟩ | ⟨-, next, size, hrun', hsend, -, -, hinv⟩ :=
      h.step params hconv hlocal fuel n
    · cases hrun.symm.trans hrun'
      exact hret
    · have hret := ih hinv (hrun'.symm.trans hrun)
      rwa [hsend] at hret

theorem scheduleLoop_ends {req : RecvReq W} {remaining prev fails : ℕ} (n fuel : ℕ)
    (h : LoopInv conv world req remaining prev fails)
    (hfuel : passesLeft req.rdma.length remaining prev fails < fuel) :
    ∃ r rc, scheduleLoop params conv world fuel n req remaining prev fails = some (r, rc) := by
  induction fuel generalizing n req remaining prev fails with
  | zero => omega
  | succ fuel ih =>
    obtain ⟨r, rc, hrun, -⟩ | ⟨hpos, next, size, hrun, -, hlength, hsub, hinv⟩ :=
      h.step params hconv hlocal fuel n
    · exact ⟨r, rc, hrun⟩
    · rw [hrun]
      apply ih (n + 1) hinv
      have hlt := passesLeft_lt (fun hp => (h.refused hpos hp).1) (by omega : size ≤ remaining)
      rw [hlength, show subSize remaining size = remaining - size by omega]
      omega

end Loop

theorem startOn_spec (start : Option ℕ) {conv : Convertor} {req : RecvReq W}
    (h : Balanced conv req) :
    Balanced conv (startOn start req) ∧ (startOn start req).sendOffset = req.sendOffset ∧
      (startOn start req).rdmaOffset = req.rdmaOffset := by
  unfold startOn
  split
  · exact ⟨h, rfl, rfl⟩
  split
  · exact ⟨h, rfl, rfl⟩
  split
  · exact ⟨h, rfl, rfl⟩
  · next b hb =>
      split_ifs
      · have hlt := (List.getElem?_eq_some_iff.mp hb).1
        exact ⟨⟨h.sum, h.bound, fun _ => hlt⟩, rfl, rfl⟩
      · exact ⟨h, rfl, rfl⟩

theorem startOn_loopInv (start : Option ℕ) {conv : Convertor} (hlocal : conv.localSize < sizeMod)
    (world : ℕ → Pass) {req : RecvReq W} (h : Balanced conv req) :
    LoopInv conv world (startOn start req)
      (subSize (startOn start req).sendOffset (startOn start req).rdmaOffset) 0 0 := by
  obtain ⟨hbal, -, -⟩ := startOn_spec start h
  have hsum := hbal.sum
  have hbound := hbal.bound
  refine ⟨hbal, ?_, fun hpos hzero => by omega⟩
  rw [subSize_of_le (by omega) (by omega)]
  omega

/-- One call of `mca_pml_ob1_recv_request_schedule_once`, whatever happens during it. -/
def Call (params : Params) (conv : Convertor) (req req' : RecvReq W) : Prop :=
  ∃ start world fuel rc, scheduleOnce params conv start world fuel req = some (req', rc)

/-- After any calls before it, a call returns; it has come to the end of the interval
unless the pipeline is full or it was refused something. -/
def SchedulesAll (params : Params) (conv : Convertor) (req : RecvReq W) : Prop :=
  ∀ req', Relation.ReflTransGen (Call params conv) req req' → ∀ start world,
    ∃ fuel r rc, scheduleOnce params conv start world fuel req' = some (r, rc) ∧
      r.sendOffset = req.sendOffset ∧
      (rc = .success → r.rdmaOffset = req.sendOffset ∨ params.recvPipelineDepth ≤ r.pipelineDepth) ∧
      (rc = .outOfResource → ∃ n, (world n).Refuses)

section

variable {params : Params} {conv : Convertor} (hconv : conv.needBuffers = false)
  (hlocal : conv.localSize < sizeMod)
include hconv hlocal

theorem Balanced.call {req req' : RecvReq W} (h : Balanced conv req)
    (hcall : Call params conv req req') :
    Balanced conv req' ∧ req'.sendOffset = req.sendOffset := by
  obtain ⟨start, world, fuel, rc, hrun⟩ := hcall
  have hret := scheduleLoop_returned params hconv hlocal
    (startOn_loopInv start hlocal world h) hrun
  exact ⟨hret.balanced, hret.same.trans (startOn_spec start h).2.1⟩

theorem Balanced.calls {req req' : RecvReq W} (h : Balanced conv req)
    (hcalls : Relation.ReflTransGen (Call params conv) req req') :
    Balanced conv req' ∧ req'.sendOffset = req.sendOffset := by
  induction hcalls with
  | refl => exact ⟨h, rfl⟩
  | tail _ hcall ih =>
    obtain ⟨hbal, hsame⟩ := ih.1.call hconv hlocal hcall
    exact ⟨hbal, hsame.trans ih.2⟩

theorem Balanced.schedulesAll {req : RecvReq W}
    (h : Balanced conv req) : SchedulesAll params conv req := by
  intro req' hcalls start world
  obtain ⟨hbal, hsame⟩ := h.calls hconv hlocal hcalls
  have hinv := startOn_loopInv start hlocal world hbal
  let passes := passesLeft (startOn start req').rdma.length
    (subSize (startOn start req').sendOffset (startOn start req').rdmaOffset) 0 0
  obtain ⟨r, rc, hrun⟩ := scheduleLoop_ends params hconv hlocal 0 (passes + 1) hinv (lt_succ_self _)
  have hret := scheduleLoop_returned params hconv hlocal hinv hrun
  have hoffset : r.sendOffset = req.sendOffset :=
    hret.same.trans ((startOn_spec start hbal).2.1.trans hsame)
  exact ⟨passes + 1, r, rc, hrun, hoffset, hoffset ▸ hret.success, hret.outOfResource⟩

end

end Schedule

section Division

/-- The bytes that the first message carries, the RDMA interval and the range that the
sender copies are the message, and no byte is in two of them. -/
structure Covers (msgLength eager : ℕ) (req : RecvReq W) (ack : Option AckHdr) : Prop where
  union : Set.Ico 0 eager ∪ Set.Ico req.rdmaOffset req.sendOffset ∪ copyRange msgLength ack =
    Set.Ico 0 msgLength
  eager_rdma : Disjoint (Set.Ico 0 eager) (Set.Ico req.rdmaOffset req.sendOffset)
  eager_copy : Disjoint (Set.Ico 0 eager) (copyRange msgLength ack)
  rdma_copy : Disjoint (Set.Ico req.rdmaOffset req.sendOffset) (copyRange msgLength ack)

/-- The message is divided as it should be: the parts cover it, the lengths given to the
BTLs are those of the RDMA interval, and the scheduler comes to its end. -/
structure Divides (params : Params) (conv : Convertor) (first : First) (req : RecvReq W)
    (ack : Option AckHdr) : Prop where
  covers : Covers first.hdr.msgLength first.data req ack
  lengths : total req.rdma = req.sendOffset - req.rdmaOffset
  scheduled : req.rdmaOffset < req.sendOffset → SchedulesAll params conv req

theorem copyRange_some {msgLength : ℕ} {ack : AckHdr} (hmsg : msgLength < sizeMod)
    (h : ack.sendOffset ≤ msgLength) :
    copyRange msgLength (some ack) = Set.Ico ack.sendOffset msgLength := by
  simp only [copyRange]
  rw [subSize_of_le hmsg h]
  split_ifs with hzero
  · rw [Set.Ico_eq_empty (by omega)]
  · rw [Nat.add_sub_cancel' h]

theorem covers_of_le {msgLength eager : ℕ} {req : RecvReq W} {ack : Option AckHdr}
    (heager : eager ≤ req.sendOffset) (hsend : req.sendOffset ≤ msgLength)
    (hrdma : Set.Ico req.rdmaOffset req.sendOffset = Set.Ico eager req.sendOffset)
    (hcopy : copyRange msgLength ack = Set.Ico req.sendOffset msgLength) :
    Covers msgLength eager req ack := by
  refine ⟨?_, ?_, ?_, ?_⟩
  · rw [hrdma, hcopy, Set.Ico_union_Ico_eq_Ico (Nat.zero_le _) heager,
      Set.Ico_union_Ico_eq_Ico (Nat.zero_le _) hsend]
  · rw [hrdma]
    exact Set.Ico_disjoint_Ico_same
  · rw [hcopy, Set.disjoint_left]
    rintro k ⟨-, hk⟩ ⟨hk', -⟩
    omega
  · rw [hrdma, hcopy]
    exact Set.Ico_disjoint_Ico_same

/-- The pipeline protocol is chosen: there is something left to send, both buffers are
contiguous, RDMA BTLs exist but the buffers are not registered on both sides, and the
message is longer than the limit for sends. -/
def Pipelined (ω : Weighing W) (params : Params) (ep : Endpoint W) (registered : Btl W → Bool)
    (conv : Convertor) (first : First) : Prop :=
  (first.data < first.hdr.msgLength ∧ conv.needBuffers = false ∧ first.hdr.contig ∧
    ep.btlRdma ≠ []) ∧
  (first.hdr.pin = true → rdmaBtls ω params ep registered first.hdr.msgLength = []) ∧
  ep.btlSendLimit < first.hdr.msgLength

/-- The subtraction of `btl_pipeline_send_length` does not wrap around, or the convertor
brings the offset back to the end of the message; and an interval that is not empty has
a BTL. -/
def PipelineFits (params : Params) (ep : Endpoint W) (conv : Convertor) (first : First) : Prop :=
  ep.btlPipelineSendLength ≤ first.hdr.msgLength ∧ (0 < params.maxRdmaPerRequest ∨
        first.hdr.msgLength ≤ ep.btlPipelineSendLength + first.data) ∨
    conv.localSize = first.hdr.msgLength ∧ 0 < params.maxRdmaPerRequest

section Offset

variable {ep : Endpoint W} {conv : Convertor} {hdr : RndvHdr} {bytesReceived : ℕ}
  (hconv : conv.needBuffers = false) (hlocal : conv.localSize < sizeMod)
  (hbuf : hdr.msgLength ≤ conv.localSize) (hdata : bytesReceived ≤ hdr.msgLength)

include hconv hlocal hbuf hdata

theorem pipelineOffset_of_le (hpipe : ep.btlPipelineSendLength ≤ hdr.msgLength) :
    pipelineOffset ep conv hdr bytesReceived =
      max (hdr.msgLength - ep.btlPipelineSendLength) bytesReceived := by
  unfold pipelineOffset
  simp only
  rw [setPosition_eq hconv, subSize_of_le (by omega) hpipe]
  split_ifs <;> omega

omit hlocal in
theorem le_pipelineOffset_of_lt (hmod : ep.btlPipelineSendLength < sizeMod)
    (hpipe : hdr.msgLength < ep.btlPipelineSendLength) :
    hdr.msgLength ≤ pipelineOffset ep conv hdr bytesReceived ∧
      (pipelineOffset ep conv hdr bytesReceived = hdr.msgLength ↔
        conv.localSize = hdr.msgLength) := by
  unfold pipelineOffset
  simp only
  rw [setPosition_eq hconv, subSize_of_lt hmod hpipe]
  split_ifs <;> omega

end Offset

section Protocols

variable {ω : Weighing W} {params : Params} {ep : Endpoint W} {registered : Btl W → Bool}
  {conv : Convertor} {first : First} {req : RecvReq W}

theorem chooseProtocol_cases (ω : Weighing W) (params : Params) (ep : Endpoint W)
    (registered : Btl W → Bool) (conv : Convertor) (hrdma : req.rdma = [])
    (hpacked : req.bytesPacked = first.hdr.msgLength) :
    (¬Pipelined ω params ep registered conv first ∧
      chooseProtocol ω params ep registered conv req first.hdr first.data =
        { req with sendOffset := first.data }) ∨
    (¬Pipelined ω params ep registered conv first ∧ conv.needBuffers = false ∧
      first.hdr.pin = true ∧ ∃ btls, total btls = first.hdr.msgLength ∧
        chooseProtocol ω params ep registered conv req first.hdr first.data =
          { req with sendOffset := first.hdr.msgLength, rdma := btls }) ∨
    (Pipelined ω params ep registered conv first ∧
      chooseProtocol ω params ep registered conv req first.hdr first.data = { req with
          sendOffset := pipelineOffset ep conv first.hdr first.data
          rdma := rdmaPipelineBtls ω params ep
            (subSize (pipelineOffset ep conv first.hdr first.data) first.data) }) := by
  unfold chooseProtocol
  simp only [hpacked]
  by_cases hout : first.data < first.hdr.msgLength ∧ conv.needBuffers = false ∧
      first.hdr.contig ∧ ep.btlRdma ≠ []
  · rw [if_pos hout]
    by_cases hpin : (if first.hdr.pin = true then
        rdmaBtls ω params ep registered first.hdr.msgLength else []) ≠ []
    · rw [if_pos hpin]
      split_ifs at hpin ⊢ with hflag
      · exact .inr (.inl ⟨fun h => hpin (h.2.1 hflag), hout.2.1, hflag, _,
          total_rdmaBtls hpin, rfl⟩)
      · exact absurd rfl hpin
    · rw [if_neg hpin]
      have hnil : first.hdr.pin = true →
          rdmaBtls ω params ep registered first.hdr.msgLength = [] := by
        intro hflag
        rw [if_pos hflag] at hpin
        exact not_not.mp hpin
      by_cases hlimit : ep.btlSendLimit < first.hdr.msgLength
      · rw [if_pos hlimit]
        exact .inr (.inr ⟨⟨hout, hnil, hlimit⟩, rfl⟩)
      · rw [if_neg hlimit]
        refine .inl ⟨fun h => hlimit h.2.2, ?_⟩
        rw [not_not.mp hpin, ← hrdma]
  · rw [if_neg hout]
    exact .inl ⟨fun h => hout h.1, rfl⟩

theorem divides_copy {ack : AckHdr} (hmsg : first.hdr.msgLength < sizeMod)
    (hdata : first.data ≤ first.hdr.msgLength)
    (hoffset : req.rdmaOffset = first.data ∨ first.data = 0) (hrdma : req.rdma = [])
    (hsend : req.sendOffset = first.data) (hack : ack.sendOffset = first.data) :
    Divides params conv first req (some ack) := by
  have hle : req.sendOffset ≤ req.rdmaOffset := by omega
  refine ⟨covers_of_le hsend.ge (by omega) ?_ ?_, ?_, fun hlt => by omega⟩
  · rw [Set.Ico_eq_empty (by omega), Set.Ico_eq_empty (by omega)]
  · rw [copyRange_some hmsg (by omega), hack, hsend]
  · rw [hrdma, total_nil]
    omega

/-- Where the sender's part begins at the end of the RDMA interval, the division is right
as soon as the interval lies in the message and the lengths add up. -/
theorem divides_rdma {ack : Option AckHdr} (hconv : conv.needBuffers = false)
    (hlocal : conv.localSize < sizeMod) (hbuf : first.hdr.msgLength ≤ conv.localSize)
    (hoffset : req.rdmaOffset = first.data) (hdata : first.data ≤ req.sendOffset)
    (hsend : req.sendOffset ≤ first.hdr.msgLength)
    (htotal : total req.rdma = req.sendOffset - first.data) (hidx : req.rdmaIdx = 0)
    (hack : ack = none ∧ req.sendOffset = first.hdr.msgLength ∨
      ∃ a : AckHdr, ack = some a ∧ a.sendOffset = req.sendOffset) :
    Divides params conv first req ack := by
  refine ⟨covers_of_le hdata hsend (by rw [hoffset]) ?_, by rw [htotal, hoffset], fun _ => ?_⟩
  · obtain ⟨rfl, heq⟩ | ⟨a, rfl, heq⟩ := hack
    · rw [Set.Ico_eq_empty (by omega)]
      rfl
    · rw [copyRange_some (by omega) (by omega), heq]
  · apply Balanced.schedulesAll hconv hlocal
    refine ⟨?_, hsend.trans hbuf, fun hlen => hidx ▸ hlen⟩
    rw [hoffset, htotal, Nat.add_sub_cancel' hdata]

theorem recvRequestAck_cases {ω : Weighing W} {req r : RecvReq W} {ack : Option AckHdr}
    {hdr : RndvHdr} {bytesReceived : ℕ}
    (h : recvRequestAck ω params ep registered conv req hdr bytesReceived = (r, ack)) :
    ∃ c, c = chooseProtocol ω params ep registered conv req hdr bytesReceived ∧
      r.rdmaOffset = c.rdmaOffset ∧ r.sendOffset = c.sendOffset ∧ r.rdma = c.rdma ∧
      r.rdmaIdx = c.rdmaIdx ∧
      (ack = none ∧ bytesReceived < hdr.msgLength ∧ c.sendOffset = hdr.msgLength ∨
        ∃ a : AckHdr, ack = some a ∧ a.sendOffset = c.sendOffset) := by
  refine ⟨_, rfl, ?_⟩
  simp only [recvRequestAck] at h
  split_ifs at h with hend
  · cases h
    exact ⟨rfl, rfl, rfl, rfl, .inl ⟨rfl, hend⟩⟩
  · cases h
    exact ⟨rfl, rfl, rfl, rfl, .inr ⟨_, rfl, rfl⟩⟩

/-- The receiver answers with the number of bytes that the first message carried. The
offset of an earlier use is left only where nothing can be written by RDMA. -/
theorem progress_eq {s : Sender} (hstart : s.startBtl = some first) {a b : ℕ}
    {r : RecvReq W × Option AckHdr}
    (h : progress ω params ep registered conv (recvReqStart a b) first = some r) :
    ∃ req : RecvReq W, recvRequestAck ω params ep registered conv req first.hdr first.data = r ∧
      req.rdma = [] ∧ req.rdmaIdx = 0 ∧ req.bytesPacked = first.hdr.msgLength ∧
      (req.rdmaOffset = first.data ∨ first.data = 0) ∧
      (conv.needBuffers = false → req.rdmaOffset = first.data) := by
  simp only [progress] at h
  split_ifs at h with hrget hneed
  · have hdata : first.data = 0 := by
      unfold Sender.startBtl at hstart
      simp only at hstart
      split_ifs at hstart <;> cases hstart <;> first | rfl | cases hrget
    cases h
    refine ⟨_, by rw [hdata], rfl, rfl, rfl, .inr hdata, fun hconv => ?_⟩
    rw [hconv] at hneed
    cases hneed
  · cases h
    exact ⟨_, rfl, rfl, rfl, rfl, .inl rfl, fun _ => rfl⟩

end Protocols

theorem divides_pipelined_iff {ω : Weighing W} {params : Params} {ep : Endpoint W}
    {conv : Convertor} {first : First} {req : RecvReq W} {ack : Option AckHdr}
    (hconv : conv.needBuffers = false) (hlocal : conv.localSize < sizeMod)
    (hbuf : first.hdr.msgLength ≤ conv.localSize) (hmod : ep.btlPipelineSendLength < sizeMod)
    (hbtls : ep.btlRdma ≠ []) (hlt : first.data < first.hdr.msgLength)
    (hoffset : req.rdmaOffset = first.data)
    (hsend : req.sendOffset = pipelineOffset ep conv first.hdr first.data)
    (hlist : req.rdma = rdmaPipelineBtls ω params ep (subSize req.sendOffset first.data))
    (hidx : req.rdmaIdx = 0)
    (hack : ack = none ∧ req.sendOffset = first.hdr.msgLength ∨
      ∃ a : AckHdr, ack = some a ∧ a.sendOffset = req.sendOffset) :
    Divides params conv first req ack ↔ PipelineFits params ep conv first := by
  have hle (h : ep.btlPipelineSendLength ≤ first.hdr.msgLength) : req.sendOffset =
      max (first.hdr.msgLength - ep.btlPipelineSendLength) first.data :=
    hsend.trans (pipelineOffset_of_le hconv hlocal hbuf hlt.le h)
  have hwrap (h : first.hdr.msgLength < ep.btlPipelineSendLength) :
      first.hdr.msgLength ≤ req.sendOffset ∧
        (req.sendOffset = first.hdr.msgLength ↔ conv.localSize = first.hdr.msgLength) := by
    rw [hsend]
    exact le_pipelineOffset_of_lt hconv hbuf hlt.le hmod h
  constructor
  · intro h
    have hlengths := h.lengths
    have hmax : 0 < params.maxRdmaPerRequest ∨ req.sendOffset ≤ first.data := by
      rcases Nat.eq_zero_or_pos params.maxRdmaPerRequest with hzero | hpos
      · rw [hlist, rdmaPipelineBtls_eq_nil ω ep _ hzero, total_nil] at hlengths
        omega
      · exact .inl hpos
    by_cases hpipe : ep.btlPipelineSendLength ≤ first.hdr.msgLength
    · have := hle hpipe
      exact .inl ⟨hpipe, by omega⟩
    · obtain ⟨hge, hiff⟩ := hwrap (by omega)
      -- a larger offset would have the byte after the last one written
      have heq : req.sendOffset = first.hdr.msgLength := by
        by_contra hne
        have hmem : first.hdr.msgLength ∈ Set.Ico 0 first.hdr.msgLength := by
          rw [← h.covers.union]
          exact .inl (.inr ⟨by omega, by omega⟩)
        exact absurd hmem.2 (lt_irrefl _)
      exact .inr ⟨hiff.mp heq, by omega⟩
  · intro h
    have hin : first.data ≤ req.sendOffset ∧ req.sendOffset ≤ first.hdr.msgLength ∧
        (0 < params.maxRdmaPerRequest ∨ req.sendOffset = first.data) := by
      by_cases hpipe : ep.btlPipelineSendLength ≤ first.hdr.msgLength
      · have := hle hpipe
        rcases h with ⟨-, h⟩ | ⟨-, h⟩ <;> omega
      · obtain ⟨hge, hiff⟩ := hwrap (by omega)
        rcases h with ⟨h, -⟩ | ⟨h, hpos⟩
        · exact absurd h hpipe
        · exact ⟨by omega, (hiff.mpr h).le, .inl hpos⟩
    obtain ⟨hdata, hmsg, hmax⟩ := hin
    have hsub : subSize req.sendOffset first.data = req.sendOffset - first.data :=
      subSize_of_le (by omega) hdata
    refine divides_rdma hconv hlocal hbuf hoffset hdata hmsg ?_ hidx hack
    rw [hlist, hsub]
    rcases Nat.eq_zero_or_pos params.maxRdmaPerRequest with hzero | hpos
    · rw [rdmaPipelineBtls_eq_nil ω ep _ hzero, total_nil]
      omega
    · exact total_rdmaPipelineBtls ω _ hpos hbtls

/-- For every message and every receiver with room for it, the message is divided as it
should be if and only if the pipeline protocol, where it is chosen, gets an offset
inside the message. -/
theorem rendezvous_divides_iff (ω : Weighing W) (params : Params) (ep : Endpoint W)
    (registered : Btl W → Bool) (conv : Convertor) {s : Sender} {first : First}
    (hstart : s.startBtl = some first) (rdmaOffset sendOffset : ℕ) {req : RecvReq W}
    {ack : Option AckHdr}
    (hack : progress ω params ep registered conv (recvReqStart rdmaOffset sendOffset) first =
      some (req, ack))
    (hbuf : s.bytesPacked ≤ conv.localSize) (hlocal : conv.localSize < sizeMod)
    (hmod : ep.btlPipelineSendLength < sizeMod) :
    Divides params conv first req ack ↔
      (Pipelined ω params ep registered conv first → PipelineFits params ep conv first) := by
  obtain ⟨hmsg, hdata, hpin⟩ := Sender.startBtl_spec hstart
  rw [← hmsg] at hbuf hdata
  obtain ⟨start, hrun, hrdma, hidx, hpacked, hstale, hset⟩ := progress_eq hstart hack
  obtain ⟨c, hc, hoffset, hsend, hlist, hidx', hacked⟩ := recvRequestAck_cases hrun
  obtain ⟨hnot, heq⟩ | ⟨hnot, hconv, hflag, btls, htotal, heq⟩ | ⟨hyes, heq⟩ :=
    chooseProtocol_cases ω params ep registered conv hrdma hpacked
  · -- everything that is left is copied
    rw [heq] at hc
    subst hc
    refine ⟨fun _ h => absurd h hnot, fun _ => ?_⟩
    obtain ⟨-, hlt, hend⟩ | ⟨a, rfl, ha⟩ := hacked
    · exact absurd hend hlt.ne
    · exact divides_copy (by omega) hdata (by rw [hoffset]; exact hstale) (hlist.trans hrdma)
        hsend ha
  · -- both buffers are registered, and the first message was empty
    rw [heq] at hc
    subst hc
    have hzero := hpin hflag
    have hsend' : req.sendOffset = first.hdr.msgLength := hsend
    refine ⟨fun _ h => absurd h hnot, fun _ => ?_⟩
    refine divides_rdma hconv hlocal hbuf (hoffset.trans (hset hconv)) (by omega) hsend'.le ?_
      (hidx'.trans hidx) ?_
    · rw [hlist, htotal, hsend', hzero, Nat.sub_zero]
    · rw [hsend]
      exact hacked.imp_left fun h => ⟨h.1, h.2.2⟩
  · obtain ⟨⟨hlt, hconv, -, hbtls⟩, -, -⟩ := id hyes
    rw [heq] at hc
    subst hc
    rw [divides_pipelined_iff hconv hlocal hbuf hmod hbtls hlt (hoffset.trans (hset hconv)) hsend
      (by rw [hsend]; exact hlist) (hidx'.trans hidx)
      (by rw [hsend]; exact hacked.imp_left fun h => ⟨h.1, h.2.2⟩)]
    exact ⟨fun h _ => h, fun h => h hyes⟩

def percent : Weighing ℕ where
  zero := 0
  half := 50
  add := (· + ·)
  lt := fun a b => a < b
  share := fun size w t => size * w / t

def bytes (n : ℕ) : Convertor where
  localSize := n
  count := n
  bConverted := 0
  homogeneous := true
  noGaps := true
  contiguous := true
  genericSimplePosition := id

/-- A standard send of a contiguous buffer that no BTL has registered. -/
def unregistered (n : ℕ) : Sender where
  bytesPacked := n
  sendMode := .standard
  needBuffers := false
  eagerLimit := 12224
  rndvEagerLimit := 12288
  rdmaCnt := 0
  canGet := false
  packable := n

def defaults : Params where
  leavePinned := false
  maxRdmaPerRequest := 4
  recvPipelineDepth := 4

/-- Two BTLs, of which the second has the greater weight. -/
def twoBtls : Endpoint ℕ where
  btlRdma := [⟨0, 25, 12288, 1048576, true⟩, ⟨1, 75, 12288, 1048576, true⟩]
  rdmaIndex := 0
  arrIndex := 0
  btlSendLimit := 1060864
  btlPipelineSendLength := 1048576

/-- Four megabytes through two BTLs: one megabyte is left for the sender to copy. -/
theorem rendezvous_divides_two_btls :
    ∃ first req ack, (unregistered 4194304).startBtl = some first ∧
      progress percent defaults twoBtls (fun _ => false) (bytes 8388608) (recvReqStart 7 5) first =
        some (req, ack) ∧
      first.data = 12224 ∧ req.sendOffset = 3145728 ∧ ack = some ⟨3145728, false⟩ ∧
      Divides defaults (bytes 8388608) first req ack := by
  refine ⟨_, _, _, rfl, rfl, rfl, by decide +kernel, by decide +kernel, ?_⟩
  refine (rendezvous_divides_iff percent defaults twoBtls (fun _ => false) (bytes 8388608)
    (s := unregistered 4194304) rfl 7 5 rfl (by decide) (by decide) (by decide)).mpr fun _ => ?_
  exact .inl ⟨by decide, .inl (by decide)⟩

/-- A BTL that can only get: its limits are the defaults of openib, which are not adjusted
to each other for it. -/
def getOnly : Endpoint ℕ where
  btlRdma := [⟨0, 100, 12288, 1048576, true⟩]
  rdmaIndex := 0
  arrIndex := 0
  btlSendLimit := 262144
  btlPipelineSendLength := 1048576

/-- Half a megabyte for a buffer of one megabyte: the whole buffer is to be written. -/
theorem rdma_past_the_message : ∃ first req ack, (unregistered 524288).startBtl = some first ∧
      progress percent defaults getOnly (fun _ => false) (bytes 1048576) (recvReqStart 0 0) first =
        some (req, ack) ∧
      req.rdmaOffset = 12224 ∧ req.sendOffset = 1048576 ∧ ack = some ⟨1048576, false⟩ ∧
      ¬Divides defaults (bytes 1048576) first req ack := by
  refine ⟨_, _, _, rfl, rfl, rfl, rfl, rfl, fun h => ?_⟩
  have h' : PipelineFits defaults getOnly (bytes 1048576) _ :=
    (divides_pipelined_iff (ω := percent) rfl (by decide) (by decide) (by decide)
      (cons_ne_nil _ _) (by decide) rfl rfl rfl rfl (.inr ⟨_, rfl, rfl⟩)).mp h
  rcases h' with ⟨h', -⟩ | ⟨h', -⟩
  · exact absurd h' (by decide)
  · exact absurd h' (by decide)

end Division

end Ulfm.Rndv
