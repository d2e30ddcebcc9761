import Ulfm.Foundation.Buffer
import Ulfm.Foundation.Script

/-!
# Reductions around a ring

The processes of a ring send blocks to their right and receive them from their left. In the
computation loop a block goes around, and each process combines it with its own data. In the
distribution loop the finished blocks go around.

A message is received where the code waits for it. The receive of the next block is posted before
that of the previous one is waited for; the receives posted to one source complete in the order
of posting, and the code waits for them in that order.
-/

namespace Ulfm

open List Option Script TimedEvent Function Nat

variable {E : Type}

def sendToRight (rank size : ℕ) : ℕ := (rank + 1) % size

def recvFromLeft (rank size : ℕ) : ℕ := (rank + size - 1) % size

/-- What a process knows in the computation loop. -/
structure RingArgs (E : Type) where
  op : E → E → E
  rank : ℕ
  size : ℕ
  /-- Where the blocks begin. -/
  offset : ℕ → ℕ
  /-- The elements of the blocks. -/
  count : ℕ → ℕ
  /-- The elements for which a receive is posted. -/
  maxCount : ℕ
  /-- The block that is sent first. -/
  first : ℕ
  /-- The blocks of the steps. -/
  prevblock : ℕ → ℕ
  /-- The block that is received last. -/
  last : ℕ

/-- The variables of the computation loop. -/
structure RingState (E : Type) where
  buf : Buf E
  inbuf : Bool → Buf E
  inbi : Bool

namespace RingArgs

variable (a : RingArgs E)

/-- `send` of a block. -/
def sendBlock (b : ℕ) (st : RingState E) : Script (List E) Unit :=
  sendTo (sendToRight a.rank a.size) (slice st.buf (a.offset b) (a.count b))

/-- `irecv` from the left into one of the input buffers. -/
def postBlock : Script (List E) Unit := postFor (recvFromLeft a.rank a.size)

/-- `ompi_request_wait` for a receive into one of the input buffers. -/
def waitBlock (i : Bool) (st : RingState E) : Script (List E) (RingState E) := do
  let msg ← waitFor (recvFromLeft a.rank a.size)
  if a.maxCount < msg.length then error
  else pure { st with inbuf := update st.inbuf i (blit (st.inbuf i) 0 msg) }

/-- `ompi_op_reduce` on a block. -/
def reduceBlock (i : Bool) (b : ℕ) (st : RingState E) : RingState E :=
  { st with buf := opReduce a.op (slice (st.inbuf i) 0 (a.count b)) st.buf (a.offset b) }

def ringStep (st : RingState E) (k : ℕ) : Script (List E) (RingState E) := do
  let inbi := !st.inbi
  a.postBlock
  let st ← a.waitBlock (!inbi) st
  let st := a.reduceBlock (!inbi) (a.prevblock k) st
  a.sendBlock (a.prevblock k) st
  pure { st with inbi := inbi }

def ringCompute (st : RingState E) : Script (List E) (RingState E) := do
  let st := { st with inbi := false }
  a.postBlock
  a.sendBlock a.first st
  let st ← (range' 2 (a.size - 2)).foldlM a.ringStep st
  let st ← a.waitBlock st.inbi st
  pure (a.reduceBlock st.inbi a.last st)

end RingArgs

/-- The distribution loop: in the step `k` a process receives the block `rank - k` and sends the
one behind it. -/
def ringDistributeStep (rank size : ℕ) (offset count : ℕ → ℕ) (maxCount : ℕ) (buf : Buf E) (k : ℕ) :
    Script (List E) (Buf E) := do
  let recvDataFrom := (rank + size - k) % size
  let sendDataFrom := (rank + 1 + size - k) % size
  postFor (recvFromLeft rank size)
  sendTo (sendToRight rank size) (slice buf (offset sendDataFrom) (count sendDataFrom))
  let msg ← waitFor (recvFromLeft rank size)
  if maxCount < msg.length then error else pure (blit buf (offset recvDataFrom) msg)

def ringDistribute (rank size : ℕ) (offset count : ℕ → ℕ) (maxCount : ℕ) (buf : Buf E) :
    Script (List E) (Buf E) :=
  (range' 0 (size - 1)).foldlM (ringDistributeStep rank size offset count maxCount) buf

section Neighbours

variable {n p q k : ℕ}

theorem sendToRight_lt (hn : 0 < n) : sendToRight p n < n := mod_lt _ hn

theorem recvFromLeft_lt (hn : 0 < n) : recvFromLeft p n < n := mod_lt _ hn

theorem sendToRight_eq_iff (hp : p < n) (hq : q < n) :
    sendToRight p n = q ↔ recvFromLeft q n = p := by
  rw [sendToRight, recvFromLeft]
  rcases Nat.lt_or_ge (p + 1) n with h₁ | h₁
  · rw [mod_eq_of_lt h₁]
    rcases Nat.eq_zero_or_pos q with rfl | h₂
    · rw [Nat.zero_add, mod_eq_of_lt (by omega)]
      omega
    · rw [show q + n - 1 = q - 1 + n by omega, add_mod_right, mod_eq_of_lt (by omega)]
      omega
  · rw [show p + 1 = n by omega, mod_self]
    rcases Nat.eq_zero_or_pos q with rfl | h₂
    · rw [Nat.zero_add, mod_eq_of_lt (by omega)]
      omega
    · rw [show q + n - 1 = q - 1 + n by omega, add_mod_right, mod_eq_of_lt (by omega)]
      omega

/-- The process `k` steps to the left. -/
def leftOf (p n k : ℕ) : ℕ := (p + n - k) % n

theorem leftOf_lt (hn : 0 < n) : leftOf p n k < n := mod_lt _ hn

theorem leftOf_zero (hp : p < n) : leftOf p n 0 = p := by
  rw [leftOf, Nat.sub_zero, add_mod_right, mod_eq_of_lt hp]

theorem leftOf_eq (hp : p < n) (hk : k ≤ n) :
    leftOf p n k = if k ≤ p then p - k else p + n - k := by
  rw [leftOf]
  split_ifs with hle
  · rw [show p + n - k = p - k + n by omega, add_mod_right, mod_eq_of_lt (by omega)]
  · rw [mod_eq_of_lt (by omega)]

theorem recvFromLeft_eq : recvFromLeft p n = leftOf p n 1 := rfl

theorem leftOf_recvFromLeft (hp : p < n) (hk : k < n) :
    leftOf (recvFromLeft p n) n k = leftOf p n (k + 1) := by
  have hn : 0 < n := by omega
  rw [leftOf_eq (recvFromLeft_lt hn) hk.le, recvFromLeft_eq, leftOf_eq hp hk,
    leftOf_eq hp (by omega)]
  split_ifs <;> omega

theorem leftOf_injOn (hp : p < n) {k' : ℕ} (hk : k < n) (hk' : k' < n)
    (h : leftOf p n k = leftOf p n k') : k = k' := by
  rw [leftOf_eq hp hk.le, leftOf_eq hp hk'.le] at h
  split_ifs at h <;> omega

theorem leftOf_add (hp : p < n) (hk : k ≤ n) : (leftOf p n k + k) % n = p := by
  rw [leftOf_eq hp hk]
  split_ifs
  · rw [Nat.sub_add_cancel (by omega), mod_eq_of_lt hp]
  · rw [Nat.sub_add_cancel (by omega), add_mod_right, mod_eq_of_lt hp]

theorem leftOf_leftOf {i j : ℕ} (hp : p < n) (hij : i + j < n) :
    leftOf (leftOf p n i) n j = leftOf p n (i + j) := by
  rw [leftOf_eq (leftOf_lt (by omega)) (by omega), leftOf_eq hp (by omega), leftOf_eq hp hij.le]
  split_ifs <;> omega

theorem exists_leftOf (hp : p < n) (hq : q < n) : ∃ j < n, leftOf p n j = q := by
  refine ⟨leftOf p n q, leftOf_lt (by omega), ?_⟩
  rw [leftOf_eq hp (leftOf_lt (by omega)).le, leftOf_eq hp hq.le]
  split_ifs <;> omega

theorem add_mod_eq_iff {d : ℕ} (hp : p < n) (hq : q < n) (hd : d < n) :
    (p + d) % n = q ↔ leftOf q n d = p := by
  rw [leftOf_eq hq hd.le]
  rcases Nat.lt_or_ge (p + d) n with hlt | hge
  · rw [mod_eq_of_lt hlt]
    split_ifs <;> omega
  · rw [show p + d = p + d - n + n by omega, add_mod_right, mod_eq_of_lt (by omega)]
    split_ifs <;> omega

end Neighbours

section Arc

variable {op : E → E → E} {data : ℕ → Buf E} {n p k j : ℕ}

/-- The reduction of the data of a process and of those `k` steps to its left. -/
def arc (op : E → E → E) (data : ℕ → Buf E) (n p k : ℕ) : Buf E := fun j =>
  opRange op (fun i => data ((leftOf p n k + i) % n) j) 0 k

theorem arc_zero (hp : p < n) : arc op data n p 0 = data p := by
  funext j
  rw [arc, opRange, leftOf_zero hp, Nat.add_zero, mod_eq_of_lt hp]

theorem arc_succ (hp : p < n) (hk : k + 1 ≤ n) :
    arc op data n p (k + 1) j = op (arc op data n (recvFromLeft p n) k j) (data p j) := by
  rw [arc, opRange, arc, leftOf_recvFromLeft hp hk, Nat.zero_add, leftOf_add hp hk]

theorem arc_last (hassoc : ∀ a b c, op (op a b) c = op a (op b c))
    (hcomm : ∀ a b, op a b = op b a) (hn : 0 < n) :
    arc op data n p (n - 1) j = opRange op (fun rank => data rank j) 0 (n - 1) :=
  opRange_rotate hassoc hcomm (fun rank => data rank j) (leftOf_lt hn)

end Arc

namespace RingArgs

/-- The blocks of the steps do not overlap and are small enough to be received. -/
structure Fits (a : RingArgs E) (blk : ℕ → ℕ) : Prop where
  two_le : 2 ≤ a.size
  rank_lt : a.rank < a.size
  first : a.first = blk 0
  prev : ∀ k, 1 ≤ k → k + 1 < a.size → a.prevblock (k + 1) = blk k
  last : a.last = blk (a.size - 1)
  le : ∀ k < a.size, a.count (blk k) ≤ a.maxCount
  disjoint : ∀ k < a.size, ∀ k' < a.size, k ≠ k' →
    a.offset (blk k) + a.count (blk k) ≤ a.offset (blk k') ∨
      a.offset (blk k') + a.count (blk k') ≤ a.offset (blk k)

variable {a : RingArgs E} {blk : ℕ → ℕ} {data : ℕ → Buf E} {st st₀ : RingState E} {k : ℕ}

def piece (a : RingArgs E) (x : Buf E) (b : ℕ) : List E := slice x (a.offset b) (a.count b)

/-- The process has sent the blocks before `k` and has the data of the others. -/
structure Sent (a : RingArgs E) (blk : ℕ → ℕ) (data : ℕ → Buf E) (st₀ : RingState E) (k : ℕ)
    (st : RingState E) : Prop where
  own : ∀ i, k ≤ i → i < a.size → ∀ j, a.offset (blk i) ≤ j →
    j < a.offset (blk i) + a.count (blk i) → st.buf j = data a.rank j
  frame : ∀ j, (∀ i < a.size, j < a.offset (blk i) ∨ a.offset (blk i) + a.count (blk i) ≤ j) →
    st.buf j = st₀.buf j

/-- In the step `k` a receive is posted, and a block is sent. -/
def sendEvents (a : RingArgs E) (blk : ℕ → ℕ) (data : ℕ → Buf E) (k : ℕ) : List (Event (List E)) :=
  [.post (recvFromLeft a.rank a.size),
    .send (sendToRight a.rank a.size) (a.piece (arc a.op data a.size a.rank k) (blk k))]

def recvEvent (a : RingArgs E) (blk : ℕ → ℕ) (data : ℕ → Buf E) (k : ℕ) : Event (List E) :=
  .recv (recvFromLeft a.rank a.size)
    (a.piece (arc a.op data a.size (recvFromLeft a.rank a.size) k) (blk (k + 1)))

theorem Sent.receive (h : Sent a blk data st₀ (k + 1) st) (hfits : a.Fits blk) (hk : k + 1 < a.size)
    (i : Bool) :
    ∃ st', Follows (a.waitBlock i st) [a.recvEvent blk data k] st' ∧ st'.inbi = st.inbi ∧
      Sent a blk data st₀ (k + 2) (a.reduceBlock i (blk (k + 1)) st') ∧
      ∀ j, a.offset (blk (k + 1)) ≤ j → j < a.offset (blk (k + 1)) + a.count (blk (k + 1)) →
        (a.reduceBlock i (blk (k + 1)) st').buf j = arc a.op data a.size a.rank (k + 1) j := by
  set msg := a.piece (arc a.op data a.size (recvFromLeft a.rank a.size) k) (blk (k + 1)) with hmsg
  have hlen : msg.length = a.count (blk (k + 1)) := length_slice
  have hread : slice (blit (st.inbuf i) 0 msg) 0 (a.count (blk (k + 1))) = msg := by
    rw [← hlen, slice_blit]
  have hbuf : (a.reduceBlock i (blk (k + 1)) { st with
      inbuf := update st.inbuf i (blit (st.inbuf i) 0 msg) }).buf =
        opReduce a.op msg st.buf (a.offset (blk (k + 1))) := by
    simp only [reduceBlock, update_self, hread]
  -- the other elements of the buffer stay as they are
  have hother : ∀ j, j < a.offset (blk (k + 1)) ∨
      a.offset (blk (k + 1)) + a.count (blk (k + 1)) ≤ j →
        opReduce a.op msg st.buf (a.offset (blk (k + 1))) j = st.buf j := by
    rintro j (hj | hj)
    · exact opReduce_of_lt hj
    · exact opReduce_of_ge (hlen ▸ hj)
  refine ⟨{ st with inbuf := update st.inbuf i (blit (st.inbuf i) 0 msg) }, ?_, rfl,
    ⟨fun i' hi' hlt j h₁ h₂ => ?_, fun j hj => ?_⟩, fun j h₁ h₂ => ?_⟩
  · rw [waitBlock]
    refine follows_waitFor.bind_pure ?_
    have hle : msg.length ≤ a.maxCount := hlen ▸ hfits.le (k + 1) hk
    rw [if_neg hle.not_gt]
    exact follows_pure _
  · rw [hbuf, hother, h.own i' (by omega) hlt j h₁ h₂]
    have hdisjoint := hfits.disjoint i' hlt (k + 1) hk (by omega)
    omega
  · rw [hbuf, hother j (hj (k + 1) hk), h.frame j hj]
  · rw [hbuf, hmsg, piece, opReduce_slice h₁ h₂, h.own (k + 1) (le_refl _) hk j h₁ h₂,
      arc_succ hfits.rank_lt hk.le]

theorem Sent.ringStep (h : Sent a blk data st₀ (k + 1) st) (hfits : a.Fits blk)
    (hk : k + 2 < a.size) :
    ∃ st', Follows (a.ringStep st (k + 2))
      (a.recvEvent blk data k :: a.sendEvents blk data (k + 1)) st' ∧
      Sent a blk data st₀ (k + 2) st' := by
  obtain ⟨st₁, hwait, hinbi, hsent, hpiece⟩ := h.receive hfits (by omega) st.inbi
  have hprev : a.prevblock (k + 2) = blk (k + 1) := hfits.prev (k + 1) (by omega) hk
  have hsend : a.sendBlock (blk (k + 1)) (a.reduceBlock st.inbi (blk (k + 1)) st₁) =
      sendTo (sendToRight a.rank a.size)
        (a.piece (arc a.op data a.size a.rank (k + 1)) (blk (k + 1))) :=
    congrArg _ (slice_congr hpiece)
  refine ⟨{ a.reduceBlock st.inbi (blk (k + 1)) st₁ with inbi := !st.inbi }, ?_,
    ⟨hsent.own, hsent.frame⟩⟩
  rw [RingArgs.ringStep, Bool.not_not, hprev]
  apply Follows.swap
  refine follows_postFor.bind_cons (hwait.bind_cons ?_)
  dsimp only
  rw [hsend]
  exact follows_sendTo.bind_pure (follows_pure _)

theorem flatMap_alternate {α : Type} (snd : ℕ → List α) (rcv : ℕ → α) (m : ℕ) :
    snd 0 ++ (range' 2 m).flatMap (fun i => rcv (i - 2) :: snd (i - 1)) ++ [rcv m] =
      (range' 0 (m + 1)).flatMap fun k => snd k ++ [rcv k] := by
  induction m with
  | zero => simp
  | succ m ih =>
    rw [range'_1_concat, flatMap_append, range'_1_concat (n := m + 1), flatMap_append, ← ih]
    simp [Nat.add_comm]

/-- What a process sends and receives in the computation loop. -/
def ringEvents (a : RingArgs E) (blk : ℕ → ℕ) (data : ℕ → Buf E) (k : ℕ) : List (Event (List E)) :=
  a.sendEvents blk data k ++ [a.recvEvent blk data k]

theorem follows_ringCompute (data : ℕ → Buf E) (st : RingState E) (hfits : a.Fits blk)
    (hdata : ∀ i < a.size, ∀ j, a.offset (blk i) ≤ j →
      j < a.offset (blk i) + a.count (blk i) → st.buf j = data a.rank j) :
    ∃ st', Follows (a.ringCompute st)
      ((List.range' 0 (a.size - 1)).flatMap (a.ringEvents blk data)) st' ∧
      (∀ j, a.offset (blk (a.size - 1)) ≤ j →
        j < a.offset (blk (a.size - 1)) + a.count (blk (a.size - 1)) →
        st'.buf j = arc a.op data a.size a.rank (a.size - 1) j) ∧
      ∀ j, (∀ i < a.size, j < a.offset (blk i) ∨ a.offset (blk i) + a.count (blk i) ≤ j) →
        st'.buf j = st.buf j := by
  have htwo := hfits.two_le
  have hstart : Sent a blk data st 1 { st with inbi := false } :=
    ⟨fun i _ hi j h₁ h₂ => hdata i hi j h₁ h₂, fun _ _ => rfl⟩
  have hfirst : a.sendBlock a.first { st with inbi := false } =
      sendTo (sendToRight a.rank a.size) (a.piece (arc a.op data a.size a.rank 0) (blk 0)) := by
    rw [hfits.first, arc_zero hfits.rank_lt]
    exact congrArg _ (slice_congr fun j h₁ h₂ => hdata 0 (by omega) j h₁ h₂)
  obtain ⟨st₁, hloop, hsent⟩ := follows_foldlM 2 (a.size - 2)
    (fun i => a.recvEvent blk data (i - 2) :: a.sendEvents blk data (i - 1))
    (fun i st' => Sent a blk data st (i - 1) st')
    (fun i st' h₁ h₂ hinv => by
      obtain ⟨k, rfl⟩ : ∃ k, i = k + 2 := ⟨i - 2, by omega⟩
      exact hinv.ringStep hfits (by omega)) hstart
  rw [show 2 + (a.size - 2) - 1 = a.size - 2 + 1 by omega] at hsent
  obtain ⟨st₂, hwait, hinbi, hframe, hpiece⟩ := hsent.receive hfits (by omega) st₁.inbi
  rw [show a.size - 2 + 1 = a.size - 1 by omega, ← hinbi] at hpiece hframe
  refine ⟨a.reduceBlock st₂.inbi (blk (a.size - 1)) st₂, ?_, hpiece, hframe.frame⟩
  have hevents := flatMap_alternate (a.sendEvents blk data) (a.recvEvent blk data) (a.size - 2)
  rw [show a.size - 2 + 1 = a.size - 1 by omega, append_assoc] at hevents
  change _ = (range' 0 (a.size - 1)).flatMap (a.ringEvents blk data) at hevents
  rw [ringCompute, hfirst, hfits.last, ← hevents]
  refine follows_postFor.bind_cons (follows_sendTo.bind_cons ?_)
  exact hloop.bind (hwait.bind_pure (follows_pure _))

end RingArgs

section Distribution

variable {n p k : ℕ} {off cnt : ℕ → ℕ} {count maxCount : ℕ} {result buf : Buf E}

theorem sendDataFrom_eq (hp : p < n) (hk : k ≤ n) :
    (p + 1 + n - k) % n = leftOf (sendToRight p n) n k := by
  rw [leftOf, sendToRight]
  rcases Nat.lt_or_ge (p + 1) n with hlt | hge
  · rw [mod_eq_of_lt hlt]
  · rw [show p + 1 = n by omega, mod_self, show n + n - k = 0 + n - k + n by omega, add_mod_right]

theorem recvDataFrom_eq (hp : p < n) (hk : k < n) :
    leftOf p n k = leftOf (sendToRight p n) n (k + 1) := by
  have hn : 0 < n := by omega
  have hleft : recvFromLeft (sendToRight p n) n = p :=
    (sendToRight_eq_iff hp (sendToRight_lt hn)).1 rfl
  have h := leftOf_recvFromLeft (p := sendToRight p n) (sendToRight_lt hn) hk
  rwa [hleft] at h

def Finished (n p : ℕ) (off cnt : ℕ → ℕ) (result : Buf E) (k : ℕ) (buf : Buf E) : Prop :=
  ∀ i ≤ k, ∀ j, off (leftOf (sendToRight p n) n i) ≤ j →
    j < off (leftOf (sendToRight p n) n i) + cnt (leftOf (sendToRight p n) n i) → buf j = result j

def resultPiece (off cnt : ℕ → ℕ) (result : Buf E) (b : ℕ) : List E := slice result (off b) (cnt b)

/-- What a process sends and receives in the distribution loop. -/
def distributeEvents (n p : ℕ) (off cnt : ℕ → ℕ) (result : Buf E) (k : ℕ) : List (Event (List E)) :=
  [.post (recvFromLeft p n),
    .send (sendToRight p n) (resultPiece off cnt result (leftOf (sendToRight p n) n k)),
    .recv (recvFromLeft p n) (resultPiece off cnt result (leftOf p n k))]

theorem Finished.step (h : Finished n p off cnt result k buf) (hp : p < n) (hk : k + 1 < n)
    (hblocks : Blocks n count off cnt) (hmax : ∀ b < n, cnt b ≤ maxCount) :
    ∃ buf', Follows (ringDistributeStep p n off cnt maxCount buf k)
      (distributeEvents n p off cnt result k) buf' ∧ Finished n p off cnt result (k + 1) buf' := by
  have hn : 0 < n := by omega
  set b := leftOf p n k with hb
  have hsucc : b = leftOf (sendToRight p n) n (k + 1) := recvDataFrom_eq hp (by omega)
  have hlen : (resultPiece off cnt result b).length = cnt b := length_slice
  have hsend : slice buf (off (leftOf (sendToRight p n) n k)) (cnt (leftOf (sendToRight p n) n k)) =
      resultPiece off cnt result (leftOf (sendToRight p n) n k) :=
    slice_congr (h k (le_refl k))
  refine ⟨blit buf (off b) (resultPiece off cnt result b), ?_, fun i hi j h₁ h₂ => ?_⟩
  · rw [ringDistributeStep, sendDataFrom_eq hp (by omega), hsend]
    refine follows_postFor.bind_cons (follows_sendTo.bind_cons ?_)
    refine follows_waitFor.bind_pure ?_
    have hle : (resultPiece off cnt result b).length ≤ maxCount := hlen ▸ hmax b (leftOf_lt hn)
    rw [if_neg hle.not_gt]
    exact follows_pure _
  · rcases Nat.lt_or_ge k i with hlt | hge
    · obtain rfl : i = k + 1 := by omega
      rw [← hsucc] at h₁ h₂
      exact blit_slice h₁ h₂
    · have hne : leftOf (sendToRight p n) n i ≠ b := by
        rw [hsucc]
        intro heq
        have := leftOf_injOn (sendToRight_lt hn) (by omega) hk heq
        omega
      have hdisjoint := hblocks.disjoint (leftOf_lt hn) (hb ▸ leftOf_lt hn) hne
      rw [← h i hge j h₁ h₂]
      rcases hdisjoint with hbefore | hbehind
      · exact blit_of_lt (by omega)
      · exact blit_of_ge (by rw [hlen]; omega)

theorem follows_ringDistribute (h : Finished n p off cnt result 0 buf) (hp : p < n)
    (hblocks : Blocks n count off cnt) (hmax : ∀ b < n, cnt b ≤ maxCount) :
    ∃ buf', Follows (ringDistribute p n off cnt maxCount buf)
      ((range' 0 (n - 1)).flatMap (distributeEvents n p off cnt result)) buf' ∧
      ∀ j < count, buf' j = result j := by
  have hn : 0 < n := by omega
  obtain ⟨buf', hfollows, hend⟩ := follows_foldlM 0 (n - 1) (distributeEvents n p off cnt result)
    (Finished n p off cnt result)
    (fun k buf _ hk hinv => hinv.step hp (by omega) hblocks hmax) h
  refine ⟨buf', hfollows, fun j hj => ?_⟩
  obtain ⟨b, hb, hmem⟩ := hblocks.exists_mem hj
  -- the block comes from `i` steps to the left
  obtain ⟨i, hi, hib⟩ : ∃ i < n, leftOf (sendToRight p n) n i = b := by
    have hq := sendToRight_lt (p := p) hn
    rcases Nat.lt_or_ge (sendToRight p n) b with hlt | hge
    · refine ⟨sendToRight p n + n - b, by omega, ?_⟩
      rw [leftOf_eq hq (by omega), if_neg (by omega)]
      omega
    · refine ⟨sendToRight p n - b, by omega, ?_⟩
      rw [leftOf_eq hq (by omega), if_pos (by omega)]
      omega
  subst hib
  exact hend i (by omega) j hmem.1 hmem.2

end Distribution

section Rounds

variable {M : Type} {n T right left : ℕ} {ss rs ss' rs' : List M}

/-- Rounds in which a process posts a receive, sends to its right and then receives
from its left. -/
def exchange (right left : ℕ) : List M → List M → List (Event M)
  | s :: ss, r :: rs => .post left :: .send right s :: .recv left r :: exchange right left ss rs
  | _, _ => []

theorem exchange_append (h : ss.length = rs.length) : exchange right left (ss ++ ss') (rs ++ rs') =
      exchange right left ss rs ++ exchange right left ss' rs' := by
  induction ss generalizing rs with
  | nil =>
    obtain rfl := eq_nil_of_length_eq_zero h.symm
    rfl
  | cons s ss ih =>
    obtain ⟨r, rs, rfl⟩ := exists_cons_of_length_eq_add_one h.symm
    exact congrArg (fun l => Event.post left :: Event.send right s :: Event.recv left r :: l)
      (ih (succ.inj h))

theorem exchange_map {ι : Type} {l : List ι} {f g : ι → M} :
    exchange right left (l.map f) (l.map g) =
      l.flatMap fun i => [.post left, .send right (f i), .recv left (g i)] := by
  induction l with
  | nil => rfl
  | cons i l ih =>
    rw [map_cons, map_cons, exchange, ih]
    rfl

theorem exchange_eq_rounds (h : ss.length = rs.length) :
    exchange right left ss rs = (List.range' 0 ss.length).flatMap fun t =>
      roundEvents (ss[t]?.map (right, ·)) (rs[t]?.map (left, ·)) := by
  induction ss generalizing rs with
  | nil =>
    obtain rfl := eq_nil_of_length_eq_zero h.symm
    rfl
  | cons s ss ih =>
    obtain ⟨r, rs, rfl⟩ := exists_cons_of_length_eq_add_one h.symm
    have hshift : range' 1 ss.length = (range' 0 ss.length).map (1 + ·) :=
      (map_add_range' (a := 1) 0 ss.length 1).symm
    rw [exchange, ih (succ.inj h), length_cons, range'_succ, flatMap_cons, hshift, flatMap_map]
    simp only [Nat.add_comm 1, getElem?_cons_succ, getElem?_cons_zero]
    rfl

theorem computes_ring {α : Type} {prog : ℕ → Script M α} {out : ℕ → α} (ss : ℕ → List M)
    (hlen : ∀ p < n, (ss p).length = T)
    (hfollows : ∀ p < n, Follows (prog p)
      (exchange (sendToRight p n) (recvFromLeft p n) (ss p) (ss (recvFromLeft p n))) (out p)) :
    Computes n prog out := by
  refine computes_of_rounds T (fun p t => (ss p)[t]?.map (sendToRight p n, ·))
    (fun p t => (ss (recvFromLeft p n))[t]?.map (recvFromLeft p n, ·)) (fun p hp => ?_)
    (fun p hp t _ dst msg hmsg => ?_) (fun p hp t _ src msg hmsg => ?_)
    fun p hp q hq t _ msg => ?_
  · have hleft := hlen _ (recvFromLeft_lt (p := p) (show 0 < n by omega))
    rw [← hlen p hp, ← exchange_eq_rounds (by rw [hleft, hlen p hp])]
    exact hfollows p hp
  · obtain ⟨m, -, heq⟩ := map_eq_some_iff.1 hmsg
    cases heq
    exact sendToRight_lt (by omega)
  · obtain ⟨m, -, heq⟩ := map_eq_some_iff.1 hmsg
    cases heq
    exact recvFromLeft_lt (by omega)
  · simp only [map_eq_some_iff, Prod.mk.injEq]
    constructor
    · rintro ⟨m, hm, hright, rfl⟩
      have hleft := (sendToRight_eq_iff hp hq).1 hright
      exact ⟨m, by rwa [hleft], hleft, rfl⟩
    · rintro ⟨m, hm, hleft, rfl⟩
      rw [hleft] at hm
      exact ⟨m, hm, (sendToRight_eq_iff hp hq).2 hleft, rfl⟩

end Rounds

end Ulfm
