import Ulfm.Tuned.RecursiveDoubling
import Ulfm.Tuned.Ring

/-!
# Reductions for all the processes

The ring algorithm cuts the vector into one block for each process, the segmented one cuts the
blocks into phases. The computation loop leaves in each process one block that is reduced over
all of them, and the distribution loop sends these blocks around.
-/

namespace Ulfm

open List Script

variable {E : Type}

/-- `COLL_TUNED_COMPUTED_SEGCOUNT`. -/
def computedSegcount (segsize typelng segcount : ℕ) : ℕ :=
  if segsize ≥ typelng ∧ segsize < typelng * segcount then
    let count := segsize / typelng
    let residual := segsize - count * typelng
    if residual > typelng >>> 1 then count + 1 else count
  else segcount

/-- The blocks of `COLL_TUNED_COMPUTE_BLOCKCOUNT`: those before the split index have one element
more. -/
structure BlockCounts where
  splitIndex : ℕ
  early : ℕ
  late : ℕ

/-- `COLL_TUNED_COMPUTE_BLOCKCOUNT`. -/
def computeBlockcount (count numBlocks : ℕ) : BlockCounts where
  splitIndex := count % numBlocks
  early := if count % numBlocks ≠ 0 then count / numBlocks + 1 else count / numBlocks
  late := count / numBlocks

namespace BlockCounts

def offset (c : BlockCounts) (b : ℕ) : ℕ :=
  if b < c.splitIndex then b * c.early else b * c.late + c.splitIndex

def count (c : BlockCounts) (b : ℕ) : ℕ := if b < c.splitIndex then c.early else c.late

end BlockCounts

open BlockCounts

namespace AllreduceArgs

variable (a : AllreduceArgs E)

/-- The computation loop of the allreduce algorithms. -/
def ringArgs (offset count : ℕ → ℕ) (maxCount : ℕ) : RingArgs E where
  op := a.op
  rank := a.rank
  size := a.size
  offset := offset
  count := count
  maxCount := maxCount
  first := a.rank
  prevblock k := (a.rank + a.size - k + 1) % a.size
  last := (a.rank + 1) % a.size

/-- The input buffers are allocated. Receives of `maxCount` elements are posted for them. -/
def allocateInbuf (maxCount : ℕ) : Script (List E) Unit :=
  allocate a.layout 0 (a.layout.bytes maxCount) maxCount

/-- `ompi_coll_tuned_allreduce_intra_ring`. It returns the receive buffer. -/
def allreduceIntraRing : Script (List E) (Buf E) :=
  if a.size = 1 then pure a.copiedRbuf
  else if a.count < a.size then a.allreduceIntraRecursivedoubling
  else do
    let c := computeBlockcount a.count a.size
    a.allocateInbuf c.early
    -- the largest sum of ranks, an `int`
    if 2 ^ 31 ≤ a.rank + 1 + a.size then fault
    else do
      let st ← (a.ringArgs c.offset c.count c.early).ringCompute
        ⟨a.copiedRbuf, fun _ => a.garbage, false⟩
      ringDistribute a.rank a.size c.offset c.count c.early st.buf

def numPhases (count size segcount : ℕ) : ℕ :=
  if count % (size * segcount) ≥ size ∧ count % (size * segcount) > size * segcount / 2 then
    count / (size * segcount) + 1
  else count / (size * segcount)

/-- The part of a block that belongs to a phase. -/
def phaseOffset (c : BlockCounts) (phases phase b : ℕ) : ℕ :=
  c.offset b + (computeBlockcount (c.count b) phases).offset phase

def phaseCount (c : BlockCounts) (phases phase b : ℕ) : ℕ :=
  (computeBlockcount (c.count b) phases).count phase

/-- `ompi_coll_tuned_allreduce_intra_ring_segmented`. It returns the receive buffer. -/
def allreduceIntraRingSegmented (segsize typelng : ℕ) : Script (List E) (Buf E) :=
  let segcount := computedSegcount segsize typelng a.count
  if a.size = 1 then pure a.copiedRbuf
  else if 2 ^ 31 ≤ a.size * segcount then fault
  else if a.count < a.size * segcount then a.allreduceIntraRing
  -- a division by zero
  else if a.size * segcount = 0 then fault
  else do
    let phases := numPhases a.count a.size segcount
    let c := computeBlockcount a.count a.size
    let maxSegcount := (computeBlockcount c.early phases).early
    a.allocateInbuf maxSegcount
    if 2 ^ 31 ≤ a.rank + 1 + a.size then fault
    else do
      let st ← (range' 0 phases).foldlM (fun st phase =>
        (a.ringArgs (phaseOffset c phases phase) (phaseCount c phases phase)
          maxSegcount).ringCompute st) ⟨a.copiedRbuf, fun _ => a.garbage, false⟩
      ringDistribute a.rank a.size c.offset c.count c.early st.buf

end AllreduceArgs

/-- The arguments of an allreduce operation, at all the processes. -/
structure AllreduceCall (E : Type) where
  op : E → E → E
  size : ℕ
  count : ℕ
  segsize : ℕ
  typelng : ℕ
  layout : Layout
  /-- The processes that give `MPI_IN_PLACE`. -/
  inPlace : ℕ → Bool
  /-- What the processes contribute. -/
  data : ℕ → Buf E
  /-- The receive buffers. -/
  rbuf : ℕ → Buf E
  garbage : ℕ → Buf E

namespace AllreduceCall

variable (r : AllreduceCall E)

def args (rank : ℕ) : AllreduceArgs E where
  op := r.op
  rank := rank
  size := r.size
  count := r.count
  layout := r.layout
  sbuf := if r.inPlace rank then none else some (r.data rank)
  rbuf := if r.inPlace rank then r.data rank else r.rbuf rank
  garbage := r.garbage rank

def segcount : ℕ := computedSegcount r.segsize r.typelng r.count

/-- The elements of the temporary buffers of the ring, which is recursive doubling for a small
count. -/
def ringTemp : ℕ := if r.count < r.size then r.count else (computeBlockcount r.count r.size).early

/-- Those of the segmented ring, which is the other ring for a small count. -/
def segmentedTemp : ℕ :=
  if r.count < r.size * r.segcount then r.ringTemp
  else (computeBlockcount (computeBlockcount r.count r.size).early
    (AllreduceArgs.numPhases r.count r.size r.segcount)).early

/-- `x_0 op x_1 op ... op x_(n-1)`. -/
def result : Buf E := fun j => opRange r.op (fun rank => r.data rank j) 0 (r.size - 1)

/-- In every run all the processes return, with the result in their receive buffers. -/
def Correct (prog : ℕ → Script (List E) (Buf E)) : Prop :=
  ∃ out, Computes r.size prog out ∧ ∀ p < r.size, ∀ j < r.count, out p j = r.result j

variable {r} {p n k : ℕ}

theorem copiedRbuf_eq {j : ℕ} (hj : j < r.count) : (r.args p).copiedRbuf j = r.data p j := by
  have hlt : j < 0 + (r.args p).count := by rwa [Nat.zero_add]
  rw [AllreduceArgs.copiedRbuf]
  cases hplace : r.inPlace p with
  | true => simp only [args, hplace, if_true]
  | false =>
    simp only [args, hplace, if_false, Bool.false_eq_true]
    exact blit_slice (Nat.zero_le j) hlt

theorem getD_sbuf : (r.args p).sbuf.getD (r.args p).rbuf = r.data p := by
  rw [args]
  cases hplace : r.inPlace p <;> rfl

theorem correct_of_size_one {prog : ℕ → Script (List E) (Buf E)} (hsize : r.size = 1)
    (hprog : ∀ p, prog p = pure (r.args p).copiedRbuf) : r.Correct prog := by
  refine ⟨fun p => (r.args p).copiedRbuf, computes_of_rounds 0 (fun _ _ => none) (fun _ _ => none)
    (fun p _ => ?_) (fun p _ t ht => absurd ht (Nat.not_lt_zero t))
    (fun p _ t ht => absurd ht (Nat.not_lt_zero t))
    (fun p _ q _ t ht => absurd ht (Nat.not_lt_zero t)), fun p hp j hj => ?_⟩
  · rw [hprog]
    exact follows_pure _
  · obtain rfl : p = 0 := by omega
    dsimp only
    rw [copiedRbuf_eq hj, result, hsize]
    rfl

theorem correct_recursivedoubling (hassoc : ∀ x y z, r.op (r.op x y) z = r.op x (r.op y z))
    (hpos : 0 < r.size) (hint : r.size < 2 ^ 30) (hfits : r.layout.FitsUnshifted r.count) :
    r.Correct fun p => (r.args p).allreduceIntraRecursivedoubling := by
  by_cases hsize : r.size = 1
  · refine correct_of_size_one hsize fun p => ?_
    rw [AllreduceArgs.allreduceIntraRecursivedoubling]
    exact if_pos hsize
  · have hfold := folded_size hpos
    set L := r.size.size - 1 with hL
    set e := r.size - nextPowerOfTwo r.size >>> 1 with he
    have hpow : nextPowerOfTwo r.size < 2 ^ 31 := by
      rw [nextPowerOfTwo_eq]
      exact Nat.pow_lt_pow_right Nat.one_lt_two
        ((Nat.size_le.2 hint).trans_lt (Nat.lt_succ_self 30))
    have hbuf : Nonempty (Buf E) := ⟨r.data 0⟩
    refine FoldMessages.exists_computes
      (P := fun _ (out : Buf E) => ∀ j < r.count, out j = r.result j)
      hfold
      (AllreduceArgs.doublingMessages r.op r.data e r.count r.result) (fun k hk => hk)
      (fun i hi => ?_) fun i hi => ?_
    · exact AllreduceArgs.follows_recursivedoubling_even (a := r.args (2 * i)) hi rfl hsize hfits
        hpow rfl getD_sbuf r.result
    · exact AllreduceArgs.follows_recursivedoubling_new (a := r.args (remoteRank e i)) hfold hi rfl
        hsize hfits hpow (nextPowerOfTwo_shiftRight hpos) getD_sbuf hassoc rfl

theorem fits_ringArgs {offset count : ℕ → ℕ} {maxCount : ℕ} (htwo : 2 ≤ r.size) (hp : p < r.size)
    (hle : ∀ b < r.size, count b ≤ maxCount)
    (hdisjoint : ∀ b < r.size, ∀ c < r.size, b ≠ c →
      offset b + count b ≤ offset c ∨ offset c + count c ≤ offset b) :
    ((r.args p).ringArgs offset count maxCount).Fits (leftOf p r.size) where
  two_le := htwo
  rank_lt := hp
  first := (leftOf_zero hp).symm
  prev k _ hk := by
    have hk' : k + 1 < r.size := hk
    change (p + r.size - (k + 1) + 1) % r.size = (p + r.size - k) % r.size
    rw [show p + r.size - (k + 1) + 1 = p + r.size - k by omega]
  last := by
    change (p + 1) % r.size = (p + r.size - (r.size - 1)) % r.size
    rw [show p + r.size - (r.size - 1) = p + 1 by omega]
  le k _ := hle _ (leftOf_lt (by omega))
  disjoint k hk k' hk' hne :=
    hdisjoint _ (leftOf_lt (by omega)) _ (leftOf_lt (by omega)) fun heq =>
      hne (leftOf_injOn hp hk hk' heq)

/-- What a process sends in the computation loop. -/
def computeMsgs (r : AllreduceCall E) (offset count : ℕ → ℕ) (p : ℕ) : List (List E) :=
  (range' 0 (r.size - 1)).map fun k =>
    slice (arc r.op r.data r.size p k) (offset (leftOf p r.size k)) (count (leftOf p r.size k))

/-- What it sends in the distribution loop. -/
def distributeMsgs (r : AllreduceCall E) (offset count : ℕ → ℕ) (p : ℕ) : List (List E) :=
  (range' 0 (r.size - 1)).map fun k =>
    resultPiece offset count r.result (leftOf (sendToRight p r.size) r.size k)

theorem ringEvents_eq_exchange {offset count : ℕ → ℕ} {maxCount : ℕ} (hp : p < r.size) :
    (range' 0 (r.size - 1)).flatMap
      (((r.args p).ringArgs offset count maxCount).ringEvents (leftOf p r.size) r.data) =
        exchange (sendToRight p r.size) (recvFromLeft p r.size) (r.computeMsgs offset count p)
          (r.computeMsgs offset count (recvFromLeft p r.size)) := by
  rw [computeMsgs, computeMsgs, exchange_map]
  refine flatMap_congr fun k hk => ?_
  rw [mem_range'_1] at hk
  rw [leftOf_recvFromLeft hp (by omega)]
  rfl

theorem distributeEvents_eq_exchange {offset count : ℕ → ℕ} (hp : p < r.size) :
    (range' 0 (r.size - 1)).flatMap (distributeEvents r.size p offset count r.result) =
      exchange (sendToRight p r.size) (recvFromLeft p r.size) (r.distributeMsgs offset count p)
        (r.distributeMsgs offset count (recvFromLeft p r.size)) := by
  have hright : sendToRight (recvFromLeft p r.size) r.size = p :=
    (sendToRight_eq_iff (recvFromLeft_lt (by omega)) hp).2 rfl
  rw [distributeMsgs, distributeMsgs, exchange_map, hright]
  rfl

end AllreduceCall

open AllreduceCall

theorem computedSegcount_pos {segsize typelng count : ℕ} (hcount : 0 < count) :
    0 < computedSegcount segsize typelng count := by
  rw [computedSegcount]
  by_cases h : segsize ≥ typelng ∧ segsize < typelng * count
  · have hpos : 0 < segsize / typelng := by
      refine Nat.div_pos h.1 (Nat.pos_of_ne_zero fun h0 => ?_)
      rw [h0, Nat.zero_mul] at h
      exact Nat.not_lt_zero _ h.2
    rw [if_pos h]
    dsimp only
    split_ifs
    · exact Nat.succ_pos _
    · exact hpos
  · rw [if_neg h]
    exact hcount

section BlockCounts

variable {count n b : ℕ}

theorem early_eq (count n : ℕ) : (computeBlockcount count n).early =
    count / n + if count % n ≠ 0 then 1 else 0 := by
  simp only [computeBlockcount]
  split_ifs <;> rfl

theorem count_le_early :
    (computeBlockcount count n).count b ≤ (computeBlockcount count n).early := by
  rw [BlockCounts.count]
  split_ifs
  · exact le_refl _
  · rw [early_eq]
    exact Nat.le_add_right _ _

theorem blocks_computeBlockcount (hn : 0 < n) :
    Blocks n count (computeBlockcount count n).offset (computeBlockcount count n).count where
  zero := by
    rw [offset, Nat.zero_mul, Nat.zero_mul, Nat.zero_add]
    split_ifs with h
    · rfl
    · exact Nat.eq_zero_of_not_pos h
  succ b hb := by
    have hearly := early_eq count n
    set c := computeBlockcount count n with hc
    have hsplit : c.splitIndex = count % n := rfl
    have hlate : c.late = count / n := rfl
    rw [offset, offset, BlockCounts.count, Nat.succ_mul, Nat.succ_mul]
    split_ifs with h₁ h₂
    · rfl
    · omega
    · have hearly' : c.early = c.late + 1 := by
        rw [hearly, if_pos (by omega), hlate]
      rw [hearly', Nat.mul_succ]
      omega
    · omega
  last := by
    have hlt : count % n < n := Nat.mod_lt _ hn
    rw [offset, if_neg (by simp only [computeBlockcount]; omega)]
    exact Nat.div_add_mod count n

end BlockCounts

namespace AllreduceCall

variable {r : AllreduceCall E} {p : ℕ}

theorem sendToRight_eq_leftOf (hp : p < r.size) :
    leftOf p r.size (r.size - 1) = sendToRight p r.size := by
  rw [leftOf, sendToRight, show p + r.size - (r.size - 1) = p + 1 by omega]

theorem follows_computation {offset count : ℕ → ℕ} {maxCount : ℕ} (st : RingState E)
    (hassoc : ∀ x y z, r.op (r.op x y) z = r.op x (r.op y z))
    (hcomm : ∀ x y, r.op x y = r.op y x) (htwo : 2 ≤ r.size) (hp : p < r.size)
    (hle : ∀ b < r.size, count b ≤ maxCount)
    (hdisjoint : ∀ b < r.size, ∀ c < r.size, b ≠ c →
      offset b + count b ≤ offset c ∨ offset c + count c ≤ offset b)
    (hst : ∀ b < r.size, ∀ j, offset b ≤ j → j < offset b + count b → st.buf j = r.data p j) :
    ∃ st', Follows (((r.args p).ringArgs offset count maxCount).ringCompute st)
      (exchange (sendToRight p r.size) (recvFromLeft p r.size) (r.computeMsgs offset count p)
        (r.computeMsgs offset count (recvFromLeft p r.size))) st' ∧
      (∀ j, offset (sendToRight p r.size) ≤ j →
        j < offset (sendToRight p r.size) + count (sendToRight p r.size) →
        st'.buf j = r.result j) ∧
      ∀ j, (∀ b < r.size, j < offset b ∨ offset b + count b ≤ j) → st'.buf j = st.buf j := by
  have hpos : 0 < r.size := by omega
  obtain ⟨st', hfollows, hlast, hframe⟩ := RingArgs.follows_ringCompute r.data st
    (fits_ringArgs htwo hp hle hdisjoint) fun i _ j h₁ h₂ => hst _ (leftOf_lt hpos) j h₁ h₂
  refine ⟨st', ?_, fun j h₁ h₂ => ?_, fun j hj => hframe j fun i _ => hj _ (leftOf_lt hpos)⟩
  · rw [← ringEvents_eq_exchange hp]
    exact hfollows
  · rw [← sendToRight_eq_leftOf hp] at h₁ h₂
    rw [hlast j h₁ h₂]
    exact arc_last hassoc hcomm hpos

theorem follows_distribution {comp : Script (List E) (RingState E)} (ss : ℕ → List (List E))
    {st : RingState E} {c : BlockCounts} (hp : p < r.size)
    (hblocks : Blocks r.size r.count c.offset c.count)
    (hle : ∀ b, c.count b ≤ c.early) (hlen : (ss p).length = (ss (recvFromLeft p r.size)).length)
    (hcomp : Follows comp (exchange (sendToRight p r.size) (recvFromLeft p r.size) (ss p)
      (ss (recvFromLeft p r.size))) st)
    (hst : ∀ j, c.offset (sendToRight p r.size) ≤ j →
      j < c.offset (sendToRight p r.size) + c.count (sendToRight p r.size) →
      st.buf j = r.result j) :
    ∃ out, Follows (do
        let st ← comp
        ringDistribute p r.size c.offset c.count c.early st.buf)
      (exchange (sendToRight p r.size) (recvFromLeft p r.size)
        (ss p ++ r.distributeMsgs c.offset c.count p)
        (ss (recvFromLeft p r.size) ++
          r.distributeMsgs c.offset c.count (recvFromLeft p r.size))) out ∧
      ∀ j < r.count, out j = r.result j := by
  have hpos : 0 < r.size := by omega
  have hfinished : Finished r.size p c.offset c.count r.result 0 st.buf := by
    intro i hi j h₁ h₂
    obtain rfl : i = 0 := by omega
    rw [leftOf_zero (sendToRight_lt hpos)] at h₁ h₂
    exact hst j h₁ h₂
  obtain ⟨out, hout, hres⟩ := follows_ringDistribute hfinished hp hblocks fun b _ => hle b
  refine ⟨out, ?_, hres⟩
  rw [exchange_append hlen, ← distributeEvents_eq_exchange hp]
  exact hcomp.bind hout

theorem length_computeMsgs {offset count : ℕ → ℕ} :
    (r.computeMsgs offset count p).length = r.size - 1 := by
  rw [computeMsgs, length_map, length_range']

theorem length_distributeMsgs {offset count : ℕ → ℕ} :
    (r.distributeMsgs offset count p).length = r.size - 1 := by
  rw [distributeMsgs, length_map, length_range']

theorem correct_of_exchange {prog : ℕ → Script (List E) (Buf E)} {T : ℕ} (ss : ℕ → List (List E))
    (hlen : ∀ p < r.size, (ss p).length = T)
    (hfollows : ∀ p < r.size, ∃ out, Follows (prog p) (exchange (sendToRight p r.size)
      (recvFromLeft p r.size) (ss p) (ss (recvFromLeft p r.size))) out ∧
        ∀ j < r.count, out j = r.result j) : r.Correct prog := by
  have hbuf : Nonempty (Buf E) := ⟨r.data 0⟩
  choose! out hout hres using hfollows
  exact ⟨out, computes_ring ss hlen hout, hres⟩

theorem allocateInbuf_eq {maxCount : ℕ} (h : r.layout.FitsUnshifted maxCount) :
    (r.args p).allocateInbuf maxCount = pure () := allocate_eq (Layout.fitsUnshifted_iff.1 h)

theorem neverReturns_allocateInbuf {maxCount : ℕ} (h : ¬r.layout.FitsUnshifted maxCount) :
    NeverReturns ((r.args p).allocateInbuf maxCount) :=
  neverReturns_allocate (Layout.fitsUnshifted_iff.not.1 h)

theorem correct_ring (hassoc : ∀ x y z, r.op (r.op x y) z = r.op x (r.op y z))
    (hcomm : ∀ x y, r.op x y = r.op y x) (hpos : 0 < r.size) (hsize : r.size ≠ 1)
    (hint : r.size < 2 ^ 30) (hfits : r.layout.FitsUnshifted r.ringTemp) :
    r.Correct fun p => (r.args p).allreduceIntraRing := by
  rw [ringTemp] at hfits
  by_cases hcount : r.count < r.size
  · have hprog : (fun p => (r.args p).allreduceIntraRing) =
        fun p => (r.args p).allreduceIntraRecursivedoubling := by
      funext p
      rw [AllreduceArgs.allreduceIntraRing]
      exact (if_neg hsize).trans (if_pos hcount)
    rw [if_pos hcount] at hfits
    rw [hprog]
    exact correct_recursivedoubling hassoc hpos hint hfits
  · rw [if_neg hcount] at hfits
    set c := computeBlockcount r.count r.size with hc
    have hblocks : Blocks r.size r.count c.offset c.count := blocks_computeBlockcount hpos
    refine correct_of_exchange (T := r.size - 1 + (r.size - 1)) (fun p =>
      r.computeMsgs c.offset c.count p ++ r.distributeMsgs c.offset c.count p) (fun p _ => ?_)
      fun p hp => ?_
    · rw [length_append, length_computeMsgs, length_distributeMsgs]
    · have hstart : ∀ b < r.size, ∀ j, c.offset b ≤ j → j < c.offset b + c.count b →
          (r.args p).copiedRbuf j = r.data p j := fun b hb j _ h₂ =>
        copiedRbuf_eq (h₂.trans_le (hblocks.end_le_count hb))
      obtain ⟨st, hcomp, hst, -⟩ := follows_computation ⟨(r.args p).copiedRbuf,
        fun _ => r.garbage p, false⟩ hassoc hcomm (by omega) hp (fun b _ => count_le_early)
        (fun b hb c' hc' hne => hblocks.disjoint hb hc' hne) hstart
      obtain ⟨out, hout, hres⟩ := follows_distribution (r.computeMsgs c.offset c.count) hp
        hblocks (fun _ => count_le_early) (by rw [length_computeMsgs, length_computeMsgs]) hcomp hst
      refine ⟨out, ?_, hres⟩
      have hrank : ¬2 ^ 31 ≤ (r.args p).rank + 1 + (r.args p).size := by
        change ¬2 ^ 31 ≤ p + 1 + r.size
        omega
      rw [AllreduceArgs.allreduceIntraRing, if_neg (show ¬(r.args p).size = 1 from hsize),
        if_neg (show ¬(r.args p).count < (r.args p).size from hcount)]
      change Follows ((r.args p).allocateInbuf c.early >>= _) _ _
      rw [allocateInbuf_eq hfits, pure_bind, if_neg hrank]
      exact hout

section Segmented

open AllreduceArgs

variable {c : BlockCounts} {phases φ φ' b b' j : ℕ}

/-- The element `j` is in the part of the block `b` that belongs to the phase `φ`. -/
def InPhase (c : BlockCounts) (phases φ b j : ℕ) : Prop :=
  phaseOffset c phases φ b ≤ j ∧ j < phaseOffset c phases φ b + phaseCount c phases φ b

theorem blocks_phases (c : BlockCounts) (b : ℕ) (hφ : φ < phases) : Blocks phases (c.count b)
    (computeBlockcount (c.count b) phases).offset (computeBlockcount (c.count b) phases).count :=
  blocks_computeBlockcount (by omega)

theorem phase_end_le (c : BlockCounts) (b : ℕ) (hφ : φ < phases) :
    phaseOffset c phases φ b + phaseCount c phases φ b ≤ c.offset b + c.count b := by
  have hend := (blocks_phases c b hφ).end_le_count hφ
  rw [phaseOffset, phaseCount]
  omega

theorem InPhase.mem_block (h : InPhase c phases φ b j) (hφ : φ < phases) :
    c.offset b ≤ j ∧ j < c.offset b + c.count b := by
  obtain ⟨h₁, h₂⟩ := h
  refine ⟨?_, h₂.trans_le (phase_end_le c b hφ)⟩
  rw [phaseOffset] at h₁
  omega

theorem InPhase.unique (hblocks : Blocks r.size r.count c.offset c.count) (hb : b < r.size)
    (hb' : b' < r.size) (hφ : φ < phases) (hφ' : φ' < phases) (h : InPhase c phases φ b j)
    (h' : InPhase c phases φ' b' j) : b = b' ∧ φ = φ' := by
  have hmem := h.mem_block hφ
  have hmem' := h'.mem_block hφ'
  have heq : b = b' := by
    by_contra hne
    have hdisjoint := hblocks.disjoint hb hb' hne
    omega
  subst heq
  refine ⟨rfl, ?_⟩
  by_contra hne
  have hdisjoint := (blocks_phases c b hφ).disjoint hφ hφ' hne
  obtain ⟨h₁, h₂⟩ := h
  obtain ⟨h₁', h₂'⟩ := h'
  rw [phaseOffset] at h₁ h₂ h₁' h₂'
  rw [phaseCount] at h₂ h₂'
  omega

theorem exists_inPhase (hphases : 0 < phases) (h₁ : c.offset b ≤ j)
    (h₂ : j < c.offset b + c.count b) : ∃ φ < phases, InPhase c phases φ b j := by
  obtain ⟨φ, hφ, h₃, h₄⟩ := (blocks_phases c b hphases).exists_mem
    (show j - c.offset b < c.count b by omega)
  refine ⟨φ, hφ, ?_, ?_⟩
  · rw [phaseOffset]
    omega
  · rw [phaseOffset, phaseCount]
    omega

theorem phaseCount_le (count size : ℕ) : phaseCount (computeBlockcount count size) phases φ b ≤
      (computeBlockcount (computeBlockcount count size).early phases).early := by
  have hle : (computeBlockcount count size).count b ≤ (computeBlockcount count size).early :=
    count_le_early
  refine (count_le_early).trans ?_
  rw [early_eq, early_eq]
  have hdiv := Nat.div_le_div_right (c := phases) hle
  rcases hdiv.lt_or_eq with hlt | heq
  · split_ifs <;> omega
  · have hmod := Nat.div_add_mod ((computeBlockcount count size).count b) phases
    have hmod' := Nat.div_add_mod (computeBlockcount count size).early phases
    rw [heq] at hmod ⊢
    split_ifs <;> omega

/-- Before the phase `φ` the own data are there for it and the later ones, and the parts of a block
that belong to the earlier ones are reduced. -/
structure PhaseInv (r : AllreduceCall E) (c : BlockCounts) (phases p φ : ℕ) (st : RingState E) :
    Prop where
  own : ∀ φ', φ ≤ φ' → φ' < phases → ∀ b < r.size, ∀ j, InPhase c phases φ' b j →
    st.buf j = r.data p j
  reduced : ∀ φ' < φ, ∀ j, InPhase c phases φ' (sendToRight p r.size) j → st.buf j = r.result j

def phaseMsgs (r : AllreduceCall E) (c : BlockCounts) (phases φ p : ℕ) : List (List E) :=
  r.computeMsgs (phaseOffset c phases φ) (phaseCount c phases φ) p

theorem PhaseInv.step {st : RingState E} (h : PhaseInv r c phases p φ st)
    (hassoc : ∀ x y z, r.op (r.op x y) z = r.op x (r.op y z))
    (hcomm : ∀ x y, r.op x y = r.op y x) (htwo : 2 ≤ r.size) (hp : p < r.size)
    (hφ : φ < phases) (hblocks : Blocks r.size r.count c.offset c.count) {maxSegcount : ℕ}
    (hmax : ∀ b < r.size, phaseCount c phases φ b ≤ maxSegcount) :
    ∃ st', Follows (((r.args p).ringArgs (phaseOffset c phases φ) (phaseCount c phases φ)
        maxSegcount).ringCompute st)
      (exchange (sendToRight p r.size) (recvFromLeft p r.size) (r.phaseMsgs c phases φ p)
        (r.phaseMsgs c phases φ (recvFromLeft p r.size))) st' ∧
      PhaseInv r c phases p (φ + 1) st' := by
  have hright : sendToRight p r.size < r.size := sendToRight_lt (by omega)
  obtain ⟨st', hst', hres, hframe⟩ := follows_computation st hassoc hcomm htwo hp hmax
    (fun b hb b' hb' hne => by
      have hdisjoint := hblocks.disjoint hb hb' hne
      have hend := phase_end_le c b hφ
      have hend' := phase_end_le c b' hφ
      have hoff : c.offset b ≤ phaseOffset c phases φ b := Nat.le_add_right _ _
      have hoff' : c.offset b' ≤ phaseOffset c phases φ b' := Nat.le_add_right _ _
      omega)
    (fun b hb j h₁ h₂ => h.own φ (le_refl φ) hφ b hb j ⟨h₁, h₂⟩)
  -- the parts of the other phases stay as they are
  have hother : ∀ φ' < phases, φ' ≠ φ → ∀ b < r.size, ∀ j, InPhase c phases φ' b j →
      st'.buf j = st.buf j := by
    intro φ' hφ' hne b hb j hj
    refine hframe j fun b' hb' => ?_
    by_contra hcon
    have hin : InPhase c phases φ b' j := ⟨by omega, by omega⟩
    exact hne (hj.unique hblocks hb hb' hφ' hφ hin).2
  refine ⟨st', hst', fun φ' h₁ h₂ b hb j hj => ?_, fun φ' hlt j hj => ?_⟩
  · rw [hother φ' h₂ (by omega) b hb j hj, h.own φ' (by omega) h₂ b hb j hj]
  · rcases Nat.lt_succ_iff_lt_or_eq.1 hlt with hlt | rfl
    · rw [hother φ' (by omega) (by omega) _ hright j hj, h.reduced φ' hlt j hj]
    · exact hres j hj.1 hj.2

theorem exchange_flatMap {right left n : ℕ} {ss rs : ℕ → List (List E)}
    (hlen : ∀ i, (ss i).length = (rs i).length) (start : ℕ) :
    exchange right left ((range' start n).flatMap ss) ((range' start n).flatMap rs) =
      (range' start n).flatMap fun i => exchange right left (ss i) (rs i) := by
  induction n generalizing start with
  | zero => rfl
  | succ n ih =>
    rw [range'_succ, flatMap_cons, flatMap_cons, flatMap_cons, exchange_append (hlen start), ih]

theorem follows_phases (hassoc : ∀ x y z, r.op (r.op x y) z = r.op x (r.op y z))
    (hcomm : ∀ x y, r.op x y = r.op y x) (htwo : 2 ≤ r.size) (hp : p < r.size)
    (hphases : 0 < phases) (hc : c = computeBlockcount r.count r.size) {maxSegcount : ℕ}
    (hmax : maxSegcount = (computeBlockcount c.early phases).early) :
    ∃ st, Follows ((range' 0 phases).foldlM (fun st phase =>
        ((r.args p).ringArgs (phaseOffset c phases phase) (phaseCount c phases phase)
          maxSegcount).ringCompute st) ⟨(r.args p).copiedRbuf, fun _ => r.garbage p, false⟩)
      (exchange (sendToRight p r.size) (recvFromLeft p r.size)
        ((range' 0 phases).flatMap fun φ => r.phaseMsgs c phases φ p)
        ((range' 0 phases).flatMap fun φ => r.phaseMsgs c phases φ (recvFromLeft p r.size))) st ∧
      ∀ j, c.offset (sendToRight p r.size) ≤ j →
        j < c.offset (sendToRight p r.size) + c.count (sendToRight p r.size) →
        st.buf j = r.result j := by
  have hpos : 0 < r.size := by omega
  have hblocks : Blocks r.size r.count c.offset c.count := hc ▸ blocks_computeBlockcount hpos
  have hstart : PhaseInv r c phases p 0 ⟨(r.args p).copiedRbuf, fun _ => r.garbage p, false⟩ := by
    refine ⟨fun φ _ hφ b hb j hj => copiedRbuf_eq ?_, fun φ hφ => absurd hφ (Nat.not_lt_zero φ)⟩
    exact (hj.mem_block hφ).2.trans_le (hblocks.end_le_count hb)
  obtain ⟨st, hfollows, hend⟩ := follows_foldlM 0 phases
    (fun φ => exchange (sendToRight p r.size) (recvFromLeft p r.size) (r.phaseMsgs c phases φ p)
      (r.phaseMsgs c phases φ (recvFromLeft p r.size)))
    (PhaseInv r c phases p) (fun φ st _ hφ hinv =>
      hinv.step hassoc hcomm htwo hp (by omega) hblocks fun b _ =>
        hmax ▸ hc ▸ phaseCount_le r.count r.size) hstart
  refine ⟨st, ?_, fun j h₁ h₂ => ?_⟩
  · rw [exchange_flatMap fun φ => by
      rw [phaseMsgs, phaseMsgs, length_computeMsgs, length_computeMsgs]]
    exact hfollows
  · obtain ⟨φ, hφ, hmem⟩ := exists_inPhase hphases h₁ h₂
    exact hend.reduced φ (by omega) j hmem

theorem numPhases_pos {count size segcount : ℕ} (hpos : 0 < size * segcount)
    (hle : size * segcount ≤ count) : 0 < numPhases count size segcount := by
  have hdiv : 0 < count / (size * segcount) := Nat.div_pos hle hpos
  rw [numPhases]
  split_ifs
  · exact Nat.succ_pos _
  · exact hdiv

theorem correct_ringSegmented (hassoc : ∀ x y z, r.op (r.op x y) z = r.op x (r.op y z))
    (hcomm : ∀ x y, r.op x y = r.op y x) (hsize : r.size ≠ 1) (hint : r.size < 2 ^ 30)
    (hpos : 0 < r.size * r.segcount) (hmul : r.size * r.segcount < 2 ^ 31)
    (hfits : r.layout.FitsUnshifted r.segmentedTemp) :
    r.Correct fun p => (r.args p).allreduceIntraRingSegmented r.segsize r.typelng := by
  have hsizepos : 0 < r.size := Nat.pos_of_mul_pos_right hpos
  have hmul' (p : ℕ) : ¬2 ^ 31 ≤ (r.args p).size *
      computedSegcount r.segsize r.typelng (r.args p).count := hmul.not_ge
  rw [segmentedTemp] at hfits
  by_cases hcount : r.count < r.size * r.segcount
  · have hprog : (fun p => (r.args p).allreduceIntraRingSegmented r.segsize r.typelng) =
        fun p => (r.args p).allreduceIntraRing := by
      funext p
      rw [allreduceIntraRingSegmented]
      exact ((if_neg hsize).trans (if_neg (hmul' p))).trans (if_pos hcount)
    rw [if_pos hcount] at hfits
    rw [hprog]
    exact correct_ring hassoc hcomm hsizepos hsize hint hfits
  · rw [if_neg hcount] at hfits
    have hcount' (p : ℕ) : ¬(r.args p).count < (r.args p).size *
        computedSegcount r.segsize r.typelng (r.args p).count := hcount
    have hpos' (p : ℕ) : ¬(r.args p).size *
        computedSegcount r.segsize r.typelng (r.args p).count = 0 := hpos.ne'
    set c := computeBlockcount r.count r.size with hc
    set phases := numPhases r.count r.size r.segcount with hphases
    have hphases_pos : 0 < phases := numPhases_pos hpos (not_lt.1 hcount)
    have hblocks : Blocks r.size r.count c.offset c.count := blocks_computeBlockcount hsizepos
    have hlen (p : ℕ) : ((List.range' 0 phases).flatMap fun φ => r.phaseMsgs c phases φ p).length =
        phases * (r.size - 1) := by
      rw [length_flatMap]
      simp only [phaseMsgs, length_computeMsgs, map_const', length_range',
        sum_replicate, smul_eq_mul]
    refine correct_of_exchange (T := phases * (r.size - 1) + (r.size - 1)) (fun p =>
      ((List.range' 0 phases).flatMap fun φ => r.phaseMsgs c phases φ p) ++
        r.distributeMsgs c.offset c.count p) (fun p _ => ?_) fun p hp => ?_
    · rw [length_append, hlen, length_distributeMsgs]
    · obtain ⟨st, hcomp, hst⟩ := follows_phases hassoc hcomm (by omega) hp hphases_pos hc rfl
      obtain ⟨out, hout, hres⟩ := follows_distribution
        (fun p => (List.range' 0 phases).flatMap fun φ => r.phaseMsgs c phases φ p) hp hblocks
        (fun _ => count_le_early) (by rw [hlen, hlen]) hcomp hst
      refine ⟨out, ?_, hres⟩
      have hrank : ¬2 ^ 31 ≤ (r.args p).rank + 1 + (r.args p).size := by
        change ¬2 ^ 31 ≤ p + 1 + r.size
        omega
      rw [allreduceIntraRingSegmented]
      dsimp only
      rw [if_neg (show ¬(r.args p).size = 1 from hsize), if_neg (hmul' p), if_neg (hcount' p),
        if_neg (hpos' p)]
      change Follows ((r.args p).allocateInbuf (computeBlockcount c.early phases).early >>= _) _ _
      rw [allocateInbuf_eq hfits, pure_bind, if_neg hrank]
      exact hout

end Segmented

theorem not_correct_of_neverReturns {prog : ℕ → Script (List E) (Buf E)}
    (h : ∃ p < r.size, NeverReturns (prog p)) : ¬r.Correct prog := by
  obtain ⟨p, hp, hnever⟩ := h
  rintro ⟨out, hcomputes, -⟩
  exact not_computes_of_neverReturns hp hnever hcomputes

theorem neverReturns_recursivedoubling (hsize : r.size ≠ 1)
    (h : ¬(r.size < 2 ^ 30 ∧ r.layout.FitsUnshifted r.count)) (p : ℕ) :
    NeverReturns (r.args p).allreduceIntraRecursivedoubling := by
  rw [AllreduceArgs.allreduceIntraRecursivedoubling, if_neg (show ¬(r.args p).size = 1 from hsize)]
  by_cases hfits : r.layout.FitsUnshifted r.count
  · have hge : 2 ^ 30 ≤ r.size := not_lt.1 fun hlt => h ⟨hlt, hfits⟩
    have hpow : 2 ^ 31 ≤ nextPowerOfTwo (r.args p).size := by
      rw [nextPowerOfTwo_eq]
      exact Nat.pow_le_pow_right Nat.two_pos (Nat.lt_size.2 hge)
    refine neverReturns_bind _ fun _ => ?_
    rw [if_pos hpow]
    trivial
  · exact (neverReturns_allocateInbuf hfits).bind_left _

theorem neverReturns_ring (hpos : 0 < r.size) (hsize : r.size ≠ 1)
    (h : ¬(r.size < 2 ^ 30 ∧ r.layout.FitsUnshifted r.ringTemp)) :
    ∃ p < r.size, NeverReturns (r.args p).allreduceIntraRing := by
  have hlast : r.size - 1 < r.size := Nat.sub_lt hpos Nat.one_pos
  refine ⟨r.size - 1, hlast, ?_⟩
  rw [AllreduceArgs.allreduceIntraRing,
    if_neg (show ¬(r.args (r.size - 1)).size = 1 from hsize)]
  rw [ringTemp] at h
  by_cases hcount : r.count < r.size
  · rw [if_pos hcount] at h
    rw [if_pos (show (r.args (r.size - 1)).count < (r.args (r.size - 1)).size from hcount)]
    exact neverReturns_recursivedoubling hsize h _
  · rw [if_neg hcount] at h
    rw [if_neg (show ¬(r.args (r.size - 1)).count < (r.args (r.size - 1)).size from hcount)]
    by_cases hfits : r.layout.FitsUnshifted (computeBlockcount r.count r.size).early
    · have hge : 2 ^ 30 ≤ r.size := not_lt.1 fun hlt => h ⟨hlt, hfits⟩
      have hrank : 2 ^ 31 ≤ r.size - 1 + 1 + r.size := by omega
      refine neverReturns_bind _ fun _ => ?_
      exact (if_pos hrank).symm ▸ trivial
    · exact (neverReturns_allocateInbuf hfits).bind_left _

theorem segcount_zero (h : r.count = 0) : r.segcount = 0 := by
  rw [segcount, computedSegcount, h, if_neg fun hlt => Nat.not_lt_zero _ hlt.2]

theorem neverReturns_ringSegmented (hpos : 0 < r.size) (hsize : r.size ≠ 1)
    (h : ¬(r.size < 2 ^ 30 ∧ 0 < r.count ∧ r.size * r.segcount < 2 ^ 31 ∧
      r.layout.FitsUnshifted r.segmentedTemp)) :
    ∃ p < r.size,
      NeverReturns ((r.args p).allreduceIntraRingSegmented r.segsize r.typelng) := by
  have hunfold (p : ℕ) : (r.args p).allreduceIntraRingSegmented r.segsize r.typelng =
      if 2 ^ 31 ≤ r.size * r.segcount then fault
      else if r.count < r.size * r.segcount then (r.args p).allreduceIntraRing
      else if r.size * r.segcount = 0 then fault
      else _ := if_neg hsize
  by_cases hmul : 2 ^ 31 ≤ r.size * r.segcount
  · refine ⟨0, hpos, ?_⟩
    rw [hunfold, if_pos hmul]
    trivial
  rw [segmentedTemp] at h
  by_cases hcount : r.count < r.size * r.segcount
  · have hne : 0 < r.count := by
      refine Nat.pos_of_ne_zero fun hzero => ?_
      rw [segcount_zero hzero, Nat.mul_zero] at hcount
      exact Nat.not_lt_zero _ hcount
    rw [if_pos hcount] at h
    obtain ⟨p, hp, hnever⟩ := neverReturns_ring (r := r) hpos hsize
      fun hring => h ⟨hring.1, hne, not_le.1 hmul, hring.2⟩
    refine ⟨p, hp, ?_⟩
    rw [hunfold, if_neg hmul, if_pos hcount]
    exact hnever
  · refine ⟨r.size - 1, Nat.sub_lt hpos Nat.one_pos, ?_⟩
    rw [hunfold, if_neg hmul, if_neg hcount]
    rw [if_neg hcount] at h
    by_cases hzero : r.size * r.segcount = 0
    · rw [if_pos hzero]
      trivial
    · rw [if_neg hzero]
      have hne : 0 < r.count := by
        refine Nat.pos_of_ne_zero fun hc => hzero ?_
        rw [segcount_zero hc, Nat.mul_zero]
      by_cases hfits : r.layout.FitsUnshifted (computeBlockcount
          (computeBlockcount r.count r.size).early
            (AllreduceArgs.numPhases r.count r.size r.segcount)).early
      · have hge : 2 ^ 30 ≤ r.size := not_lt.1 fun hlt => h ⟨hlt, hne, not_le.1 hmul, hfits⟩
        have hrank : 2 ^ 31 ≤ r.size - 1 + 1 + r.size := by omega
        refine neverReturns_bind _ fun _ => ?_
        exact (if_pos hrank).symm ▸ trivial
      · exact (neverReturns_allocateInbuf hfits).bind_left _

end AllreduceCall

/-- The three algorithms leave the reduction in all the receive buffers as long as the sizes and
products that they compute are `int`s, the elements are inside of the temporary buffers, and the
segmented one is given an element to reduce. -/
theorem allreduce_agree {E : Type} (r : AllreduceCall E) (hsize : 0 < r.size)
    (hassoc : ∀ x y z, r.op (r.op x y) z = r.op x (r.op y z)) :
    ((r.Correct fun p => (r.args p).allreduceIntraRecursivedoubling) ↔
      r.size = 1 ∨ r.size < 2 ^ 30 ∧ r.layout.FitsUnshifted r.count) ∧
    ((∀ x y, r.op x y = r.op y x) →
      ((r.Correct fun p => (r.args p).allreduceIntraRing) ↔
        r.size = 1 ∨ r.size < 2 ^ 30 ∧ r.layout.FitsUnshifted r.ringTemp) ∧
      ((r.Correct fun p => (r.args p).allreduceIntraRingSegmented r.segsize r.typelng) ↔
        r.size = 1 ∨ r.size < 2 ^ 30 ∧ 0 < r.count ∧ r.size * r.segcount < 2 ^ 31 ∧
          r.layout.FitsUnshifted r.segmentedTemp)) := by
  by_cases hone : r.size = 1
  · simp only [hone, true_or, iff_true]
    refine ⟨correct_of_size_one hone fun p => ?_, fun _ =>
      ⟨correct_of_size_one hone fun p => ?_, correct_of_size_one hone fun p => ?_⟩⟩
    · rw [AllreduceArgs.allreduceIntraRecursivedoubling]
      exact if_pos hone
    · rw [AllreduceArgs.allreduceIntraRing]
      exact if_pos hone
    · rw [AllreduceArgs.allreduceIntraRingSegmented]
      exact if_pos hone
  · simp only [hone, false_or]
    refine ⟨⟨fun h => ?_, fun h => correct_recursivedoubling hassoc hsize h.1 h.2⟩,
      fun hcomm => ⟨⟨fun h => ?_, fun h => correct_ring hassoc hcomm hsize hone h.1 h.2⟩,
        fun h => ?_, fun h => ?_⟩⟩
    · by_contra hcon
      exact not_correct_of_neverReturns
        ⟨0, hsize, neverReturns_recursivedoubling hone hcon 0⟩ h
    · by_contra hcon
      exact not_correct_of_neverReturns (neverReturns_ring hsize hone hcon) h
    · by_contra hcon
      exact not_correct_of_neverReturns (neverReturns_ringSegmented hsize hone hcon) h
    · obtain ⟨hint, hcount, hmul, hfits⟩ := h
      have hpos : 0 < r.size * r.segcount := Nat.mul_pos hsize (computedSegcount_pos hcount)
      exact correct_ringSegmented hassoc hcomm hone hint hpos hmul hfits

/-- Five processes add seven numbers, in segments of one element. -/
def sumCall : AllreduceCall ℕ where
  op := (· + ·)
  size := 5
  count := 7
  segsize := 4
  typelng := 4
  layout := ⟨0, 4, 0, 4⟩
  inPlace rank := rank = 2
  data rank j := rank + j
  rbuf _ _ := 0
  garbage _ _ := 0

theorem allreduce_agree_sum :
    (sumCall.Correct fun p => (sumCall.args p).allreduceIntraRecursivedoubling) ∧
    (sumCall.Correct fun p => (sumCall.args p).allreduceIntraRing) ∧
    sumCall.Correct fun p =>
      (sumCall.args p).allreduceIntraRingSegmented sumCall.segsize sumCall.typelng := by
  have h := allreduce_agree sumCall (by decide) Nat.add_assoc
  have h' := h.2 Nat.add_comm
  exact ⟨h.1.2 (by decide), h'.1.2 (by decide), h'.2.2 (by decide)⟩

/-- `1024` processes with `2 ^ 22` elements and no segments: the product is `2 ^ 32`. -/
theorem not_correct_ringSegmented : ¬∀ (E : Type) (r : AllreduceCall E), 0 < r.size →
      (∀ x y z, r.op (r.op x y) z = r.op x (r.op y z)) → (∀ x y, r.op x y = r.op y x) →
      r.Correct fun p => (r.args p).allreduceIntraRingSegmented r.segsize r.typelng := by
  intro h
  refine not_correct_of_neverReturns (neverReturns_ringSegmented ?_ ?_ ?_)
    (h ℕ { sumCall with size := 1024, count := 2 ^ 22, segsize := 0 } (by decide) Nat.add_assoc
      Nat.add_comm)
  · decide
  · decide
  · rintro ⟨-, -, hmul, -⟩
    exact absurd hmul (by decide)

end Ulfm
