import Ulfm.Tuned.AllgatherDoubling
import Ulfm.Tuned.AllgatherNeighbors

/-!
# The allgather algorithms agree

As long as no `int` overflows, the four algorithms leave the same blocks in the receive buffers. The
algorithm of Bruck is the first one that fails when the blocks become larger: its messages and its
copies are as long as nearly all the blocks together, while recursive doubling sends half of them,
the neighbour exchange two and the ring one.
-/

namespace Ulfm

namespace AllgatherCall

variable {E : Type}

structure Agree (r : AllgatherCall E) : Prop where
  bruck : r.Correct fun p => (r.args p).allgatherIntraBruck
  recursivedoubling : r.Correct fun p => (r.args p).allgatherIntraRecursivedoubling
  ring : r.Correct fun p => (r.args p).allgatherIntraRing
  neighborexchange : r.Correct fun p => (r.args p).allgatherIntraNeighborexchange

theorem agree_of_lt {r : AllgatherCall E} (hsize : r.size < 2 ^ 30)
    (hcount : (r.size - 1) * r.rcount < 2 ^ 31) (hfits : r.ShiftFits) : r.Agree where
  bruck := correct_bruck_iff.2 ⟨hsize.le, hcount, hfits⟩
  recursivedoubling := by
    refine correct_recursivedoubling_iff.2 ⟨hsize, ?_⟩
    have hpos := r.sizePos
    split_ifs
    · exact (Nat.mul_le_mul_right _ (by omega)).trans_lt hcount
    · exact ⟨hcount, hfits⟩
  ring := correct_ring_iff.2 hsize.le
  neighborexchange := by
    apply correct_neighborexchange_iff.2
    rcases Nat.lt_or_ge 2 r.size with htwo | htwo
    · refine Or.inr ⟨hsize, fun _ => ?_⟩
      have hle : 2 * r.rcount ≤ (r.size - 1) * r.rcount := Nat.mul_le_mul_right _ (by omega)
      omega
    · exact Or.inl htwo

/-- The algorithms agree exactly if the number of processes and the length of all the blocks but
one are small enough and the temporary buffers hold the blocks, and each of them has its own
bound. -/
theorem allgather_iff (r : AllgatherCall E) :
    (r.Agree ↔ r.size < 2 ^ 30 ∧ (r.size - 1) * r.rcount < 2 ^ 31 ∧ r.ShiftFits) ∧
    ((r.Correct fun p => (r.args p).allgatherIntraBruck) ↔
      r.size ≤ 2 ^ 30 ∧ (r.size - 1) * r.rcount < 2 ^ 31 ∧ r.ShiftFits) ∧
    ((r.Correct fun p => (r.args p).allgatherIntraRecursivedoubling) ↔ r.size < 2 ^ 30 ∧
      if nextPowerOfTwo r.size >>> 1 = r.size then r.size / 2 * r.rcount < 2 ^ 31
      else (r.size - 1) * r.rcount < 2 ^ 31 ∧ r.ShiftFits) ∧
    ((r.Correct fun p => (r.args p).allgatherIntraRing) ↔ r.size ≤ 2 ^ 30) ∧
    ((r.Correct fun p => (r.args p).allgatherIntraNeighborexchange) ↔
      r.size ≤ 2 ∨ r.size < 2 ^ 30 ∧ (r.size % 2 = 0 → r.rcount < 2 ^ 30)) := by
  refine ⟨⟨fun h => ⟨?_, (correct_bruck_iff.1 h.bruck).2⟩, fun h => agree_of_lt h.1 h.2.1 h.2.2⟩,
    correct_bruck_iff, correct_recursivedoubling_iff, correct_ring_iff,
    correct_neighborexchange_iff⟩
  exact (correct_recursivedoubling_iff.1 h.recursivedoubling).1

theorem three_pos : 0 < 3 := by decide

theorem large_lt : 2 ^ 30 < 2 ^ 31 := by decide

/-- Three processes, whose receive buffers have a block of half the range of an `int` for each. -/
def largeBlocks : AllgatherCall ℕ where
  size := 3
  sizePos := three_pos
  rcount := 2 ^ 30
  rcountInt := large_lt
  layout := ⟨0, 1, 0, 1⟩
  inPlace _ := false
  data i _ := i

/-- The ring is correct for these blocks, but the algorithm of Bruck is not. -/
theorem largeBlocks_not_agree :
    (largeBlocks.Correct fun p => (largeBlocks.args p).allgatherIntraRing) ∧
    ¬largeBlocks.Agree := by
  refine ⟨correct_ring_iff.2 (by decide), fun h => ?_⟩
  have hcount : (3 - 1) * 2 ^ 30 < 2 ^ 31 := (correct_bruck_iff.1 h.bruck).2.1
  exact absurd hcount (by decide)

end AllgatherCall

end Ulfm
