import Mathlib.Algebra.Order.BigOperators.Group.List
import Mathlib.Algebra.Order.Ring.Nat

/-!
# Cutting and reassembling

A sequence is cut into consecutive pieces, and the pieces, which carry their
offset, are written in any order into a buffer that starts out blank. A cell of
the buffer is `none` while nothing was written to it.
-/

namespace Ulfm

open List

variable {α : Type*}

structure Piece (α : Type*) where
  offset : ℕ
  data : List α

namespace Piece

variable (p : Piece α)

def stop : ℕ := p.offset + p.data.length

def Covers (i : ℕ) : Prop := p.offset ≤ i ∧ i < p.stop

/-- The piece is the part of `wire` at its offset. -/
structure Of (wire : List α) : Prop where
  nonempty : 0 < p.data.length
  bound : p.stop ≤ wire.length
  data : ∀ k < p.data.length, p.data[k]? = wire[p.offset + k]?

end Piece

/-- The pieces of `wire` from the position `start` on, one after the other. -/
def Consecutive (wire : List α) : ℕ → List (Piece α) → Prop
  | start, [] => start = wire.length
  | start, p :: ps => p.offset = start ∧ p.Of wire ∧ Consecutive wire p.stop ps

def pieceTotal (ps : List (Piece α)) : ℕ := (ps.map fun p => p.data.length).sum

@[simp] theorem pieceTotal_cons (p : Piece α) (ps : List (Piece α)) :
    pieceTotal (p :: ps) = p.data.length + pieceTotal ps := rfl

theorem pieceTotal_perm {ps qs : List (Piece α)} (h : ps.Perm qs) :
    pieceTotal ps = pieceTotal qs := (h.map _).sum_eq

namespace Consecutive

variable {wire : List α} {start : ℕ} {ps : List (Piece α)} {p : Piece α}

section

variable (h : Consecutive wire start ps)
include h

theorem of_mem (hp : p ∈ ps) : p.Of wire := by
  induction ps generalizing start with
  | nil => simp at hp
  | cons q ps ih =>
    obtain ⟨-, hq, hps⟩ := h
    obtain rfl | hp := mem_cons.1 hp
    · exact hq
    · exact ih hps hp

theorem le_offset (hp : p ∈ ps) : start ≤ p.offset := by
  induction ps generalizing start with
  | nil => simp at hp
  | cons q ps ih =>
    obtain ⟨rfl, -, hps⟩ := h
    obtain rfl | hp := mem_cons.1 hp
    · exact le_refl _
    · exact le_trans (Nat.le_add_right _ _) (ih hps hp)

theorem total : start + pieceTotal ps = wire.length := by
  induction ps generalizing start with
  | nil => exact h
  | cons q ps ih =>
    obtain ⟨rfl, -, hps⟩ := h
    have := ih hps
    simp only [Piece.stop] at this
    simp only [pieceTotal_cons]
    omega

theorem covered {i : ℕ} (hs : start ≤ i) (hi : i < wire.length) : ∃ p ∈ ps, p.Covers i := by
  induction ps generalizing start with
  | nil =>
    have hw : start = wire.length := h
    omega
  | cons q ps ih =>
    obtain ⟨rfl, -, hps⟩ := h
    by_cases hq : i < q.stop
    · exact ⟨q, by simp, hs, hq⟩
    · obtain ⟨p, hp, hc⟩ := ih hps (by omega)
      exact ⟨p, by simp [hp], hc⟩

end

end Consecutive

/-! ### The buffer -/

/-- A buffer with room for `n` elements. -/
def blank (n : ℕ) : List (Option α) := replicate n none

/-- Write a piece; a write outside the buffer is refused. -/
def writePiece (buf : List (Option α)) (p : Piece α) : Option (List (Option α)) :=
  if p.stop ≤ buf.length then
    some (buf.take p.offset ++ (p.data.map some ++ buf.drop p.stop))
  else none

/-- The first `n` elements of a buffer, when all of them have been written. -/
def readBuffer (buf : List (Option α)) (n : ℕ) : Option (List α) :=
  if n ≤ buf.length ∧ (buf.take n).all Option.isSome then some ((buf.take n).filterMap id)
  else none

section Write

variable {buf buf' : List (Option α)} {p : Piece α}

theorem writePiece_of_le (h : p.stop ≤ buf.length) :
    writePiece buf p = some (buf.take p.offset ++ (p.data.map some ++ buf.drop p.stop)) :=
  if_pos h

section

variable (h : writePiece buf p = some buf')
include h

theorem writePiece_eq_some : p.stop ≤ buf.length ∧
      buf' = buf.take p.offset ++ (p.data.map some ++ buf.drop p.stop) := by
  by_cases hp : p.stop ≤ buf.length
  · rw [writePiece_of_le hp] at h
    exact ⟨hp, (Option.some.inj h).symm⟩
  · simp [writePiece, hp] at h

theorem length_writePiece : buf'.length = buf.length := by
  obtain ⟨hp, rfl⟩ := writePiece_eq_some h
  simp only [Piece.stop] at hp
  simp [Piece.stop]
  omega

theorem getElem?_writePiece_of_covers {i : ℕ}
    (hi : p.Covers i) : buf'[i]? = p.data[i - p.offset]?.map some := by
  obtain ⟨hp, rfl⟩ := writePiece_eq_some h
  obtain ⟨hlow, hhigh⟩ := hi
  simp only [Piece.stop] at hp hhigh
  have hlen : (buf.take p.offset).length = p.offset := by simp; omega
  rw [getElem?_append_right (by omega), hlen, getElem?_append_left (by simp; omega), getElem?_map]

theorem getElem?_writePiece_of_not_covers {i : ℕ} (hi : ¬ p.Covers i) : buf'[i]? = buf[i]? := by
  obtain ⟨hp, rfl⟩ := writePiece_eq_some h
  simp only [Piece.Covers, Piece.stop] at hp hi
  have hlen : (buf.take p.offset).length = p.offset := by simp; omega
  by_cases hlt : i < p.offset
  · rw [getElem?_append_left (by omega), getElem?_take_of_lt hlt]
  · rw [getElem?_append_right (by omega), hlen, getElem?_append_right (by simp; omega),
      getElem?_drop]
    congr 1
    simp [Piece.stop]
    omega

end

theorem readBuffer_map_some (wire : List α) :
    readBuffer (wire.map some) wire.length = some wire := by
  have htake : (wire.map some).take wire.length = wire.map some := take_of_length_le (by simp)
  have hall : (wire.map some).all Option.isSome := by simp
  simp only [readBuffer, htake, hall, length_map, le_refl, and_self, if_true]
  rw [filterMap_map]
  simp

theorem readBuffer_eq_none {n i : ℕ} (hi : i < n) (h : ∀ a, buf[i]? ≠ some (some a)) :
    readBuffer buf n = none := by
  refine if_neg ?_
  rintro ⟨hn, hall⟩
  have hlt : i < buf.length := by omega
  have hmem : buf[i] ∈ buf.take n := mem_take_iff_getElem.2 ⟨i, by omega, rfl⟩
  obtain ⟨a, ha⟩ := Option.isSome_iff_exists.1 (all_eq_true.1 hall _ hmem)
  exact h a (by rw [getElem?_eq_getElem hlt, ha])

/-- Nothing was written from the position `n` on. -/
def WrittenBelow (buf : List (Option α)) (n : ℕ) : Prop :=
  ∀ (i : ℕ) (a : α), buf[i]? = some (some a) → i < n

theorem writtenBelow_blank (n : ℕ) : WrittenBelow (blank n : List (Option α)) 0 := by
  intro i a h
  simp [blank, getElem?_replicate] at h

theorem WrittenBelow.mono {m n : ℕ} (h : WrittenBelow buf m) (hmn : m ≤ n) : WrittenBelow buf n :=
  fun i a ha => lt_of_lt_of_le (h i a ha) hmn

theorem WrittenBelow.write {n : ℕ} (h : WrittenBelow buf n) (hw : writePiece buf p = some buf') :
    WrittenBelow buf' (max n p.stop) := by
  intro i a ha
  by_cases hc : p.Covers i
  · exact lt_of_lt_of_le hc.2 (le_max_right _ _)
  · rw [getElem?_writePiece_of_not_covers hw hc] at ha
    exact lt_of_lt_of_le (h i a ha) (le_max_left _ _)

theorem WrittenBelow.readBuffer {m n : ℕ} (h : WrittenBelow buf m) (hmn : m < n) :
    readBuffer buf n = none :=
  readBuffer_eq_none hmn fun a ha => absurd (h m a ha) (lt_irrefl m)

end Write

/-! ### Any order -/

/-- The buffer has received all the pieces of `wire` but those of `rest`. -/
structure Received (wire : List α) (rest : List (Piece α)) (buf : List (Option α)) (n : ℕ) :
    Prop where
  length : buf.length = wire.length
  count : n + pieceTotal rest = wire.length
  written : ∀ i < wire.length, (∀ p ∈ rest, ¬ p.Covers i) → buf[i]? = wire[i]?.map some

namespace Received

variable {wire : List α} {ps rest rest' : List (Piece α)} {buf buf' : List (Option α)}
  {p : Piece α} {n : ℕ}

theorem start (h : Consecutive wire 0 ps) : Received wire ps (blank wire.length) 0 where
  length := length_replicate
  count := h.total
  written i hi hps := by
    obtain ⟨p, hp, hc⟩ := h.covered (Nat.zero_le i) hi
    exact absurd hc (hps p hp)

theorem write (h : Received wire rest buf n) (hp : p.Of wire) (hperm : rest.Perm (p :: rest')) :
    ∃ buf', writePiece buf p = some buf' ∧ Received wire rest' buf' (n + p.data.length) := by
  have hle : p.stop ≤ buf.length := h.length ▸ hp.bound
  have hw := writePiece_of_le hle
  refine ⟨_, hw, ?_, ?_, ?_⟩
  · rw [length_writePiece hw, h.length]
  · have := h.count
    rw [pieceTotal_perm hperm, pieceTotal_cons] at this
    omega
  · intro i hi hrest
    by_cases hc : p.Covers i
    · have hk : i - p.offset < p.data.length := by
        obtain ⟨h1, h2⟩ := hc
        simp only [Piece.stop] at h2
        omega
      rw [getElem?_writePiece_of_covers hw hc, hp.data _ hk, Nat.add_sub_cancel' hc.1]
    · rw [getElem?_writePiece_of_not_covers hw hc]
      refine h.written i hi fun q hq => ?_
      obtain rfl | hq := mem_cons.1 (hperm.mem_iff.1 hq)
      · exact hc
      · exact hrest q hq

theorem eq_map (h : Received wire [] buf n) : buf = wire.map some := by
  refine ext_getElem? fun i => ?_
  rw [getElem?_map]
  by_cases hi : i < wire.length
  · exact h.written i hi (by simp)
  · have hlen := h.length
    rw [getElem?_eq_none (by omega), getElem?_eq_none (by omega)]
    rfl

theorem count_eq (h : Received wire [] buf n) : n = wire.length := h.count

theorem count_lt (h : Received wire rest buf n) (hp : p ∈ rest) (hof : p.Of wire) :
    n < wire.length := by
  have hle : p.data.length ≤ pieceTotal rest := single_le_sum (by simp) _ (mem_map_of_mem hp)
  have := h.count
  have := hof.nonempty
  omega

end Received

end Ulfm
