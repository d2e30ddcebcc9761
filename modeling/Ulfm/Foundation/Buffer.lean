import Mathlib.Algebra.Order.Ring.Int
import Mathlib.Data.List.Range

/-!
# Buffers and reductions

A buffer is the sequence of its elements. Parts of it are sent as lists, and are overwritten
by or reduced with the elements of a list.
-/

namespace Ulfm

open List Option Nat

variable {E : Type}

abbrev Buf (E : Type) : Type := ℕ → E

variable {b x : Buf E} {off count j : ℕ} {l : List E} {op : E → E → E}

/-- `count` elements of a buffer. -/
def slice (b : Buf E) (off count : ℕ) : List E := (range' off count).map b

/-- The buffer with the list at an offset. -/
def blit (b : Buf E) (off : ℕ) (l : List E) : Buf E := fun j =>
  if off ≤ j then (l[j - off]?).getD (b j) else b j

/-- `ompi_op_reduce`: the elements of the list are combined with those of the buffer from the
left. -/
def opReduce (op : E → E → E) (l : List E) (b : Buf E) (off : ℕ) : Buf E := fun j =>
  if off ≤ j then ((l[j - off]?).map (op · (b j))).getD (b j) else b j

@[simp]
theorem length_slice : (slice b off count).length = count := by
  rw [slice, length_map, length_range']

theorem slice_congr (h : ∀ j, off ≤ j → j < off + count → b j = x j) :
    slice b off count = slice x off count := by
  refine map_congr_left fun j hj => ?_
  obtain ⟨h₁, h₂⟩ := mem_range'_1.1 hj
  exact h j h₁ h₂

theorem getElem?_slice (h₁ : off ≤ j) (h₂ : j < off + count) :
    (slice b off count)[j - off]? = some (b j) := by
  have hlt : j - off < count := by omega
  rw [slice, getElem?_map, getElem?_range' hlt, map_some, Nat.one_mul, Nat.add_sub_cancel' h₁]

theorem blit_of_lt (h : j < off) : blit b off l j = b j := if_neg h.not_ge

theorem blit_of_ge (h : off + l.length ≤ j) : blit b off l j = b j := by
  rw [blit, getElem?_eq_none (by omega)]
  exact ite_self _

theorem blit_slice (h₁ : off ≤ j) (h₂ : j < off + count) :
    blit b off (slice x off count) j = x j := by
  rw [blit, if_pos h₁, getElem?_slice h₁ h₂, getD_some]

theorem slice_blit : slice (blit b off l) off l.length = l := by
  refine ext_getElem? fun i => ?_
  rcases lt_or_ge i l.length with h | h
  · have hsub : i = off + i - off := (Nat.add_sub_cancel_left off i).symm
    rw [hsub, getElem?_slice (Nat.le_add_right _ _) (by omega), blit,
      if_pos (Nat.le_add_right _ _), Nat.add_sub_cancel_left, getElem?_eq_getElem h]
    rfl
  · rw [getElem?_eq_none h, getElem?_eq_none (by simpa using h)]

theorem opReduce_of_lt (h : j < off) : opReduce op l b off j = b j := if_neg h.not_ge

theorem opReduce_of_ge (h : off + l.length ≤ j) : opReduce op l b off j = b j := by
  rw [opReduce, getElem?_eq_none (by omega)]
  exact ite_self _

theorem opReduce_slice (h₁ : off ≤ j) (h₂ : j < off + count) :
    opReduce op (slice x off count) b off j = op (x j) (b j) := by
  rw [opReduce, if_pos h₁, getElem?_slice h₁ h₂]
  rfl

section OpRange

variable {lo k m : ℕ}

/-- The reduction `x lo op x (lo + 1) op ... op x (lo + k)`. -/
def opRange (op : E → E → E) (x : ℕ → E) (lo : ℕ) : ℕ → E
  | 0 => x lo
  | k + 1 => op (opRange op x lo k) (x (lo + k + 1))

theorem opRange_append (hassoc : ∀ a b c, op (op a b) c = op a (op b c)) (x : ℕ → E) (lo k m : ℕ) :
    op (opRange op x lo k) (opRange op x (lo + k + 1) m) = opRange op x lo (k + 1 + m) := by
  induction m with
  | zero => rfl
  | succ m ih =>
    rw [opRange, ← hassoc, ih, ← Nat.add_assoc (k + 1), opRange]
    congr 2
    omega

theorem opRange_split (hassoc : ∀ a b c, op (op a b) c = op a (op b c)) (x : ℕ → E) {hi : ℕ}
    (hlo : lo ≤ m) (hhi : m < hi) :
    op (opRange op x lo (m - lo)) (opRange op x (m + 1) (hi - (m + 1))) =
      opRange op x lo (hi - lo) := by
  have h := opRange_append hassoc x lo (m - lo) (hi - (m + 1))
  rwa [show lo + (m - lo) + 1 = m + 1 by omega, show m - lo + 1 + (hi - (m + 1)) = hi - lo by omega]
    at h

theorem opRange_congr {x y : ℕ → E} (h : ∀ i ≤ k, x (lo + i) = y (lo + i)) :
    opRange op x lo k = opRange op y lo k := by
  induction k with
  | zero => exact h 0 (le_refl 0)
  | succ k ih =>
    have hlast : x (lo + k + 1) = y (lo + k + 1) := h (k + 1) (le_refl _)
    rw [opRange, opRange, hlast, ih fun i hi => h i (by omega)]

theorem opRange_add (x : ℕ → E) (lo d k : ℕ) :
    opRange op (fun i => x (d + i)) lo k = opRange op x (d + lo) k := by
  induction k with
  | zero => rfl
  | succ k ih =>
    rw [opRange, opRange, ih, show d + (lo + k + 1) = d + lo + k + 1 by omega]

theorem opRange_rotate (hassoc : ∀ a b c, op (op a b) c = op a (op b c))
    (hcomm : ∀ a b, op a b = op b a) (x : ℕ → E) {n d : ℕ} (hd : d < n) :
    opRange op (fun i => x ((d + i) % n)) 0 (n - 1) = opRange op x 0 (n - 1) := by
  rcases Nat.eq_zero_or_pos d with rfl | hpos
  · refine opRange_congr fun i hi => ?_
    rw [Nat.zero_add, Nat.zero_add, mod_eq_of_lt (by omega)]
  · have hsplit := opRange_split hassoc (fun i => x ((d + i) % n)) (Nat.zero_le (n - d - 1))
      (show n - d - 1 < n - 1 by omega)
    have hupper : opRange op (fun i => x ((d + i) % n)) 0 (n - d - 1 - 0) =
        opRange op x d (n - 1 - d) := by
      rw [show n - d - 1 - 0 = n - 1 - d by omega, ← Nat.add_zero d, ← opRange_add]
      refine opRange_congr fun i hi => ?_
      rw [mod_eq_of_lt (by omega), Nat.add_zero]
    have hlower : opRange op (fun i => x ((d + i) % n)) (n - d - 1 + 1) (n - 1 - (n - d - 1 + 1)) =
        opRange op x 0 (d - 1 - 0) := by
      rw [show n - d - 1 + 1 = n - d by omega, show n - 1 - (n - d) = d - 1 - 0 by omega,
        ← Nat.add_zero (n - d), ← opRange_add]
      refine opRange_congr fun i hi => ?_
      rw [show d + (n - d + (0 + i)) = i + n by omega, add_mod_right,
        mod_eq_of_lt (by omega), Nat.zero_add]
    rw [hupper, hlower, hcomm] at hsplit
    rw [← Nat.sub_zero (n - 1), ← hsplit]
    have hfull := opRange_split hassoc x (Nat.zero_le (d - 1)) (show d - 1 < n - 1 by omega)
    rwa [Nat.sub_add_cancel hpos] at hfull

end OpRange

section Blocks

/-- `count` elements are cut into `n` blocks that follow each other. -/
structure Blocks (n count : ℕ) (off cnt : ℕ → ℕ) : Prop where
  zero : off 0 = 0
  succ : ∀ b < n, off (b + 1) = off b + cnt b
  last : off n = count

namespace Blocks

variable {n count b c : ℕ} {off cnt : ℕ → ℕ}

section

variable (h : Blocks n count off cnt)
include h

theorem end_le (hbc : b < c) (hc : c ≤ n) : off b + cnt b ≤ off c := by
  induction c, hbc using le_induction with
  | base => exact (h.succ b (by omega)).ge
  | succ c hbc ih =>
    have hsucc := h.succ c (by omega)
    have hle := ih (by omega)
    omega

theorem end_le_count (hb : b < n) : off b + cnt b ≤ count :=
  (h.end_le hb (le_refl n)).trans h.last.le

theorem disjoint (hb : b < n) (hc : c < n) (hne : b ≠ c) :
    off b + cnt b ≤ off c ∨ off c + cnt c ≤ off b := by
  rcases Nat.lt_or_gt_of_ne hne with hlt | hlt
  · exact .inl (h.end_le hlt hc.le)
  · exact .inr (h.end_le hlt hb.le)

theorem exists_mem {j : ℕ} (hj : j < count) : ∃ b < n, off b ≤ j ∧ j < off b + cnt b := by
  have hex : ∀ c ≤ n, j < off c → ∃ b < c, off b ≤ j ∧ j < off b + cnt b := by
    intro c
    induction c with
    | zero =>
      intro _ hlt
      rw [h.zero] at hlt
      exact absurd hlt (Nat.not_lt_zero j)
    | succ c ih =>
      intro hc hlt
      rcases Nat.lt_or_ge j (off c) with hbefore | hbehind
      · obtain ⟨b, hb, hmem⟩ := ih (by omega) hbefore
        exact ⟨b, by omega, hmem⟩
      · exact ⟨c, lt_succ_self c, hbehind, by rwa [← h.succ c (by omega)]⟩
  exact hex n (le_refl n) (by rwa [h.last])

end

end Blocks

end Blocks

/-- Where the bytes of the elements of a datatype are: an element that begins at `0` has a byte at
`trueLb`, the last one is at `trueLb + trueExtent - 1`, and the next element begins at `extent`.
Without a byte `trueExtent` is `0`. -/
structure Layout where
  lb : ℤ
  extent : ℤ
  trueLb : ℤ
  trueExtent : ℕ

namespace Layout

variable (d : Layout)

/-- `true_extent + (count - 1) * extent`. -/
def bytes (count : ℕ) : ℤ := d.trueExtent + (count - 1) * d.extent

/-- The bytes of `count` elements, of which the first one begins at `start`, are in memory of the
given size. -/
def Inside (start size : ℤ) (count : ℕ) : Prop := d.trueExtent = 0 ∨ ∀ i < count,
  0 ≤ start + i * d.extent + d.trueLb ∧ start + i * d.extent + d.trueLb + d.trueExtent ≤ size

instance (start size : ℤ) (count : ℕ) : Decidable (d.Inside start size count) :=
  inferInstanceAs (Decidable (_ ∨ _))

/-- The condition on memory of `bytes` for as many elements from its beginning on. -/
def FitsUnshifted (count : ℕ) : Prop :=
  if count = 0 ∨ d.trueExtent = 0 then 0 ≤ d.bytes count
  else d.trueLb = 0 ∧ (0 ≤ d.extent ∨ count = 1)

/-- The condition on memory of `trueLb` more bytes, in which the elements begin at `-lb`. -/
def FitsShifted (count : ℕ) : Prop :=
  if count = 0 ∨ d.trueExtent = 0 then 0 ≤ d.trueLb + d.bytes count
  else 0 ≤ d.lb + min 0 ((count - 1) * d.extent) ∧
    d.lb ≤ d.trueLb + min 0 ((count - 1) * d.extent)

instance (count : ℕ) : Decidable (d.FitsUnshifted count) := inferInstanceAs (Decidable (ite _ _ _))

variable {d} {start size : ℤ}

theorem inside_iff (h : ¬(count = 0 ∨ d.trueExtent = 0)) : d.Inside start size count ↔
    0 ≤ start + d.trueLb + min 0 ((count - 1) * d.extent) ∧
      start + d.trueLb + d.trueExtent + max 0 ((count - 1) * d.extent) ≤ size := by
  obtain ⟨hcount, hbytes⟩ := not_or.1 h
  rw [Inside, or_iff_right hbytes]
  constructor
  · intro hall
    have hfirst := hall 0 (Nat.pos_of_ne_zero hcount)
    have hlast := hall (count - 1) (sub_lt (Nat.pos_of_ne_zero hcount) Nat.one_pos)
    rw [Nat.cast_sub (one_le_iff_ne_zero.2 hcount)] at hlast
    push_cast at hfirst hlast
    omega
  · rintro ⟨hlow, hhigh⟩ i hi
    -- the offset of an element is between those of the first and the last one
    have hle : (i : ℤ) ≤ count - 1 := by omega
    have hoffset : min 0 ((count - 1) * d.extent) ≤ i * d.extent ∧
        i * d.extent ≤ max 0 ((count - 1) * d.extent) := by
      rcases le_total 0 d.extent with hext | hext
      · have h₁ := Int.mul_nonneg (Int.natCast_nonneg i) hext
        have h₂ := Int.mul_le_mul_of_nonneg_right hle hext
        omega
      · have h₁ := Int.mul_nonpos_of_nonneg_of_nonpos (Int.natCast_nonneg i) hext
        have h₂ := Int.mul_le_mul_of_nonpos_right hle hext
        omega
    omega

theorem fitsUnshifted_iff :
    d.FitsUnshifted count ↔ 0 ≤ d.bytes count ∧ d.Inside 0 (d.bytes count) count := by
  rw [FitsUnshifted]
  split_ifs with h
  · refine (and_iff_left ?_).symm
    rcases h with rfl | h
    · exact .inr fun i hi => absurd hi (not_lt_zero i)
    · exact .inl h
  · rw [inside_iff h, bytes]
    have hsign : 0 ≤ ((count : ℤ) - 1) * d.extent ↔ 0 ≤ d.extent ∨ count = 1 := by
      obtain ⟨hcount, -⟩ := not_or.1 h
      rcases eq_or_ne count 1 with rfl | hone
      · simp
      · rw [or_iff_left hone]
        exact mul_nonneg_iff_of_pos_left (by omega)
    rw [← hsign]
    omega

theorem fitsShifted_iff : d.FitsShifted count ↔ 0 ≤ d.trueLb + d.bytes count ∧
    d.Inside (-d.lb) (d.trueLb + d.bytes count) count := by
  rw [FitsShifted]
  split_ifs with h
  · refine (and_iff_left ?_).symm
    rcases h with rfl | h
    · exact .inr fun i hi => absurd hi (not_lt_zero i)
    · exact .inl h
  · rw [inside_iff h, bytes]
    omega

end Layout

end Ulfm
