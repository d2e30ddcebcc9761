import Mathlib.Algebra.Order.Ring.Int
import Ulfm.Opal.Bitmap

/-!
# The bitmap as a bounded set

The bits that are set are a set of numbers: setting a bit inserts it, clearing a bit
removes it, and the search inserts the least number that is missing. The bound is
given in bits and kept in bytes, so that `opal_bitmap_set_bit` refuses most of the
bits that the bound admits.
-/

namespace Ulfm.Opal

open List

namespace Bitmap

section Bytes

open Nat

variable {x : UInt8} {j k : ℕ}

theorem toNat_mask : ∀ {j : ℕ}, j < 8 → (mask j).toNat = 2 ^ j := by decide

theorem and_mask_ne_zero_iff (hj : j < 8) : x &&& mask j ≠ 0 ↔ x.toNat.testBit j = true := by
  rw [Ne, ← UInt8.toNat_inj, UInt8.toNat_and, toNat_mask hj, and_two_pow]
  cases x.toNat.testBit j with
  | false => simp
  | true => simp

theorem testBit_or_mask (hj : j < 8) :
    (x ||| mask j).toNat.testBit k = (x.toNat.testBit k || decide (k = j)) := by
  rw [UInt8.toNat_or, testBit_or, toNat_mask hj, testBit_two_pow]
  exact congrArg _ (decide_eq_decide.2 eq_comm)

theorem testBit_and_not_mask (hj : j < 8) (hk : k < 8) :
    (x &&& ~~~mask j).toNat.testBit k = (x.toNat.testBit k && !decide (k = j)) := by
  have hnot : (~~~mask j).toNat = 2 ^ 8 - (2 ^ j + 1) := by
    rw [UInt8.toNat_not, toNat_mask hj]
    rw [Nat.sub_sub, Nat.add_comm]
    rfl
  have hlt : 2 ^ j < 2 ^ 8 := Nat.pow_lt_pow_right Nat.one_lt_two hj
  have hcomm : decide (j = k) = decide (k = j) := decide_eq_decide.2 eq_comm
  rw [UInt8.toNat_and, testBit_and, hnot, testBit_two_pow_sub_succ hlt,
    testBit_two_pow, decide_eq_true hk, Bool.true_and, hcomm]

theorem toNat_lt_of_ne (h : x ≠ 0xff) : x.toNat < 255 := by
  have hlt := x.toNat_lt
  have hne : x.toNat ≠ 255 := fun heq => h (UInt8.toNat_inj.1 heq)
  omega

theorem testBit_or_add_one_byte (h : x ≠ 0xff) : (x ||| (x + 1)).toNat.testBit k =
      (x.toNat.testBit k || decide (k = trailingOnes x.toNat)) := by
  have hlt := toNat_lt_of_ne h
  have hadd : (x + 1).toNat = x.toNat + 1 := by
    rw [UInt8.toNat_add]
    exact mod_eq_of_lt (by simp; omega)
  rw [UInt8.toNat_or, hadd, testBit_or_add_one]

theorem trailingOnes_lt (h : x ≠ 0xff) : trailingOnes x.toNat < 8 := by
  by_contra hge
  apply h
  apply UInt8.toNat_inj.1
  apply eq_of_testBit_eq
  intro i
  have hones : (255 : ℕ).testBit i = decide (i < 8) := testBit_two_pow_sub_one 8 i
  rw [show (0xff : UInt8).toNat = 255 from rfl, hones]
  by_cases hi : i < 8
  · rw [testBit_of_lt_trailingOnes (hi.trans_le (not_lt.1 hge)), decide_eq_true hi]
  · have hsmall : x.toNat < 2 ^ i :=
      x.toNat_lt.trans_le (Nat.pow_le_pow_right Nat.two_pos (not_lt.1 hi))
    rw [testBit_lt_two_pow hsmall, decide_eq_false hi]

end Bytes

section Members

open Nat Int

variable {bm : Bitmap} {b c index : ℕ} {f : UInt8 → UInt8} {granted : Bool}

/-- The array is there and has the size that is kept for it. -/
structure Sized (bm : Bitmap) : Prop where
  bitmap : bm.bitmap = some bm.bytes
  length : bm.bytes.length = bm.arraySize
  pos : 0 < bm.arraySize

/-- The bit is one of the array and is set. -/
def Holds (bm : Bitmap) (b : ℕ) : Prop :=
  ∃ x, bm.bytes[b / 8]? = some x ∧ x.toNat.testBit (b % 8) = true

theorem Holds.lt_length (h : Holds bm b) : b / 8 < bm.bytes.length := by
  obtain ⟨x, hx, -⟩ := h
  exact (List.getElem?_eq_some_iff.1 hx).1

theorem isSetBit_of_neg {b : ℤ} (hb : b < 0) : bm.isSetBit b = false := by
  have hout : bm.outOfRange b = true := decide_eq_true (.inl hb)
  unfold isSetBit
  rw [if_pos hout]

theorem outOfRange_natCast (bm : Bitmap) (b : ℕ) :
    bm.outOfRange b = decide (bm.arraySize ≤ b / 8) := by
  unfold outOfRange sizeOfChar
  apply decide_eq_decide.2
  rw [toNat_natCast]
  omega

theorem isSetBit_iff (h : Sized bm) (b : ℕ) : bm.isSetBit b = true ↔ Holds bm b := by
  unfold isSetBit Holds sizeOfChar
  rw [outOfRange_natCast, toNat_natCast]
  by_cases hb : bm.arraySize ≤ b / 8
  · rw [if_pos (decide_eq_true hb), getElem?_eq_none (h.length.trans_le hb)]
    simp
  · have hlt : b / 8 < bm.bytes.length := h.length ▸ not_le.1 hb
    have hmod : b % 8 < 8 := mod_lt b (by decide)
    simp only [if_neg (fun heq => hb (of_decide_eq_true heq))]
    rw [getD_eq_getElem _ _ hlt, getElem?_eq_getElem hlt, decide_eq_true_iff,
      and_mask_ne_zero_iff hmod]
    simp

theorem bytes_update (bm : Bitmap) (index : ℕ) (f : UInt8 → UInt8) :
    (bm.update index f).bytes = bm.bytes.modify index f := by
  unfold update bytes
  cases bm.bitmap with
  | none => simp
  | some l => rfl

theorem Sized.update (h : Sized bm) (index : ℕ) (f : UInt8 → UInt8) :
    Sized (bm.update index f) := by
  refine ⟨?_, ?_, h.pos⟩
  · rw [bytes_update]
    unfold Bitmap.update
    rw [h.bitmap]
    rfl
  · rw [bytes_update, length_modify]
    exact h.length

theorem holds_update_ne (hc : c / 8 ≠ index) : Holds (bm.update index f) c ↔ Holds bm c := by
  unfold Holds
  rw [bytes_update, getElem?_modify_ne _ _ hc.symm]

theorem holds_update_eq : Holds (bm.update (c / 8) f) c ↔
      ∃ x, bm.bytes[c / 8]? = some x ∧ (f x).toNat.testBit (c % 8) = true := by
  unfold Holds
  rw [bytes_update, getElem?_modify_eq]
  simp

theorem holds_set (hb : b / 8 < bm.bytes.length) :
    Holds (bm.update (b / 8) (· ||| mask (b % 8))) c ↔ c = b ∨ Holds bm c := by
  have hmod : b % 8 < 8 := mod_lt b (by decide)
  by_cases hc : c / 8 = b / 8
  · have hiff : c % 8 = b % 8 ↔ c = b := by omega
    rw [← hc, holds_update_eq]
    unfold Holds
    rw [hc, getElem?_eq_getElem hb]
    simp only [Option.some.injEq, exists_eq_left', testBit_or_mask hmod, Bool.or_eq_true,
      decide_eq_true_eq, hiff]
    exact or_comm
  · have hne : c ≠ b := fun heq => hc (heq ▸ rfl)
    rw [holds_update_ne hc]
    simp [hne]

theorem holds_clear : Holds (bm.update (b / 8) (· &&& ~~~mask (b % 8))) c ↔ c ≠ b ∧ Holds bm c := by
  have hmod : b % 8 < 8 := mod_lt b (by decide)
  by_cases hc : c / 8 = b / 8
  · have hiff : c % 8 = b % 8 ↔ c = b := by omega
    rw [← hc, holds_update_eq]
    unfold Holds
    simp only [testBit_and_not_mask hmod (mod_lt c (by decide)), hiff]
    simp [and_comm, and_assoc]
  · have hne : c ≠ b := fun heq => hc (heq ▸ rfl)
    rw [holds_update_ne hc]
    simp [hne]

theorem holds_carry {i : ℕ} {x : UInt8} (hx : bm.bytes[i]? = some x) (hne : x ≠ 0xff) :
    Holds (bm.update i fun x => x ||| (x + 1)) c ↔
      c = trailingOnes x.toNat + i * 8 ∨ Holds bm c := by
  have hlt := trailingOnes_lt hne
  by_cases hc : c / 8 = i
  · subst hc
    have hiff : c % 8 = trailingOnes x.toNat ↔ c = trailingOnes x.toNat + c / 8 * 8 := by omega
    rw [holds_update_eq]
    unfold Holds
    simp only [hx, Option.some.injEq, exists_eq_left', testBit_or_add_one_byte hne,
      Bool.or_eq_true, decide_eq_true_eq, hiff]
    exact or_comm
  · have hother : c ≠ trailingOnes x.toNat + i * 8 := by omega
    rw [holds_update_ne hc]
    simp [hother]

theorem Sized.grow (h : Sized bm) (hindex : bm.arraySize ≤ index) :
    ∃ bm', bm.reach index true = (bm', true) ∧ Sized bm' ∧ index < bm'.arraySize ∧
      bm'.maxSize = bm.maxSize ∧ ∀ c, Holds bm' c ↔ Holds bm c := by
  have hnew : index < bm.newSize index := by
    unfold newSize
    rw [Nat.mul_comm]
    exact lt_mul_div_succ index h.pos
  unfold reach
  rw [if_pos hindex, if_neg Bool.noConfusion]
  refine ⟨_, rfl, ⟨rfl, ?_, (Nat.zero_le index).trans_lt hnew⟩, hnew, rfl, fun c => ?_⟩
  · change (bm.bytes ++ List.replicate _ 0).length = bm.newSize index
    rw [length_append, length_replicate, h.length]
    exact Nat.add_sub_cancel' (hindex.trans hnew.le)
  · unfold Holds
    change (∃ x, (bm.bytes ++ List.replicate _ 0)[c / 8]? = some x ∧ _) ↔ _
    by_cases hc : c / 8 < bm.bytes.length
    · rw [getElem?_append_left hc]
    · rw [getElem?_append_right (not_lt.1 hc), getElem?_replicate, getElem?_eq_none (not_lt.1 hc)]
      split_ifs
      · simp
      · rfl

theorem reach_within (h : index < bm.arraySize) : bm.reach index granted = (bm, true) := by
  rw [reach, if_neg (not_le.2 h)]

theorem reach_refused (h : bm.arraySize ≤ index) :
    bm.reach index false = ({ bm with bitmap := none }, false) := by
  rw [reach, if_pos h, if_pos rfl]

end Members

section Results

variable {bm bm' : Bitmap} {granted : Bool} {b n p q : ℤ}

inductive Op
  | setBit (bit : ℤ) (granted : Bool)
  | clearBit (bit : ℤ)
  | findAndSetFirstUnsetBit (granted : Bool)
  | clearAllBits
  | setAllBits
  | bitwiseAndInplace (right : Bitmap)
  | bitwiseOrInplace (right : Bitmap)
  | bitwiseXorInplace (right : Bitmap)

def step (bm : Bitmap) : Op → Bitmap
  | .setBit bit granted => (bm.setBit bit granted).1
  | .clearBit bit => (bm.clearBit bit).1
  | .findAndSetFirstUnsetBit granted => (bm.findAndSetFirstUnsetBit granted).1
  | .clearAllBits => bm.clearAllBits
  | .setAllBits => bm.setAllBits
  | .bitwiseAndInplace right => (bm.bitwiseAndInplace right).1
  | .bitwiseOrInplace right => (bm.bitwiseOrInplace right).1
  | .bitwiseXorInplace right => (bm.bitwiseXorInplace right).1

open Nat Int

/-- A bit is set, and all others are what they were. -/
structure SetsOnly (bm bm' : Bitmap) (b : ℤ) : Prop where
  set : bm'.isSetBit b = true
  other : ∀ c, c ≠ b → bm'.isSetBit c = bm.isSetBit c

structure LeastUnset (bm : Bitmap) (p : ℤ) : Prop where
  nonneg : 0 ≤ p
  unset : bm.isSetBit p = false
  below : ∀ c, 0 ≤ c → c < p → bm.isSetBit c = true

/-- What `opal_bitmap_set_bit` promises. -/
def Inserted (n : ℤ) (bm : Bitmap) (b : ℤ) (result : Bitmap × Code) : Prop :=
  (result.2 = .success ↔ 0 ≤ b ∧ b < n) ∧
    (result.2 = .success → SetsOnly bm result.1 b) ∧ (result.2 ≠ .success → result.1 = bm)

/-- What `opal_bitmap_find_and_set_first_unset_bit` promises. -/
def Found (n : ℤ) (bm : Bitmap) (result : Bitmap × Code × ℕ) : Prop :=
  ∃ p, LeastUnset bm p ∧ (p < n ∧ result.2 = (.success, p.toNat) ∧ SetsOnly bm result.1 p ∨
      n ≤ p ∧ result.2.1 ≠ .success ∧ result.1 = bm)

/-- A call behaves like one on a set of numbers below `n`. -/
def Kept (n : ℤ) (bm : Bitmap) : Op → Prop
  | .setBit b granted => Inserted n bm b (bm.setBit b granted)
  | .clearBit b => ∀ c, (bm.clearBit b).1.isSetBit c = true ↔ c ≠ b ∧ bm.isSetBit c = true
  | .findAndSetFirstUnsetBit granted => Found n bm (bm.findAndSetFirstUnsetBit granted)
  | _ => True

/-- The array has room for a bit, or gets it. -/
def Room (bm : Bitmap) (b : ℤ) (granted : Bool) : Prop :=
  b ≤ bm.maxSize ∧ (b < bm.arraySize * 8 ∨ granted = true)

/-- The first bit beyond the array is below both bounds and has room, or is below neither. -/
def FitsNext (n : ℤ) (bm : Bitmap) (granted : Bool) : Prop :=
  (bm.arraySize * 8 : ℕ) < n ∧ Room bm (bm.arraySize * 8 : ℕ) granted ∨
    bm.maxSize < (bm.arraySize * 8 : ℕ) ∧ n ≤ (bm.arraySize * 8 : ℕ)

/-- The bound in bytes says of a bit what the bound in bits does. -/
def Fits (n : ℤ) (bm : Bitmap) : Op → Prop
  | .setBit b granted =>
    b < 0 ∨ (0 ≤ b ∧ b < n ∧ Room bm b granted) ∨ (bm.maxSize < b ∧ n ≤ b)
  | .findAndSetFirstUnsetBit granted =>
    (∃ c : ℤ, 0 ≤ c ∧ c < n ∧ c < (bm.arraySize * 8 : ℕ) ∧ bm.isSetBit c = false) ∨
      (∀ x ∈ bm.bytes, x = 0xff) ∧ FitsNext n bm granted
  | _ => True

theorem Sized.isSetBit_eq (h : Sized bm) (h' : Sized bm') {c : ℕ}
    (hiff : Holds bm' c ↔ Holds bm c) : bm'.isSetBit c = bm.isSetBit c := by
  apply Bool.eq_iff_iff.2
  rw [isSetBit_iff h', isSetBit_iff h]
  exact hiff

theorem setsOnly_of_holds (h : Sized bm) (h' : Sized bm') {b : ℕ}
    (hiff : ∀ c, Holds bm' c ↔ c = b ∨ Holds bm c) : SetsOnly bm bm' b := by
  refine ⟨(isSetBit_iff h' b).2 ((hiff b).2 (.inl rfl)), fun c hc => ?_⟩
  by_cases hneg : c < 0
  · rw [isSetBit_of_neg hneg, isSetBit_of_neg hneg]
  · obtain ⟨c, rfl⟩ := eq_ofNat_of_zero_le (not_lt.1 hneg)
    have hne : c ≠ b := fun heq => hc (heq ▸ rfl)
    apply h.isSetBit_eq h'
    rw [hiff]
    simp [hne]

theorem Sized.setBit (h : Sized bm) {b : ℕ} (hroom : Room bm b granted) :
    ∃ bm', bm.setBit b granted = (bm', .success) ∧ Sized bm' ∧ bm'.maxSize = bm.maxSize ∧
      SetsOnly bm bm' b := by
  obtain ⟨hmax, hroom⟩ := hroom
  have hparam : ¬((b : ℤ) < 0 ∨ bm.maxSize < b) := by omega
  have hreach : ∃ bm', bm.reach (b / 8) granted = (bm', true) ∧ Sized bm' ∧
      b / 8 < bm'.arraySize ∧ bm'.maxSize = bm.maxSize ∧ ∀ c, Holds bm' c ↔ Holds bm c := by
    by_cases hin : b / 8 < bm.arraySize
    · exact ⟨bm, reach_within hin, h, hin, rfl, fun _ => Iff.rfl⟩
    · have hgranted : granted = true := by
        obtain hlt | hgranted := hroom
        · omega
        · exact hgranted
      rw [hgranted]
      exact h.grow (not_lt.1 hin)
  obtain ⟨bm', hreach, hsized, hin, hkept, hsame⟩ := hreach
  have hlt : b / 8 < bm'.bytes.length := hsized.length ▸ hin
  refine ⟨bm'.update (b / 8) (· ||| mask (b % 8)), ?_, hsized.update _ _, hkept, ?_⟩
  · unfold Bitmap.setBit sizeOfChar
    rw [if_neg hparam]
    simp only [toNat_natCast, hreach]
  · apply setsOnly_of_holds h (hsized.update _ _)
    intro c
    rw [holds_set hlt, hsame]

theorem setBit_badParam (hb : b < 0 ∨ bm.maxSize < b) :
    bm.setBit b granted = (bm, .errBadParam) := by
  rw [setBit, if_pos hb]

theorem setBit_refused (hmax : ¬(b < 0 ∨ bm.maxSize < b)) (hb : bm.arraySize * 8 ≤ b) :
    bm.setBit b false = ({ bm with bitmap := none }, .errOutOfResource) := by
  have hindex : bm.arraySize ≤ b.toNat / 8 := by omega
  unfold setBit sizeOfChar
  rw [if_neg hmax]
  simp only [reach_refused hindex]

theorem Sized.ne_lost (h : Sized bm) : { bm with bitmap := none } ≠ bm := by
  intro heq
  exact nomatch (congrArg Bitmap.bitmap heq).trans h.bitmap

theorem inserted_success (h : SetsOnly bm bm' b) :
    Inserted n bm b (bm', .success) ↔ 0 ≤ b ∧ b < n := by
  constructor
  · intro hinserted
    exact hinserted.1.1 rfl
  · intro hb
    exact ⟨iff_of_true rfl hb, fun _ => h, fun hne => absurd rfl hne⟩

theorem inserted_badParam : Inserted n bm b (bm, .errBadParam) ↔ ¬(0 ≤ b ∧ b < n) := by
  constructor
  · intro hinserted hb
    exact nomatch hinserted.1.2 hb
  · intro hb
    exact ⟨iff_of_false nofun hb, nofun, fun _ => rfl⟩

theorem Sized.kept_setBit_iff (h : Sized bm) :
    Kept n bm (.setBit b granted) ↔ Fits n bm (.setBit b granted) := by
  change Inserted n bm b (bm.setBit b granted) ↔
    b < 0 ∨ (0 ≤ b ∧ b < n ∧ Room bm b granted) ∨ (bm.maxSize < b ∧ n ≤ b)
  by_cases hparam : b < 0 ∨ bm.maxSize < b
  · rw [setBit_badParam hparam, inserted_badParam]
    unfold Room
    omega
  · obtain ⟨hneg, hmax⟩ := not_or.1 hparam
    by_cases hroom : Room bm b granted
    · obtain ⟨b, rfl⟩ := eq_ofNat_of_zero_le (not_lt.1 hneg)
      obtain ⟨bm', hset, -, -, hsets⟩ := h.setBit hroom
      rw [hset, inserted_success hsets]
      simp only [hneg, hmax, hroom, and_true, false_and, or_false, false_or]
    · unfold Room at hroom
      have hgranted : granted = false := by
        by_contra htrue
        exact hroom ⟨not_lt.1 hmax, .inr (eq_true_of_ne_false htrue)⟩
      have hb : bm.arraySize * 8 ≤ b := by omega
      rw [hgranted, setBit_refused hparam hb]
      apply iff_of_false
      · intro hinserted
        exact h.ne_lost (hinserted.2.2 nofun)
      · unfold Room
        simp only [Bool.false_eq_true, or_false]
        omega

theorem Sized.kept_clearBit (h : Sized bm) : Kept n bm (.clearBit b) := by
  intro c
  unfold Bitmap.clearBit sizeOfChar
  split_ifs with hout
  · have hunset : bm.isSetBit b = false := by
      unfold isSetBit
      rw [if_pos hout]
    constructor
    · intro hc
      exact ⟨fun heq => Bool.noConfusion (hunset.symm.trans (heq ▸ hc)), hc⟩
    · intro hc
      exact hc.2
  · by_cases hneg : c < 0
    · simp only [isSetBit_of_neg hneg]
      simp
    · have hb : 0 ≤ b := by
        by_contra hlt
        exact hout (decide_eq_true (.inl (not_le.1 hlt)))
      obtain ⟨b, rfl⟩ := eq_ofNat_of_zero_le hb
      obtain ⟨c, rfl⟩ := eq_ofNat_of_zero_le (not_lt.1 hneg)
      simp only [toNat_natCast]
      rw [isSetBit_iff (h.update _ _), isSetBit_iff h, holds_clear]
      simp

theorem LeastUnset.unique (h : LeastUnset bm p) (h' : LeastUnset bm q) : p = q := by
  apply le_antisymm
  · by_contra hlt
    exact Bool.noConfusion (h'.unset.symm.trans (h.below q h'.nonneg (not_le.1 hlt)))
  · by_contra hlt
    exact Bool.noConfusion (h.unset.symm.trans (h'.below p h.nonneg (not_le.1 hlt)))

theorem holds_of_full {c : ℕ} (hc : bm.bytes[c / 8]? = some 0xff) : Holds bm c := by
  refine ⟨0xff, hc, ?_⟩
  have hones : (255 : ℕ).testBit (c % 8) = decide (c % 8 < 8) := testBit_two_pow_sub_one 8 _
  exact hones.trans (decide_eq_true (mod_lt c (by decide)))

theorem full_of_scan {i c : ℕ} (hi : ∀ k, k < i → ¬EntryMeets (· != 0xff) bm.bytes k)
    (hc : c / 8 < i) (hlt : c / 8 < bm.bytes.length) : Holds bm c := by
  apply holds_of_full
  rw [getElem?_eq_getElem hlt]
  by_contra hne
  apply hi _ hc
  refine ⟨_, getElem?_eq_getElem hlt, ?_⟩
  exact bne_iff_ne.2 fun heq => hne (congrArg some heq)

theorem Sized.leastUnset_of_full (h : Sized bm)
    (hscan : scanFrom (· != 0xff) bm.bytes 0 = none) : LeastUnset bm (bm.arraySize * 8 : ℕ) := by
  have hnone := scanFrom_eq_none_iff.1 hscan
  refine ⟨natCast_nonneg _, ?_, fun c hc hlt => ?_⟩
  · apply Bool.eq_false_of_not_eq_true
    rw [isSetBit_iff h]
    intro hholds
    have hlen := hholds.lt_length
    rw [h.length] at hlen
    omega
  · obtain ⟨c, rfl⟩ := eq_ofNat_of_zero_le hc
    rw [isSetBit_iff h]
    have hin : c / 8 < bm.bytes.length := by
      rw [h.length]
      omega
    exact full_of_scan (fun k _ => hnone k (Nat.zero_le k)) hin hin

theorem Sized.leastUnset_of_scan (h : Sized bm) {i : ℕ} {x : UInt8}
    (hscan : scanFrom (· != 0xff) bm.bytes 0 = some i) (hx : bm.bytes[i]? = some x)
    (hne : x ≠ 0xff) : LeastUnset bm (trailingOnes x.toNat + i * 8 : ℕ) := by
  obtain ⟨-, -, hbefore⟩ := scanFrom_eq_some_iff.1 hscan
  have hlt := trailingOnes_lt hne
  have hin := (List.getElem?_eq_some_iff.1 hx).1
  refine ⟨natCast_nonneg _, ?_, fun c hc hcp => ?_⟩
  · apply Bool.eq_false_of_not_eq_true
    rw [isSetBit_iff h]
    rintro ⟨y, hy, hbit⟩
    have hdiv : (trailingOnes x.toNat + i * 8) / 8 = i := by omega
    have hmod : (trailingOnes x.toNat + i * 8) % 8 = trailingOnes x.toNat := by omega
    rw [hdiv, hx] at hy
    rw [hmod, ← Option.some.inj hy, testBit_trailingOnes] at hbit
    exact Bool.noConfusion hbit
  · obtain ⟨c, rfl⟩ := eq_ofNat_of_zero_le hc
    rw [isSetBit_iff h]
    by_cases hci : c / 8 < i
    · exact full_of_scan (fun k hk => hbefore k (Nat.zero_le k) hk) hci (hci.trans hin)
    · have hdiv : c / 8 = i := by omega
      refine ⟨x, hdiv ▸ hx, testBit_of_lt_trailingOnes ?_⟩
      omega

theorem found_of_leastUnset {result : Bitmap × Code × ℕ} (hp : LeastUnset bm p) :
    Found n bm result ↔ p < n ∧ result.2 = (.success, p.toNat) ∧ SetsOnly bm result.1 p ∨
        n ≤ p ∧ result.2.1 ≠ .success ∧ result.1 = bm := by
  constructor
  · intro ⟨q, hq, hfound⟩
    rw [hp.unique hq]
    exact hfound
  · intro hfound
    exact ⟨p, hp, hfound⟩

theorem findAndSet_of_full (hscan : scanFrom (· != 0xff) bm.bytes 0 = none) :
    bm.findAndSetFirstUnsetBit granted =
      ((bm.setBit (bm.arraySize * 8 : ℕ) granted).1, (bm.setBit (bm.arraySize * 8 : ℕ) granted).2,
        bm.arraySize * 8) := by
  rw [findAndSetFirstUnsetBit, hscan]
  rfl

theorem findAndSet_of_scan {i : ℕ} {x : UInt8}
    (hscan : scanFrom (· != 0xff) bm.bytes 0 = some i) (hx : bm.bytes[i]? = some x) :
    bm.findAndSetFirstUnsetBit granted =
      (bm.update i fun x => x ||| (x + 1), .success, trailingOnes x.toNat + i * 8) := by
  have hget : bm.bytes.getD i 0 = x := by
    rw [getD_eq_getElem?_getD, hx]
    rfl
  rw [findAndSetFirstUnsetBit, hscan]
  simp only [hget]
  rfl

section

variable (h : Sized bm)
include h

theorem Sized.found_full_iff (hscan : scanFrom (· != 0xff) bm.bytes 0 = none) :
    Found n bm (bm.findAndSetFirstUnsetBit granted) ↔ FitsNext n bm granted := by
  unfold FitsNext
  rw [found_of_leastUnset (h.leastUnset_of_full hscan), findAndSet_of_full hscan]
  by_cases hroom : Room bm (bm.arraySize * 8 : ℕ) granted
  · obtain ⟨bm', hset, -, -, hsets⟩ := h.setBit hroom
    have hmax := hroom.1
    rw [hset]
    constructor
    · rintro (⟨hlt, -⟩ | ⟨-, hcode, -⟩)
      · exact .inl ⟨hlt, hroom⟩
      · exact absurd rfl hcode
    · rintro (⟨hlt, -⟩ | ⟨hmax', -⟩)
      · exact .inl ⟨hlt, rfl, hsets⟩
      · exact absurd hmax hmax'.not_ge
  · by_cases hmax : bm.maxSize < (bm.arraySize * 8 : ℕ)
    · rw [setBit_badParam (.inr hmax)]
      constructor
      · rintro (⟨-, hcode, -⟩ | ⟨hle, -⟩)
        · exact nomatch hcode
        · exact .inr ⟨hmax, hle⟩
      · rintro (⟨-, hroom'⟩ | ⟨-, hle⟩)
        · exact absurd hroom' hroom
        · exact .inr ⟨hle, nofun, rfl⟩
    · have hgranted : granted = false := by
        by_contra htrue
        exact hroom ⟨not_lt.1 hmax, .inr (eq_true_of_ne_false htrue)⟩
      have hparam : ¬((bm.arraySize * 8 : ℕ) < (0 : ℤ) ∨ bm.maxSize < (bm.arraySize * 8 : ℕ)) := by
        omega
      rw [hgranted, setBit_refused hparam (natCast_mul _ _).ge]
      rw [hgranted] at hroom
      constructor
      · rintro (⟨-, hcode, -⟩ | ⟨-, -, hsame⟩)
        · exact nomatch hcode
        · exact absurd hsame h.ne_lost
      · rintro (⟨-, hroom'⟩ | ⟨hmax', -⟩)
        · exact absurd hroom' hroom
        · exact absurd hmax' hmax

theorem Sized.kept_find_iff : Kept n bm (.findAndSetFirstUnsetBit granted) ↔
      Fits n bm (.findAndSetFirstUnsetBit granted) := by
  change Found n bm (bm.findAndSetFirstUnsetBit granted) ↔
    (∃ c : ℤ, 0 ≤ c ∧ c < n ∧ c < (bm.arraySize * 8 : ℕ) ∧ bm.isSetBit c = false) ∨
      (∀ x ∈ bm.bytes, x = 0xff) ∧ FitsNext n bm granted
  cases hscan : scanFrom (· != 0xff) bm.bytes 0 with
  | none =>
    have hfull : ∀ x ∈ bm.bytes, x = 0xff := by
      intro x hx
      by_contra hne
      obtain ⟨k, hk⟩ := mem_iff_getElem?.1 hx
      exact scanFrom_eq_none_iff.1 hscan k (Nat.zero_le k) ⟨x, hk, bne_iff_ne.2 hne⟩
    have hnone : ¬∃ c : ℤ, 0 ≤ c ∧ c < n ∧ c < (bm.arraySize * 8 : ℕ) ∧
        bm.isSetBit c = false := by
      rintro ⟨c, hc, -, hlt, hunset⟩
      rw [(h.leastUnset_of_full hscan).below c hc hlt] at hunset
      exact Bool.noConfusion hunset
    rw [h.found_full_iff hscan]
    exact (and_iff_right hfull).symm.trans (or_iff_right hnone).symm
  | some i =>
    obtain ⟨-, ⟨x, hx, hne⟩, -⟩ := scanFrom_eq_some_iff.1 hscan
    have hne := bne_iff_ne.1 hne
    have hleast := h.leastUnset_of_scan hscan hx hne
    have hfull : ¬((∀ x ∈ bm.bytes, x = 0xff) ∧ FitsNext n bm granted) :=
      fun hall => hne (hall.1 x (mem_of_getElem? hx))
    have hin : trailingOnes x.toNat + i * 8 < bm.arraySize * 8 := by
      have hlt := trailingOnes_lt hne
      have hi := h.length ▸ (List.getElem?_eq_some_iff.1 hx).1
      omega
    have hsets : SetsOnly bm (bm.update i fun x => x ||| (x + 1))
        (trailingOnes x.toNat + i * 8 : ℕ) :=
      setsOnly_of_holds h (h.update _ _) fun c => holds_carry hx hne
    rw [found_of_leastUnset hleast, findAndSet_of_scan hscan hx, or_iff_left hfull]
    constructor
    · rintro (⟨hlt, -⟩ | ⟨-, hcode, -⟩)
      · exact ⟨_, hleast.nonneg, hlt, Int.ofNat_lt.2 hin, hleast.unset⟩
      · exact absurd rfl hcode
    · rintro ⟨c, hc, hlt, -, hunset⟩
      have hle : (trailingOnes x.toNat + i * 8 : ℕ) ≤ c := by
        by_contra hbelow
        rw [hleast.below c hc (not_le.1 hbelow)] at hunset
        exact Bool.noConfusion hunset
      exact .inl ⟨hle.trans_lt hlt, rfl, hsets⟩

theorem Sized.kept_iff (op : Op) : Kept n bm op ↔ Fits n bm op := by
  cases op with
  | setBit b granted => exact h.kept_setBit_iff
  | clearBit b => exact iff_of_true h.kept_clearBit trivial
  | findAndSetFirstUnsetBit granted => exact h.kept_find_iff
  | clearAllBits | setAllBits | bitwiseAndInplace | bitwiseOrInplace | bitwiseXorInplace =>
    exact Iff.rfl

theorem Sized.fill (x : UInt8) :
    Sized { bm with bitmap := bm.bitmap.map fun _ => replicate bm.arraySize x } := by
  refine ⟨?_, ?_, h.pos⟩
  · unfold bytes
    rw [h.bitmap]
    rfl
  · unfold bytes
    rw [h.bitmap]
    exact length_replicate

theorem Sized.bitwiseInplace (f : UInt8 → UInt8 → UInt8) (right : Bitmap) :
    Sized (Bitmap.bitwiseInplace f bm right).1 := by
  unfold Bitmap.bitwiseInplace
  split_ifs
  · exact h
  · refine ⟨?_, ?_, h.pos⟩
    · unfold bytes
      rw [h.bitmap]
      rfl
    · unfold bytes
      rw [h.bitmap]
      exact length_mapIdx.trans h.length

theorem Sized.setBit_fst
    (hb : b < 0 ∨ bm.maxSize < b ∨ Room bm b granted) : Sized (bm.setBit b granted).1 := by
  by_cases hparam : b < 0 ∨ bm.maxSize < b
  · rw [setBit_badParam hparam]
    exact h
  · obtain ⟨b, rfl⟩ := eq_ofNat_of_zero_le (not_lt.1 (not_or.1 hparam).1)
    have hroom : Room bm b granted := by
      obtain hneg | hmax | hroom := hb
      · exact absurd (.inl hneg) hparam
      · exact absurd (.inr hmax) hparam
      · exact hroom
    obtain ⟨bm', hset, hsized, -⟩ := h.setBit hroom
    rw [hset]
    exact hsized

theorem Sized.step (op : Op) (hfits : Fits n bm op) : Sized (bm.step op) := by
  cases op with
  | setBit b granted =>
    apply h.setBit_fst
    obtain hneg | ⟨-, -, hroom⟩ | ⟨hmax, -⟩ := hfits
    · exact .inl hneg
    · exact .inr (.inr hroom)
    · exact .inr (.inl hmax)
  | clearBit b =>
    change Sized (bm.clearBit b).1
    unfold Bitmap.clearBit
    split_ifs
    · exact h
    · exact h.update _ _
  | findAndSetFirstUnsetBit granted =>
    change Sized (bm.findAndSetFirstUnsetBit granted).1
    cases hscan : scanFrom (· != 0xff) bm.bytes 0 with
    | none =>
      rw [findAndSet_of_full hscan]
      apply h.setBit_fst
      obtain ⟨-, hroom⟩ | ⟨hmax, -⟩ := (h.found_full_iff hscan).1 (h.kept_find_iff.2 hfits)
      · exact .inr (.inr hroom)
      · exact .inr (.inl hmax)
    | some i =>
      obtain ⟨-, ⟨x, hx, -⟩, -⟩ := scanFrom_eq_some_iff.1 hscan
      rw [findAndSet_of_scan hscan hx]
      exact h.update _ _
  | clearAllBits => exact h.fill 0
  | setAllBits => exact h.fill 0xff
  | bitwiseAndInplace right | bitwiseOrInplace right | bitwiseXorInplace right =>
    exact h.bitwiseInplace _ right

end

theorem sized_init {size : ℤ} (h : bm.init size granted = some bm') : Sized bm' := by
  unfold init at h
  split_ifs at h with hbad hgranted
  cases h
  refine ⟨rfl, length_replicate, ?_⟩
  change 0 < (actualSize size).toNat
  unfold actualSize sizeOfChar
  rw [tdiv_eq_ediv_of_nonneg (by omega), tmod_eq_emod_of_nonneg (by omega)]
  split_ifs <;> omega

/-- In a run of calls on a bitmap that has been given a bound and been initialised, every call
behaves like one on a set of numbers below the bound if and only if the bound in bytes says of
the bit what the bound in bits does. -/
theorem bitmap_kept_iff {n size : ℤ} {ops : List Op}
    (hinit : (construct.setMaxSize n).init size granted = some bm) :
    Along step (Kept n) bm ops ↔ Along step (Fits n) bm ops := by
  have hall : Along step (fun _ _ => True) bm ops := Along.of_forall (fun _ _ => trivial) bm ops
  exact Along.iff_of_invariant (fun s op h _ hfits => h.step op hfits)
    (fun s op h _ => h.kept_iff op) (sized_init hinit) hall

/-- A bitmap of at most 100 bits, with room for eight. -/
def small : Bitmap where
  bitmap := some [0]
  arraySize := 1
  maxSize := 13

/-- Bit 50 of at most 100 is refused. -/
theorem bitmap_refuses_bit : ¬∀ (n size : ℤ) (granted : Bool) (bm : Bitmap) (ops : List Op),
      (construct.setMaxSize n).init size granted = some bm → Along step (Kept n) bm ops := by
  intro h
  obtain ⟨hkept, -⟩ := h 100 8 true small [.setBit 50 true] rfl
  have hsuccess := hkept.1.2 (by decide)
  revert hsuccess
  decide

theorem bitmap_kept_iff_small : Along step (Kept 100) small
      [.setBit 9 true, .findAndSetFirstUnsetBit true, .clearBit 9, .setBit 100 false] :=
  (bitmap_kept_iff (rfl : (construct.setMaxSize 100).init 8 true = some small)).2
    ⟨.inr (.inl (by unfold Room; decide)), .inl ⟨0, by decide⟩, trivial,
      .inr (.inr (by decide)), trivial⟩

end Results

end Bitmap

end Ulfm.Opal
