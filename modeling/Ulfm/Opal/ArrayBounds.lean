import Ulfm.Opal.PointerArray

/-!
# The pointer array as a bounded map

A call that succeeds stores its pointer inside the table and changes nothing else,
and a call that fails changes nothing. For an even index that is one less than the
maximum, the size that `grow_table` falls back to is the index itself, and the
pointer is written past the end. A table of no entries may be given back when it is
to grow.
-/

namespace Ulfm.Opal

open List Option

namespace PointerArray

variable {α : Type} {table t : PointerArray α} {i j n index : ℕ} {value ptr : Option α}
  {granted : Bool} {soft hard : ℤ}

theorem growTable_eq_ok_iff : table.growTable soft hard granted = .ok t ↔
      ∃ n : ℕ, granted = true ∧ (n : ℤ) < table.maxSize ∧
        (n : ℤ) = (if table.maxSize < soft then hard else soft) ∧ t = table.resize n := by
  unfold growTable
  constructor
  · intro h
    simp only at h
    generalize (if table.maxSize < soft then hard else soft) = newSize at h ⊢
    split_ifs at h with hboth hge hneg
    obtain ⟨hnonneg, hgranted⟩ := not_or.1 hneg
    have hnat : ((newSize.toNat : ℕ) : ℤ) = newSize := Int.toNat_of_nonneg (not_lt.1 hnonneg)
    refine ⟨newSize.toNat, eq_true_of_ne_false hgranted, ?_, hnat, (Except.ok.inj h).symm⟩
    rw [hnat]
    exact not_le.1 hge
  · rintro ⟨n, hgranted, hlt, hn, rfl⟩
    have hboth : ¬(table.maxSize < soft ∧ table.maxSize < hard) := by
      rintro ⟨hsoft, hhard⟩
      rw [if_pos hsoft] at hn
      exact absurd (hn ▸ hlt) (not_lt.2 hhard.le)
    have hge : ¬table.maxSize ≤ if table.maxSize < soft then hard else soft := by
      rw [← hn]
      exact not_le.2 hlt
    have hneg : ¬((if table.maxSize < soft then hard else soft) < 0 ∨ granted = false) := by
      rw [← hn, hgranted]
      simp
    simp only
    rw [if_neg hboth, if_neg hge, if_neg hneg, ← hn, Int.toNat_natCast]

theorem growTable_error (h : table.growTable soft hard granted = .error t)
    (hsize : (if table.maxSize < soft then hard else soft) ≠ 0) : t = table := by
  unfold growTable at h
  simp only at h
  generalize (if table.maxSize < soft then hard else soft) = newSize at h hsize
  split_ifs at h
  · exact (Except.error.inj h).symm
  · exact (Except.error.inj h).symm
  · rw [← Except.error.inj h, decide_eq_false hsize, Bool.or_false]

theorem growTable_freed (hmax : 0 < table.maxSize)
    (hsize : (if table.maxSize < soft then hard else soft) = 0) :
    table.growTable soft hard false = .error { table with freed := true } := by
  have hboth : ¬(table.maxSize < soft ∧ table.maxSize < hard) := by
    rintro ⟨hsoft, hhard⟩
    rw [if_pos hsoft] at hsize
    omega
  unfold growTable
  simp only
  rw [if_neg hboth, hsize, if_neg (not_le.2 hmax), if_pos (.inr trivial),
    decide_eq_true rfl, Bool.or_true]

theorem addr_resize (h : table.size ≤ n) :
    (table.resize n).addr = table.addr ++ replicate (n - table.size) none := by
  change table.addr.take n ++ _ = _
  rw [take_of_length_le h]

theorem size_resize (h : table.size ≤ n) : (table.resize n).size = n := by
  unfold size
  rw [addr_resize h, length_append, length_replicate]
  exact Nat.add_sub_cancel' h

theorem getItem_eq (table : PointerArray α) (i : ℕ) : table.getItem i = table.addr[i]?.join := by
  unfold getItem
  split_ifs with hi
  · rw [getElem?_eq_none hi, join_none]
  · rfl

theorem getItem_resize (h : table.size ≤ n) (i : ℕ) :
    (table.resize n).getItem i = table.getItem i := by
  rw [getItem_eq, getItem_eq, addr_resize h]
  by_cases hi : i < table.addr.length
  · rw [getElem?_append_left hi]
  · rw [getElem?_append_right (not_lt.1 hi), getElem?_eq_none (not_lt.1 hi), getElem?_replicate]
    split_ifs <;> rfl

theorem addr_store (table : PointerArray α) (index : ℕ) (value : Option α) :
    (table.store index value).addr = table.addr.set index value := by
  cases value <;> rfl

theorem addr_place (table : PointerArray α) (ptr : Option α) :
    (table.place ptr).addr = table.addr.set table.lowestFree ptr := rfl

theorem addr_reserve (table : PointerArray α) (index : ℕ) (value : Option α) :
    (table.reserve index value).addr = table.addr.set index value := rfl

theorem maxSize_store (table : PointerArray α) (index : ℕ) (value : Option α) :
    (table.store index value).maxSize = table.maxSize := by
  cases value <;> rfl

theorem nextFree_lt {addr : List (Option α)} (h : nextFree addr i = some j) :
    j < addr.length := (scanFrom_eq_some_iff.1 h).2.1.lt_length

theorem getD_nextFree_le {addr : List (Option α)} (hn : n ≤ addr.length) :
    (nextFree addr i).getD n ≤ addr.length := by
  cases h : nextFree addr i with
  | none => exact hn
  | some j => exact (nextFree_lt h).le

/-- What holds of a table whenever a call is made. -/
structure Bounded (table : PointerArray α) : Prop where
  lowestFree_le : table.lowestFree ≤ table.size
  size_le : (table.size : ℤ) ≤ table.maxSize
  maxSize_le : table.maxSize ≤ intMax
  allocated : table.allocated = true
  kept : table.freed = false

theorem init_cases {initialAllocation maxSize blockSize : ℤ}
    (h : init construct initialAllocation maxSize blockSize granted = some table) :
    ∃ n : ℕ, ((n : ℤ) = if 0 < initialAllocation then initialAllocation else blockSize) ∧
      blockSize ≤ maxSize ∧
      table = { (construct : PointerArray α) with
        maxSize := maxSize
        blockSize := blockSize
        numberFree := n
        allocated := true
        addr := replicate n none } := by
  unfold init at h
  by_cases hblock : maxSize < blockSize
  · rw [if_pos hblock] at h
    exact nomatch h
  · simp only [if_neg hblock] at h
    generalize (if 0 < initialAllocation then initialAllocation else blockSize) = numBytes at h ⊢
    split_ifs at h with hneg
    obtain ⟨n, rfl⟩ := Int.eq_ofNat_of_zero_le (not_lt.1 (not_or.1 hneg).1)
    exact ⟨n, rfl, not_lt.1 hblock, (Option.some.inj h).symm⟩

theorem bounded_init {initialAllocation maxSize blockSize : ℤ} (hmax : maxSize ≤ intMax)
    (hinitial : initialAllocation ≤ maxSize)
    (h : init construct initialAllocation maxSize blockSize granted = some table) :
    Bounded table := by
  obtain ⟨n, hn, hblock, rfl⟩ := init_cases h
  refine ⟨Nat.zero_le _, ?_, hmax, rfl, rfl⟩
  unfold size
  rw [length_replicate, hn]
  split_ifs
  · exact hinitial
  · exact hblock

theorem Bounded.resize (h : Bounded table) (hn : table.size ≤ n)
    (hlt : (n : ℤ) < table.maxSize) : Bounded (table.resize n) := by
  refine ⟨?_, ?_, h.maxSize_le, rfl, h.kept⟩
  · rw [size_resize hn]
    exact h.lowestFree_le.trans hn
  · rw [size_resize hn]
    exact hlt.le

theorem Bounded.place (h : Bounded table) (ptr : Option α) : Bounded (table.place ptr) := by
  have hsize : (table.place ptr).size = table.size := length_set
  refine ⟨?_, hsize ▸ h.size_le, h.maxSize_le, h.allocated, h.kept⟩
  rw [hsize]
  change (if 0 < table.numberFree - 1 then _ else table.size) ≤ _
  split_ifs
  · apply (getD_nextFree_le _).trans
    · exact length_set.le
    · rw [length_set]
      exact h.lowestFree_le
  · exact le_rfl

theorem Bounded.store (h : Bounded table) (index : ℕ) (value : Option α) :
    Bounded (table.store index value) := by
  have hsize : (table.store index value).size = table.size := by
    unfold size
    rw [addr_store, length_set]
  refine ⟨?_, ?_, ?_, ?_, ?_⟩
  · rw [hsize]
    cases value with
    | none =>
      change (if index < table.lowestFree then index else table.lowestFree) ≤ _
      split_ifs with hlt
      · exact hlt.le.trans h.lowestFree_le
      · exact h.lowestFree_le
    | some p =>
      change (if index = table.lowestFree then _ else table.lowestFree) ≤ _
      split_ifs
      · exact getD_nextFree_le le_rfl
      · exact h.lowestFree_le
  · rw [hsize, maxSize_store]
    exact h.size_le
  · rw [maxSize_store]
    exact h.maxSize_le
  · cases value <;> exact h.allocated
  · cases value <;> exact h.kept

theorem Bounded.reserve (h : Bounded table) (index : ℕ) (value : Option α) :
    Bounded (table.reserve index value) := by
  have hsize : (table.reserve index value).size = table.size := length_set
  refine ⟨?_, hsize ▸ h.size_le, h.maxSize_le, h.allocated, h.kept⟩
  rw [hsize]
  change (if index = table.lowestFree then _ else table.lowestFree) ≤ _
  split_ifs
  · apply (getD_nextFree_le _).trans
    · exact length_set.le
    · exact length_set.ge
  · exact h.lowestFree_le

/-- The size that `grow_table` falls back to is the index itself. -/
def FallsShort (table : PointerArray α) (index : ℕ) (granted : Bool) : Prop :=
  table.size ≤ index ∧ (granted = true ∨ index = 0) ∧ (index + 1 : ℤ) = table.maxSize ∧
    index % 2 = 0 ∧
    index + 2 < 2 ^ 31

structure Extends (table t : PointerArray α) : Prop where
  bounded : Bounded t
  grown : t = table ∨ ∃ n, table.size ≤ n ∧ t = table.resize n

theorem Extends.lowestFree (h : Extends table t) : t.lowestFree = table.lowestFree := by
  obtain rfl | ⟨n, -, rfl⟩ := h.grown
  · rfl
  · rfl

theorem Extends.getItem (h : Extends table t) (j : ℕ) : t.getItem j = table.getItem j := by
  obtain rfl | ⟨n, hn, rfl⟩ := h.grown
  · rfl
  · exact getItem_resize hn j

theorem Bounded.extends_self (h : Bounded table) : Extends table table := ⟨h, .inl rfl⟩

theorem Bounded.extends_resize (h : Bounded table) (hn : table.size ≤ n)
    (hlt : (n : ℤ) < table.maxSize) : Extends table (table.resize n) :=
  ⟨h.resize hn hlt, .inr ⟨n, hn, rfl⟩⟩

theorem Bounded.ne_freed (h : Bounded table) : { table with freed := true } ≠ table := by
  intro heq
  exact nomatch (congrArg PointerArray.freed heq).trans h.kept

theorem Bounded.reach_error (h : Bounded table) (hindex : (index : ℤ) ≤ intMax)
    (hreach : table.reach index granted = .error t) :
    t = table ↔ ¬table.FallsShort index granted := by
  unfold PointerArray.reach at hreach
  split_ifs at hreach with hsize
  by_cases hnew : (if table.maxSize < toInt ((index / 2 + 1) * tableGrow) then (index : ℤ)
      else toInt ((index / 2 + 1) * tableGrow)) = 0
  · have hmax := h.size_le
    have hzero : index = 0 ∧ table.maxSize < 2 := by
      unfold toInt tableGrow at hnew
      unfold intMax at hindex
      split_ifs at hnew <;> omega
    unfold FallsShort
    by_cases hpos : 0 < table.maxSize
    · cases granted with
      | true =>
        have hok := growTable_eq_ok_iff.2 ⟨0, rfl, hpos, hnew.symm, rfl⟩
        exact nomatch hreach.symm.trans hok
      | false =>
        rw [growTable_freed hpos hnew] at hreach
        rw [← Except.error.inj hreach]
        exact iff_of_false h.ne_freed (not_not_intro ⟨hsize, .inr hzero.1, by omega⟩)
    · have hle : table.maxSize ≤ if table.maxSize < toInt ((index / 2 + 1) * tableGrow) then
          (index : ℤ) else toInt ((index / 2 + 1) * tableGrow) := by
        omega
      unfold growTable at hreach
      simp only [if_pos hle, ite_self] at hreach
      exact iff_of_true (Except.error.inj hreach).symm fun hshort => by omega
  · rw [growTable_error hreach hnew]
    apply iff_of_true rfl
    rintro ⟨-, hgranted | rfl, hmax, heven, hint⟩
    · have hsoft : table.maxSize < toInt ((index / 2 + 1) * tableGrow) := by
        unfold toInt tableGrow
        omega
      have hok := growTable_eq_ok_iff.2 ⟨index, hgranted, by omega, (if_pos hsoft).symm, rfl⟩
      exact nomatch hreach.symm.trans hok
    · apply hnew
      have hsoft : table.maxSize < toInt (((0 : ℕ) / 2 + 1) * tableGrow) := by
        rw [← hmax]
        decide
      exact if_pos hsoft

theorem Bounded.reach (h : Bounded table) (hindex : (index : ℤ) ≤ intMax)
    (hreach : table.reach index granted = .ok t) :
    Extends table t ∧ (index < t.size ↔ ¬table.FallsShort index granted) := by
  unfold PointerArray.reach at hreach
  unfold FallsShort
  split_ifs at hreach with hsize
  · obtain ⟨n, hgranted, hlt, hn, rfl⟩ := growTable_eq_ok_iff.1 hreach
    unfold toInt tableGrow at hn
    unfold intMax at hindex
    have hle : table.size ≤ n := by
      split_ifs at hn <;> omega
    refine ⟨h.extends_resize hle hlt, ?_⟩
    rw [size_resize hle]
    constructor
    · rintro hin ⟨-, -, hmax, heven, hint⟩
      split_ifs at hn <;> omega
    · intro hnot
      by_contra hout
      apply hnot
      refine ⟨hsize, .inl hgranted, ?_⟩
      split_ifs at hn <;> omega
  · cases hreach
    exact ⟨h.extends_self, fun _ hshort => hsize hshort.1, fun _ => not_le.1 hsize⟩

theorem Bounded.grown (h : Bounded table)
    (hgrow : table.growTable (toInt (table.size * tableGrow)) ompiFortranHandleMax granted =
      .ok t) :
    Extends table t ∧ (table.lowestFree < t.size ↔ table.size ≠ 0) := by
  obtain ⟨n, -, hlt, hn, rfl⟩ := growTable_eq_ok_iff.1 hgrow
  have hmax := h.maxSize_le
  have hsize := h.size_le
  have hlowest := h.lowestFree_le
  have hdouble : n = table.size * 2 := by
    unfold toInt tableGrow ompiFortranHandleMax at hn
    unfold intMax at hn hmax
    split_ifs at hn <;> omega
  have hle : table.size ≤ n := by omega
  refine ⟨h.extends_resize hle hlt, ?_⟩
  rw [size_resize hle]
  omega

theorem Bounded.grown_error (h : Bounded table)
    (hgrow : table.growTable (toInt (table.size * tableGrow)) ompiFortranHandleMax granted =
      .error t) :
    t = table ↔ (table.size = 0 → table.maxSize ≤ 0) := by
  have hmax := h.maxSize_le
  have hsize := h.size_le
  by_cases hzero : table.size = 0
  · have hsoft : toInt (table.size * tableGrow) = 0 := by
      rw [hzero]
      rfl
    have hnew : (if table.maxSize < toInt (table.size * tableGrow) then ompiFortranHandleMax
        else toInt (table.size * tableGrow)) = 0 := by
      rw [hsoft, if_neg (by omega)]
    by_cases hpos : 0 < table.maxSize
    · cases granted with
      | true =>
        have hok := growTable_eq_ok_iff.2 ⟨0, rfl, hpos, hnew.symm, rfl⟩
        exact nomatch hgrow.symm.trans hok
      | false =>
        rw [growTable_freed hpos hnew] at hgrow
        rw [← Except.error.inj hgrow]
        exact iff_of_false h.ne_freed fun hle => (hle hzero).not_gt hpos
    · unfold growTable at hgrow
      simp only [hnew, if_pos (not_lt.1 hpos), ite_self] at hgrow
      exact iff_of_true (Except.error.inj hgrow).symm fun _ => not_lt.1 hpos
  · have hnew : (if table.maxSize < toInt (table.size * tableGrow) then ompiFortranHandleMax
        else toInt (table.size * tableGrow)) ≠ 0 := by
      unfold toInt tableGrow ompiFortranHandleMax intMax
      unfold intMax at hmax
      split_ifs <;> omega
    exact iff_of_true (growTable_error hgrow hnew) fun hsize => absurd hsize hzero

section Calls

inductive Call (α : Type)
  | setSize (newSize : ℤ) (granted : Bool)
  | add (ptr : Option α) (granted : Bool)
  | setItem (index : ℕ) (value : Option α) (granted : Bool)
  | testAndSetItem (index : ℕ) (value : Option α) (granted : Bool)

variable {c : Call α} {calls : List (Call α)}

def step (table : PointerArray α) : Call α → PointerArray α
  | .setSize newSize granted => (table.setSize newSize granted).1
  | .add ptr granted => (table.add ptr granted).1
  | .setItem index value granted => (table.setItem index value granted).1
  | .testAndSetItem index value granted => (table.testAndSetItem index value granted).1

/-- An index is an `int`. -/
def Possible : PointerArray α → Call α → Prop
  | _, .setSize _ _ | _, .add _ _ => True
  | _, .setItem index _ _ | _, .testAndSetItem index _ _ => (index : ℤ) ≤ intMax

/-- The pointer is inside the table, and every other index keeps its value. -/
structure Stored (table t : PointerArray α) (index : ℕ) (value : Option α) : Prop where
  lt_size : index < t.size
  size_le : (t.size : ℤ) ≤ t.maxSize
  stored : t.getItem index = value
  other : ∀ j, j ≠ index → t.getItem j = table.getItem j

/-- What a call that returns `true` or `false` promises. -/
def Answered (table : PointerArray α) (result : PointerArray α × Bool) (index : ℕ)
    (value : Option α) : Prop :=
  if result.2 then Stored table result.1 index value else result.1 = table

/-- What `opal_pointer_array_add` promises. -/
def Added (table : PointerArray α) (result : PointerArray α × Option ℕ) (ptr : Option α) : Prop :=
  match result with
  | (t, none) => t = table
  | (t, some index) => Stored table t index ptr

/-- A call behaves like a write to a bounded map. -/
def Kept (table : PointerArray α) : Call α → Prop
  | .setSize newSize granted =>
    if (table.setSize newSize granted).2 then
      ∀ j, (table.setSize newSize granted).1.getItem j = table.getItem j
    else (table.setSize newSize granted).1 = table
  | .add ptr granted => Added table (table.add ptr granted) ptr
  | .setItem index value granted => Answered table (table.setItem index value granted) index value
  | .testAndSetItem index value granted =>
    Answered table (table.testAndSetItem index value granted) index value

/-- The entry a call is about to write is inside the table, which is not given back. -/
def Fits (table : PointerArray α) : Call α → Prop
  | .setSize _ _ => True
  | .add _ _ =>
    if table.numberFree = 0 then table.size = 0 → table.maxSize ≤ 0
    else table.lowestFree < table.size
  | .setItem index _ granted | .testAndSetItem index _ granted =>
    ¬table.FallsShort index granted

instance (table : PointerArray α) : ∀ c : Call α, Decidable (Fits table c)
  | .setSize _ _ => isTrue trivial
  | .add _ _ =>
    inferInstanceAs (Decidable (if table.numberFree = 0 then table.size = 0 → table.maxSize ≤ 0
      else table.lowestFree < table.size))
  | .setItem index _ granted | .testAndSetItem index _ granted =>
    inferInstanceAs (Decidable ¬(table.size ≤ index ∧ (granted = true ∨ index = 0) ∧
      (index + 1 : ℤ) = table.maxSize ∧ index % 2 = 0 ∧ index + 2 < 2 ^ 31))

theorem Extends.stored_iff (h : Extends table t) {t' : PointerArray α}
    (haddr : t'.addr = t.addr.set index value) (hmax : t'.maxSize = t.maxSize) :
    Stored table t' index value ↔ index < t.size := by
  have hsize : t'.size = t.size := by
    unfold size
    rw [haddr, length_set]
  constructor
  · intro hstored
    exact hsize ▸ hstored.lt_size
  · intro hlt
    refine ⟨hsize ▸ hlt, ?_, ?_, fun j hj => ?_⟩
    · rw [hsize, hmax]
      exact h.bounded.size_le
    · rw [getItem_eq, haddr, getElem?_set_self hlt, join_some]
    · rw [getItem_eq, haddr, getElem?_set_ne hj.symm, ← getItem_eq]
      exact h.getItem j

theorem answered_true : Answered table (t, true) index value ↔ Stored table t index value := Iff.rfl

theorem answered_false : Answered table (t, false) index value ↔ t = table := Iff.rfl

theorem setItem_of_error (h : table.reach index granted = .error t) :
    table.setItem index value granted = (t, false) := by
  rw [setItem, h]

theorem setItem_of_ok (h : table.reach index granted = .ok t) :
    table.setItem index value granted = (t.store index value, true) := by
  rw [setItem, h]

theorem testAndSetItem_of_inUse (h : EntryMeets isSome table.addr index) :
    table.testAndSetItem index value granted = (table, false) := by
  rw [testAndSetItem, if_pos h]

theorem testAndSetItem_of_error (hfree : ¬EntryMeets isSome table.addr index)
    (h : table.reach index granted = .error t) :
    table.testAndSetItem index value granted = (t, false) := by
  rw [testAndSetItem, if_neg hfree, h]

theorem testAndSetItem_of_ok (hfree : ¬EntryMeets isSome table.addr index)
    (h : table.reach index granted = .ok t) :
    table.testAndSetItem index value granted = (t.reserve index value, true) := by
  rw [testAndSetItem, if_neg hfree, h]

theorem kept_setItem_iff (h : Bounded table) (hindex : (index : ℤ) ≤ intMax) :
    Kept table (.setItem index value granted) ↔ ¬table.FallsShort index granted := by
  change Answered table (table.setItem index value granted) index value ↔ _
  cases hreach : table.reach index granted with
  | error t =>
    rw [setItem_of_error hreach, answered_false]
    exact h.reach_error hindex hreach
  | ok t =>
    obtain ⟨hextends, hiff⟩ := h.reach hindex hreach
    rw [setItem_of_ok hreach, answered_true]
    exact (hextends.stored_iff (addr_store t index value) (maxSize_store t index value)).trans hiff

theorem kept_testAndSetItem_iff (h : Bounded table) (hindex : (index : ℤ) ≤ intMax) :
    Kept table (.testAndSetItem index value granted) ↔ ¬table.FallsShort index granted := by
  change Answered table (table.testAndSetItem index value granted) index value ↔ _
  by_cases huse : EntryMeets Option.isSome table.addr index
  · rw [testAndSetItem_of_inUse huse]
    apply iff_of_true (answered_false.2 rfl)
    intro hshort
    exact absurd huse.lt_length (not_lt.2 hshort.1)
  · cases hreach : table.reach index granted with
    | error t =>
      rw [testAndSetItem_of_error huse hreach, answered_false]
      exact h.reach_error hindex hreach
    | ok t =>
      obtain ⟨hextends, hiff⟩ := h.reach hindex hreach
      rw [testAndSetItem_of_ok huse hreach, answered_true]
      exact (hextends.stored_iff (addr_reserve t index value) rfl).trans hiff

theorem add_of_room (h : table.numberFree ≠ 0) :
    table.add ptr granted = (table.place ptr, some table.lowestFree) := by
  rw [add, if_neg h]

section

variable (h : Bounded table)
include h

theorem Bounded.add_of_error (hfull : table.numberFree = 0) (hgrow :
      table.growTable (toInt (table.size * tableGrow)) ompiFortranHandleMax granted = .error t) :
    table.add ptr granted = (t, none) := by
  rw [add, if_pos hfull, if_pos h.allocated, hgrow]

theorem Bounded.add_of_ok (hfull : table.numberFree = 0) (hgrow :
      table.growTable (toInt (table.size * tableGrow)) ompiFortranHandleMax granted = .ok t) :
    table.add ptr granted = (t.place ptr, some t.lowestFree) := by
  rw [add, if_pos hfull, if_pos h.allocated, hgrow]

theorem kept_add_iff : Kept table (.add ptr granted) ↔ Fits table (.add ptr granted) := by
  change Added table (table.add ptr granted) ptr ↔
    if table.numberFree = 0 then table.size = 0 → table.maxSize ≤ 0
    else table.lowestFree < table.size
  by_cases hfree : table.numberFree = 0
  · rw [if_pos hfree]
    cases hgrow : table.growTable (toInt (table.size * tableGrow)) ompiFortranHandleMax granted with
    | error t =>
      rw [h.add_of_error hfree hgrow]
      exact h.grown_error hgrow
    | ok t =>
      obtain ⟨hextends, hiff⟩ := h.grown hgrow
      obtain ⟨n, -, hlt, -, -⟩ := growTable_eq_ok_iff.1 hgrow
      have hmax : ¬table.maxSize ≤ 0 := not_le.2 ((Int.natCast_nonneg n).trans_lt hlt)
      rw [h.add_of_ok hfree hgrow]
      refine (hextends.stored_iff (addr_place t ptr) rfl).trans ?_
      rw [hextends.lowestFree, hiff]
      exact (imp_iff_not hmax).symm
  · rw [add_of_room hfree, if_neg hfree]
    exact h.extends_self.stored_iff (addr_place table ptr) rfl

theorem Bounded.setSize (newSize : ℤ) (granted : Bool) :
    Extends table (table.setSize newSize granted).1 ∧
      ((table.setSize newSize granted).2 = false → (table.setSize newSize granted).1 = table) := by
  unfold PointerArray.setSize
  split_ifs with hlt
  · cases hgrow : table.growTable newSize newSize granted with
    | error t =>
      have hnew : (if table.maxSize < newSize then newSize else newSize) ≠ 0 := by
        rw [ite_self]
        omega
      rw [growTable_error hgrow hnew]
      exact ⟨h.extends_self, fun _ => rfl⟩
    | ok t =>
      obtain ⟨n, -, hmax, hn, rfl⟩ := growTable_eq_ok_iff.1 hgrow
      rw [ite_self] at hn
      have hle : table.size ≤ n := by omega
      exact ⟨h.extends_resize hle hmax, fun hfalse => Bool.noConfusion hfalse⟩
  · exact ⟨h.extends_self, fun _ => rfl⟩

theorem kept_setSize (newSize : ℤ) : Kept table (.setSize newSize granted) := by
  obtain ⟨hextends, hfailed⟩ := h.setSize newSize granted
  unfold Kept
  simp only
  split_ifs with hanswer
  · exact hextends.getItem
  · exact hfailed (eq_false_of_ne_true hanswer)

theorem kept_iff (hc : Possible table c) : Kept table c ↔ Fits table c := by
  cases c with
  | setSize newSize granted => exact iff_of_true (kept_setSize h newSize) trivial
  | add ptr granted => exact kept_add_iff h
  | setItem index value granted => exact kept_setItem_iff h hc
  | testAndSetItem index value granted => exact kept_testAndSetItem_iff h hc

theorem Bounded.step (hc : Possible table c) (hfits : Fits table c) : Bounded (table.step c) := by
  cases c with
  | setSize newSize granted => exact (h.setSize newSize granted).1.bounded
  | add ptr granted =>
    change Bounded (table.add ptr granted).1
    by_cases hfree : table.numberFree = 0
    · cases hgrow :
          table.growTable (toInt (table.size * tableGrow)) ompiFortranHandleMax granted with
      | error t =>
        have hzero := (if_pos hfree).mp hfits
        rw [h.add_of_error hfree hgrow, (h.grown_error hgrow).2 hzero]
        exact h
      | ok t =>
        rw [h.add_of_ok hfree hgrow]
        exact (h.grown hgrow).1.bounded.place ptr
    · rw [add_of_room hfree]
      exact h.place ptr
  | setItem index value granted =>
    change Bounded (table.setItem index value granted).1
    cases hreach : table.reach index granted with
    | error t =>
      rw [setItem_of_error hreach, (h.reach_error hc hreach).2 hfits]
      exact h
    | ok t =>
      rw [setItem_of_ok hreach]
      exact (h.reach hc hreach).1.bounded.store index value
  | testAndSetItem index value granted =>
    change Bounded (table.testAndSetItem index value granted).1
    by_cases huse : EntryMeets Option.isSome table.addr index
    · rw [testAndSetItem_of_inUse huse]
      exact h
    · cases hreach : table.reach index granted with
      | error t =>
        rw [testAndSetItem_of_error huse hreach, (h.reach_error hc hreach).2 hfits]
        exact h
      | ok t =>
        rw [testAndSetItem_of_ok huse hreach]
        exact (h.reach hc hreach).1.bounded.reserve index value

end

/-- In a run of calls on a table that has been initialised, every call behaves like a write to
a bounded map if and only if the entry that every call is about to write is inside the table,
and no call gives the table back. -/
theorem pointerArray_kept_iff (initialAllocation maxSize blockSize : ℤ)
    (hmax : maxSize ≤ intMax) (hinitial : initialAllocation ≤ maxSize)
    (hinit : init construct initialAllocation maxSize blockSize granted = some table)
    (hrun : Along step Possible table calls) :
    Along step Kept table calls ↔ Along step Fits table calls := by
  have hstep : ∀ (t : PointerArray α) (c : Call α), Bounded t → Possible t c → Fits t c →
      Bounded (t.step c) := fun _ _ h hc hfits => h.step hc hfits
  exact Along.iff_of_invariant hstep (fun _ _ h hc => kept_iff h hc)
    (bounded_init hmax hinitial hinit) hrun

/-- A table of one entry that may not have more than three. -/
def single : PointerArray ℕ where
  lowestFree := 0
  highestTaken := -1
  numberFree := 1
  maxSize := 3
  blockSize := 1
  allocated := true
  addr := [none]
  freed := false

/-- For index 2 the table grows to two entries. -/
theorem array_stores_outside :
    ¬∀ (initialAllocation maxSize blockSize : ℤ) (granted : Bool) (table : PointerArray ℕ)
      (calls : List (Call ℕ)), maxSize ≤ intMax → initialAllocation ≤ maxSize →
        init construct initialAllocation maxSize blockSize granted = some table →
          Along step Possible table calls → Along step Kept table calls := by
  intro h
  have hindex : ((2 : ℕ) : ℤ) ≤ intMax := by decide
  obtain ⟨hkept, -⟩ := h 1 3 1 true single [.testAndSetItem 2 (some 7) true] (by decide)
    (by decide) rfl ⟨hindex, trivial⟩
  have hlt := hkept.lt_size
  revert hlt
  decide

/-- Calls that find room, and one that is refused. -/
def fitting : List (Call ℕ) :=
  [.testAndSetItem 1 (some 7) true, .add (some 5) true, .setItem 2 (some 3) false]

theorem pointerArray_kept_iff_single : Along step Kept single fitting := by
  have hrun : Along step Possible single fitting :=
    ⟨(by decide : ((1 : ℕ) : ℤ) ≤ intMax), trivial, (by decide : ((2 : ℕ) : ℤ) ≤ intMax), trivial⟩
  exact (pointerArray_kept_iff 1 3 1 (by decide) (by decide)
    (rfl : init construct 1 3 1 true = some single) hrun).2 (by decide)

end Calls

end PointerArray

end Ulfm.Opal
