import Ulfm.Opal.ArrayBounds

/-!
# The books of the pointer array

`lowestFree`, `numberFree` and `highestTaken` say what is in the table, as long as
every pointer is written inside it.
-/

namespace Ulfm.Opal

open List Option

namespace PointerArray

section Entries

variable {α : Type} {addr : List (Option α)} {i j h : ℕ} {p : α}

/-- The entry at an index is `NULL`. -/
abbrev Free (addr : List (Option α)) (i : ℕ) : Prop := EntryMeets isNone addr i

abbrev Taken (addr : List (Option α)) (i : ℕ) : Prop := EntryMeets isSome addr i

theorem not_free_iff_taken (hi : i < addr.length) : ¬Free addr i ↔ Taken addr i := by
  unfold Free Taken EntryMeets
  rw [getElem?_eq_getElem hi]
  cases addr[i] with
  | none => simp
  | some p => simp

theorem free_set_some : Free (addr.set i (some p)) j ↔ j ≠ i ∧ Free addr j := by
  unfold Free
  rw [entryMeets_set]
  split_ifs with hj
  · simp [hj]
  · simp [hj]

theorem free_set_none (hi : i < addr.length) : Free (addr.set i none) j ↔ j = i ∨ Free addr j := by
  unfold Free
  rw [entryMeets_set]
  split_ifs with hj
  · simp [hj, hi]
  · simp [hj]

theorem taken_set_some (hi : i < addr.length) :
    Taken (addr.set i (some p)) j ↔ j = i ∨ Taken addr j := by
  unfold Taken
  rw [entryMeets_set]
  split_ifs with hj
  · simp [hj, hi]
  · simp [hj]

theorem taken_set_none : Taken (addr.set i none) j ↔ j ≠ i ∧ Taken addr j := by
  unfold Taken
  rw [entryMeets_set]
  split_ifs with hj
  · simp [hj]
  · simp [hj]

theorem count_set_some (hi : i < addr.length) :
    (addr.set i (some p)).countP isNone + (if Free addr i then 1 else 0) = addr.countP isNone :=
  countP_set_add hi

theorem count_set_none (hi : i < addr.length) :
    (addr.set i none).countP isNone + (if Free addr i then 1 else 0) = addr.countP isNone + 1 :=
  countP_set_add hi

/-- An index is the least that is free, or the size if none is. -/
structure LeastFree (addr : List (Option α)) (i : ℕ) : Prop where
  le_length : i ≤ addr.length
  below : ∀ k, k < i → ¬Free addr k
  free : i < addr.length → Free addr i

theorem leastFree_nextFree (hbelow : ∀ k, k < i → ¬Free addr k) :
    LeastFree addr ((nextFree addr i).getD addr.length) := by
  cases hnext : nextFree addr i with
  | none =>
    have hnone := scanFrom_eq_none_iff.1 hnext
    refine ⟨le_rfl, fun k _ => ?_, fun hlt => absurd hlt (lt_irrefl _)⟩
    by_cases hk : k < i
    · exact hbelow k hk
    · exact hnone k (not_lt.1 hk)
  | some j =>
    obtain ⟨-, hfree, hbefore⟩ := scanFrom_eq_some_iff.1 hnext
    refine ⟨hfree.lt_length.le, fun k hkj => ?_, fun _ => hfree⟩
    by_cases hk : k < i
    · exact hbelow k hk
    · exact hbefore k (not_lt.1 hk) hkj

theorem nextFree_set (hij : i < j) (value : Option α) :
    nextFree (addr.set i value) j = nextFree addr j := by
  have hiff : ∀ k, j ≤ k → (Free (addr.set i value) k ↔ Free addr k) := by
    intro k hjk
    unfold Free
    rw [entryMeets_set, if_neg (hij.trans_le hjk).ne']
  cases hnext : nextFree addr j with
  | none =>
    have hnone := scanFrom_eq_none_iff.1 hnext
    exact scanFrom_eq_none_iff.2 fun k hjk hk => hnone k hjk ((hiff k hjk).1 hk)
  | some m =>
    obtain ⟨hjm, hfree, hbefore⟩ := scanFrom_eq_some_iff.1 hnext
    exact scanFrom_eq_some_iff.2 ⟨hjm, (hiff m hjm).2 hfree, fun k hjk hkm hk =>
      hbefore k hjk hkm ((hiff k hjk).1 hk)⟩

theorem LeastFree.set_none (h : LeastFree addr j)
    (hi : i < addr.length) : LeastFree (addr.set i none) (if i < j then i else j) := by
  have hfree : ∀ k, Free (addr.set i none) k ↔ k = i ∨ Free addr k := fun _ => free_set_none hi
  split_ifs with hij
  · refine ⟨?_, fun k hk hkfree => ?_, fun _ => (hfree i).2 (.inl rfl)⟩
    · rw [length_set]
      exact hi.le
    · obtain rfl | hold := (hfree k).1 hkfree
      · exact lt_irrefl _ hk
      · exact h.below k (hk.trans hij) hold
  · refine ⟨?_, fun k hk hkfree => ?_, fun hlt => ?_⟩
    · rw [length_set]
      exact h.le_length
    · obtain rfl | hold := (hfree k).1 hkfree
      · exact hij hk
      · exact h.below k hk hold
    · rw [length_set] at hlt
      exact (hfree j).2 (.inr (h.free hlt))

theorem LeastFree.set_some (h : LeastFree addr j)
    (hij : i ≠ j) : LeastFree (addr.set i (some p)) j := by
  refine ⟨?_, fun k hk hkfree => ?_, fun hlt => ?_⟩
  · rw [length_set]
    exact h.le_length
  · exact h.below k hk (free_set_some.1 hkfree).2
  · rw [length_set] at hlt
    exact free_set_some.2 ⟨hij.symm, h.free hlt⟩

theorem LeastFree.advance (h : LeastFree addr j) :
    LeastFree (addr.set j (some p)) ((nextFree addr (j + 1)).getD addr.length) := by
  have hbelow : ∀ k, k < j + 1 → ¬Free (addr.set j (some p)) k := by
    intro k hk hfree
    obtain ⟨hkj, hfree⟩ := free_set_some.1 hfree
    exact h.below k (by omega) hfree
  have hleast := leastFree_nextFree hbelow
  rw [nextFree_set (Nat.lt_succ_self j), length_set] at hleast
  exact hleast

theorem not_taken_of_lowerTaken (addr : List (Option α)) (h : ℕ) (hlower : lowerTaken addr h < i)
    (hi : i < h) : ¬Taken addr i := by
  induction h using lowerTaken.induct addr with
  | case1 => exact absurd hi (Nat.not_lt_zero i)
  | case2 =>
    rw [lowerTaken] at hlower
    omega
  | case3 h hfree ih =>
    rw [lowerTaken, if_pos hfree] at hlower
    by_cases hlast : i = h + 1
    · subst hlast
      intro htaken
      exact (not_free_iff_taken htaken.lt_length).2 htaken hfree
    · exact ih hlower (by omega)
  | case4 h hfree =>
    rw [lowerTaken, if_neg hfree] at hlower
    omega

end Entries

section Books

variable {α : Type} {table t : PointerArray α} {n index : ℕ} {value : Option α} {p : α}

/-- The cached fields say what is in the table. -/
structure Books (table : PointerArray α) : Prop where
  lowestFree : LeastFree table.addr table.lowestFree
  numberFree : table.numberFree = table.addr.countP isNone
  highestTaken : ∀ i : ℕ, table.highestTaken < i → ¬Taken table.addr i

theorem books_init {initialAllocation maxSize blockSize : ℤ} {granted : Bool}
    (h : init construct initialAllocation maxSize blockSize granted = some table) :
    Books table := by
  obtain ⟨n, -, -, rfl⟩ := init_cases h
  have hfree : ∀ k, k < n → Free (List.replicate n (none : Option α)) k := by
    intro k hk
    refine ⟨none, ?_, rfl⟩
    rw [getElem?_replicate]
    exact if_pos hk
  refine ⟨⟨Nat.zero_le _, fun k hk => absurd hk (Nat.not_lt_zero k), fun hlt => ?_⟩, ?_,
    fun i _ htaken => ?_⟩
  · rw [length_replicate] at hlt
    exact hfree 0 hlt
  · rw [countP_replicate]
    rfl
  · have hin := htaken.lt_length
    apply (not_free_iff_taken hin).2 htaken
    rw [length_replicate] at hin
    exact hfree i hin

theorem Books.resize (h : Books table) (hn : table.size ≤ n) : Books (table.resize n) := by
  have hlength : (table.resize n).addr.length = n := size_resize hn
  have hold : ∀ k, k < table.size → (Free (table.resize n).addr k ↔ Free table.addr k) := by
    intro k hk
    unfold Free EntryMeets
    rw [addr_resize hn, getElem?_append_left hk]
  have hnew : ∀ k, table.size ≤ k → k < n → Free (table.resize n).addr k := by
    intro k hk hkn
    refine ⟨none, ?_, rfl⟩
    rw [addr_resize hn, getElem?_append_right hk, getElem?_replicate]
    exact if_pos (Nat.sub_lt_sub_right hk hkn)
  refine ⟨⟨?_, fun k hk => ?_, fun hlt => ?_⟩, ?_, fun i hi htaken => ?_⟩
  · rw [hlength]
    exact h.lowestFree.le_length.trans hn
  · rw [hold k (hk.trans_le h.lowestFree.le_length)]
    exact h.lowestFree.below k hk
  · rw [hlength] at hlt
    by_cases hin : table.lowestFree < table.size
    · exact (hold _ hin).2 (h.lowestFree.free hin)
    · exact hnew _ (not_lt.1 hin) hlt
  · rw [addr_resize hn, countP_append, countP_replicate]
    have hnumber := h.numberFree
    change table.numberFree + ((n : ℤ) - table.size) = _
    simp only [isNone_none, if_true]
    omega
  · have hfree := (not_free_iff_taken htaken.lt_length).2 htaken
    by_cases hin : i < table.size
    · rw [hold i hin] at hfree
      exact h.highestTaken i hi ((not_free_iff_taken hin).1 hfree)
    · exact hfree (hnew i (not_lt.1 hin) (hlength ▸ htaken.lt_length))

theorem Books.place (h : Books table) (hlt : table.lowestFree < table.size) :
    Books (table.place (some p)) := by
  have haddr := addr_place table (some p)
  have hcount := count_set_some (p := p) hlt
  rw [if_pos (h.lowestFree.free hlt), ← haddr] at hcount
  have hnumber : table.numberFree - 1 = (table.place (some p)).addr.countP isNone := by
    rw [h.numberFree, ← hcount]
    omega
  have hleast : LeastFree (table.place (some p)).addr
      ((nextFree (table.place (some p)).addr (table.lowestFree + 1)).getD table.size) := by
    rw [haddr, nextFree_set (Nat.lt_succ_self _)]
    exact h.lowestFree.advance
  refine ⟨?_, hnumber, fun i hi htaken => ?_⟩
  · change LeastFree _ (if 0 < table.numberFree - 1 then
      (nextFree (table.place (some p)).addr (table.lowestFree + 1)).getD table.lowestFree
      else table.size)
    cases hnext : nextFree (table.place (some p)).addr (table.lowestFree + 1) with
    | none =>
      rw [hnext, getD_none] at hleast
      -- nothing is free any more
      have hnone : ∀ k, ¬Free (table.place (some p)).addr k := by
        intro k hk
        apply hleast.below k _ hk
        exact hk.lt_length.trans_eq length_set
      rw [hnumber, countP_eq_zero_iff.2 hnone, if_neg (by decide)]
      exact hleast
    | some j =>
      rw [hnext] at hleast
      have hpos : (table.place (some p)).addr.countP isNone ≠ 0 := by
        intro hzero
        exact countP_eq_zero_iff.1 hzero j (scanFrom_eq_some_iff.1 hnext).2.1
      rw [hnumber, if_pos (by omega)]
      exact hleast
  · rw [haddr, taken_set_some hlt] at htaken
    change (if table.highestTaken < table.lowestFree then _ else table.highestTaken) < _ at hi
    obtain rfl | htaken := htaken
    · split_ifs at hi
      · exact absurd hi (lt_irrefl _)
      · contradiction
    · apply h.highestTaken i _ htaken
      split_ifs at hi with hhigh
      · exact hhigh.trans hi
      · exact hi

theorem Books.store (h : Books table) (hlt : index < table.size) :
    Books (table.store index value) := by
  cases value with
  | none =>
    refine ⟨h.lowestFree.set_none hlt, ?_, fun i hi htaken => ?_⟩
    · have hcount := count_set_none hlt
      change (if Free table.addr index then table.numberFree else table.numberFree + 1) =
        ((table.addr.set index none).countP isNone : ℤ)
      rw [h.numberFree]
      split_ifs at hcount ⊢ <;> omega
    · obtain ⟨hne, htaken⟩ := taken_set_none.1 htaken
      change (if (index : ℤ) = table.highestTaken then lowerTaken table.addr index
        else table.highestTaken) < i at hi
      split_ifs at hi with hhigh
      · by_cases hin : i < index
        · exact not_taken_of_lowerTaken table.addr index hi hin htaken
        · exact h.highestTaken i (by omega) htaken
      · exact h.highestTaken i hi htaken
  | some p =>
    refine ⟨?_, ?_, fun i hi htaken => ?_⟩
    · change LeastFree _ (if index = table.lowestFree then _ else table.lowestFree)
      split_ifs with hlowest
      · subst hlowest
        exact h.lowestFree.advance
      · exact h.lowestFree.set_some hlowest
    · have hcount := count_set_some (p := p) hlt
      change (if Free table.addr index then table.numberFree - 1 else table.numberFree) =
        ((table.addr.set index (some p)).countP isNone : ℤ)
      rw [h.numberFree]
      split_ifs at hcount ⊢ <;> omega
    · change (if table.highestTaken < index then (index : ℤ) else table.highestTaken) < i at hi
      obtain rfl | htaken := (taken_set_some hlt).1 htaken
      · split_ifs at hi <;> omega
      · apply h.highestTaken i _ htaken
        split_ifs at hi <;> omega

theorem highestTaken_reserve (table : PointerArray α) (index : ℕ) (p : α) :
    (table.reserve index (some p)).highestTaken =
      if table.highestTaken < index then (index : ℤ) else table.highestTaken := by
  simp [PointerArray.reserve]

theorem Books.reserve (h : Books table) (hlt : index < table.size)
    (hfree : Free table.addr index) : Books (table.reserve index (some p)) := by
  refine ⟨?_, ?_, fun i hi htaken => ?_⟩
  · change LeastFree _ (if index = table.lowestFree then
      (nextFree (table.addr.set index (some p)) index).getD table.size else table.lowestFree)
    split_ifs with hlowest
    · have hbelow : ∀ k, k < index → ¬Free (table.addr.set index (some p)) k := by
        intro k hk hkfree
        exact h.lowestFree.below k (hlowest ▸ hk) (free_set_some.1 hkfree).2
      have hleast := leastFree_nextFree hbelow
      rw [length_set] at hleast
      exact hleast
    · exact h.lowestFree.set_some hlowest
  · have hcount := count_set_some (p := p) hlt
    change table.numberFree - 1 = ((table.addr.set index (some p)).countP isNone : ℤ)
    rw [if_pos hfree] at hcount
    rw [h.numberFree]
    omega
  · rw [highestTaken_reserve] at hi
    obtain rfl | htaken := (taken_set_some hlt).1 htaken
    · split_ifs at hi <;> omega
    · apply h.highestTaken i _ htaken
      split_ifs at hi <;> omega

theorem Books.extends (h : Books table) (hextends : Extends table t) : Books t := by
  obtain rfl | ⟨n, hn, rfl⟩ := hextends.grown
  · exact h
  · exact h.resize hn

end Books

section Results

variable {α : Type} {table : PointerArray α} {c : Call α} {calls : List (Call α)}

theorem taken_iff_getItem {i : ℕ} : Taken table.addr i ↔ table.getItem i ≠ none := by
  rw [getItem_eq]
  unfold Taken EntryMeets
  cases table.addr[i]? with
  | none => simp
  | some value => cases value <;> simp

/-- What is added or reserved is not `NULL`. -/
def NonNull : PointerArray α → Call α → Prop
  | _, .setSize _ _ | _, .setItem _ _ _ => True
  | _, .add ptr _ => ptr ≠ none
  | _, .testAndSetItem _ value _ => value ≠ none

/-- The invariant of the runs in which every entry is written inside the table. -/
structure Kempt (table : PointerArray α) : Prop where
  bounded : Bounded table
  books : Books table

theorem Kempt.step (h : Kempt table) (hc : Possible table c) (hnull : NonNull table c)
    (hfits : Fits table c) : Kempt (table.step c) := by
  refine ⟨h.bounded.step hc hfits, ?_⟩
  cases c with
  | setSize newSize granted => exact h.books.extends (h.bounded.setSize newSize granted).1
  | add ptr granted =>
    obtain ⟨p, rfl⟩ := ne_none_iff_exists'.1 hnull
    change if table.numberFree = 0 then table.size = 0 → table.maxSize ≤ 0
      else table.lowestFree < table.size at hfits
    change Books (table.add (some p) granted).1
    by_cases hfull : table.numberFree = 0
    · rw [if_pos hfull] at hfits
      cases hgrow :
          table.growTable (toInt (table.size * tableGrow)) ompiFortranHandleMax granted with
      | error t =>
        rw [h.bounded.add_of_error hfull hgrow, (h.bounded.grown_error hgrow).2 hfits]
        exact h.books
      | ok t =>
        obtain ⟨hextends, hiff⟩ := h.bounded.grown hgrow
        obtain ⟨n, -, hlt, -, -⟩ := growTable_eq_ok_iff.1 hgrow
        have hsize : table.size ≠ 0 := by
          intro hzero
          exact absurd (hfits hzero) (not_le.2 ((Int.natCast_nonneg n).trans_lt hlt))
        rw [h.bounded.add_of_ok hfull hgrow]
        apply (h.books.extends hextends).place
        rw [hextends.lowestFree]
        exact hiff.2 hsize
    · rw [if_neg hfull] at hfits
      rw [add_of_room hfull]
      exact h.books.place hfits
  | setItem index value granted =>
    change Books (table.setItem index value granted).1
    cases hreach : table.reach index granted with
    | error t =>
      rw [setItem_of_error hreach, (h.bounded.reach_error hc hreach).2 hfits]
      exact h.books
    | ok t =>
      obtain ⟨hextends, hiff⟩ := h.bounded.reach hc hreach
      rw [setItem_of_ok hreach]
      exact (h.books.extends hextends).store (hiff.2 hfits)
  | testAndSetItem index value granted =>
    obtain ⟨p, rfl⟩ := ne_none_iff_exists'.1 hnull
    change Books (table.testAndSetItem index (some p) granted).1
    by_cases huse : EntryMeets isSome table.addr index
    · rw [testAndSetItem_of_inUse huse]
      exact h.books
    · cases hreach : table.reach index granted with
      | error t =>
        rw [testAndSetItem_of_error huse hreach, (h.bounded.reach_error hc hreach).2 hfits]
        exact h.books
      | ok t =>
        obtain ⟨hextends, hiff⟩ := h.bounded.reach hc hreach
        rw [testAndSetItem_of_ok huse hreach]
        have hlt : index < t.size := hiff.2 hfits
        apply (h.books.extends hextends).reserve hlt
        by_contra hfree
        apply huse
        apply taken_iff_getItem.2
        rw [← hextends.getItem]
        exact taken_iff_getItem.1 ((not_free_iff_taken hlt).1 hfree)

/-- In every state that is reached by calls whose entries are inside the table, and that do not
give it back, the cached fields say what is in the table. -/
theorem books_of_fits (initialAllocation maxSize blockSize : ℤ) {granted : Bool}
    (hmax : maxSize ≤ intMax) (hinitial : initialAllocation ≤ maxSize)
    (hinit : init construct initialAllocation maxSize blockSize granted = some table)
    (hrun : Along step Possible table calls) (hnull : Along step NonNull table calls)
    (hfits : Along step Fits table calls) : Books (calls.foldl step table) := by
  have hstart : Kempt table := ⟨bounded_init hmax hinitial hinit, books_init hinit⟩
  have hstep : ∀ (t : PointerArray α) (c : Call α), Kempt t →
      (Possible t c ∧ NonNull t c) ∧ Fits t c → Kempt (t.step c) :=
    fun t c h hc => h.step hc.1.1 hc.1.2 hc.2
  exact (Along.invariant hstep hstart ((hrun.and hnull).and hfits)).books

theorem books_of_fits_single :
    Books ([Call.testAndSetItem 1 (some 7) true, .add (some 5) true].foldl step single) :=
  books_of_fits 1 3 1 (by decide) (by decide) (rfl : init construct 1 3 1 true = some single)
    ⟨(by decide : ((1 : ℕ) : ℤ) ≤ intMax), trivial, trivial⟩
    ⟨(by decide : some 7 ≠ none), (by decide : some 5 ≠ none), trivial⟩
    (by decide)

/-- For index 2 the table grows to two entries, and one of them is counted as taken. -/
theorem array_books_lost :
    ¬∀ (initialAllocation maxSize blockSize : ℤ) (granted : Bool) (table : PointerArray ℕ)
      (calls : List (Call ℕ)), maxSize ≤ intMax → initialAllocation ≤ maxSize →
        init construct initialAllocation maxSize blockSize granted = some table →
          Along step Possible table calls → Along step NonNull table calls →
            Books (calls.foldl step table) := by
  intro h
  have hindex : ((2 : ℕ) : ℤ) ≤ intMax := by decide
  have hvalue : some 7 ≠ none := by decide
  have hbooks := h 1 3 1 true single [.testAndSetItem 2 (some 7) true] (by decide) (by decide) rfl
    ⟨hindex, trivial⟩ ⟨hvalue, trivial⟩
  have hnumber := hbooks.numberFree
  revert hnumber
  decide

end Results

end PointerArray

end Ulfm.Opal
