import Ulfm.Class.SeqTracker
import Ulfm.Foundation.Trace

/-!
# The tracker as a set of sequence ids

The ranges of a tracker in order hold exactly the ids inserted, as long as no call meets
the comparison `seq_id_high + 1 == seq_id` or `seq_id_low - 1 == seq_id` across the wrap
from `2^32 - 1` to `0`.
-/

namespace Ulfm

open List Zipper

namespace Seq

/-- The ranges are sorted, disjoint, and no two of them are adjacent. -/
structure Tidy (ranges : List Range) : Prop where
  proper : ∀ r ∈ ranges, r.seqIdLow.toNat ≤ r.seqIdHigh.toNat
  apart : ranges.Pairwise fun r r' => r.seqIdHigh.toNat + 1 < r'.seqIdLow.toNat

def Covers (ranges : List Range) (seqId : UInt32) : Prop := ∃ r ∈ ranges, r.Holds seqId

theorem Range.holds_iff {r : Range} {seqId : UInt32} :
    r.Holds seqId ↔ r.seqIdLow.toNat ≤ seqId.toNat ∧ seqId.toNat ≤ r.seqIdHigh.toNat := by
  rw [Range.Holds, UInt32.le_iff_toNat_le, UInt32.le_iff_toNat_le, and_comm]

theorem add_one_eq_iff {a b : UInt32} :
    a + 1 = b ↔ a.toNat + 1 = b.toNat ∨ a.toNat = 2 ^ 32 - 1 ∧ b.toNat = 0 := by
  have ha := a.toNat_lt
  have hb := b.toNat_lt
  rw [← UInt32.toNat_inj, UInt32.toNat_add, show (1 : UInt32).toNat = 1 from rfl]
  omega

theorem sub_one_eq_iff {a b : UInt32} :
    a - 1 = b ↔ b.toNat + 1 = a.toNat ∨ a.toNat = 0 ∧ b.toNat = 2 ^ 32 - 1 := by
  have ha := a.toNat_lt
  have hb := b.toNat_lt
  rw [← UInt32.toNat_inj, UInt32.toNat_sub, show (1 : UInt32).toNat = 1 from rfl]
  omega

theorem Tidy.nil : Tidy [] := ⟨by simp, List.Pairwise.nil⟩

section Replace

variable {left middle right : List Range} {r : Range} {seqId : UInt32}

theorem Tidy.replace (htidy : Tidy (left ++ middle ++ right))
    (hproper : r.seqIdLow.toNat ≤ r.seqIdHigh.toNat)
    (hleft : ∀ q ∈ left, q.seqIdHigh.toNat + 1 < r.seqIdLow.toNat)
    (hright : ∀ q ∈ right, r.seqIdHigh.toNat + 1 < q.seqIdLow.toNat) :
    Tidy (left ++ r :: right) := by
  obtain ⟨hall, hapart⟩ := htidy
  rw [List.append_assoc, pairwise_append, pairwise_append] at hapart
  obtain ⟨hl, ⟨-, hr, -⟩, hacross⟩ := hapart
  constructor
  · intro q hq
    rcases mem_append.1 hq with hq | hq
    · exact hall q (by simp [hq])
    · rcases mem_cons.1 hq with rfl | hq
      · exact hproper
      · exact hall q (by simp [hq])
  · rw [pairwise_append, pairwise_cons]
    refine ⟨hl, ⟨hright, hr⟩, ?_⟩
    intro q hq q' hq'
    rcases mem_cons.1 hq' with rfl | hq'
    · exact hleft q hq
    · exact hacross q hq q' (by simp [hq'])

theorem covers_replace
    (hholds : ∀ id, r.Holds id ↔ id = seqId ∨ ∃ q ∈ middle, q.Holds id) (id : UInt32) :
    Covers (left ++ r :: right) id ↔ id = seqId ∨ Covers (left ++ middle ++ right) id := by
  simp only [Covers, mem_append, mem_cons, or_and_right, exists_or,
    exists_eq_left, hholds, or_assoc, or_left_comm]

end Replace

/-- The list `ranges` with the id `seqId` added. -/
structure Adds (seqId : UInt32) (ranges ranges' : List Range) : Prop where
  tidy : Tidy ranges'
  covers : ∀ id, Covers ranges' id ↔ id = seqId ∨ Covers ranges id

theorem Adds.replace {left middle right : List Range} {r : Range} {seqId : UInt32}
    (htidy : Tidy (left ++ middle ++ right))
    (hproper : r.seqIdLow.toNat ≤ r.seqIdHigh.toNat)
    (hleft : ∀ q ∈ left, q.seqIdHigh.toNat + 1 < r.seqIdLow.toNat)
    (hright : ∀ q ∈ right, r.seqIdHigh.toNat + 1 < q.seqIdLow.toNat)
    (hholds : ∀ id, r.Holds id ↔ id = seqId ∨ ∃ q ∈ middle, q.Holds id) :
    Adds seqId (left ++ middle ++ right) (left ++ r :: right) :=
  ⟨htidy.replace hproper hleft hright, covers_replace hholds⟩

section Place

variable {seqId : UInt32} {item : Zipper Range}

theorem Tidy.focus (htidy : Tidy item.toList) :
    item.focus.seqIdLow.toNat ≤ item.focus.seqIdHigh.toNat :=
  htidy.proper _ (by simp)

theorem Tidy.before (htidy : Tidy item.toList) {r : Range} (hr : r ∈ item.before) :
    r.seqIdLow.toNat ≤ r.seqIdHigh.toNat ∧ r.seqIdHigh.toNat + 1 < item.focus.seqIdLow.toNat :=
  ⟨htidy.proper _ (by simp [hr]), (pairwise_toList.1 htidy.apart).2.2.1 r hr⟩

theorem Tidy.after (htidy : Tidy item.toList) {r : Range} (hr : r ∈ item.after) :
    r.seqIdLow.toNat ≤ r.seqIdHigh.toNat ∧ item.focus.seqIdHigh.toNat + 1 < r.seqIdLow.toNat :=
  ⟨htidy.proper _ (by simp [hr]), (pairwise_toList.1 htidy.apart).2.2.2.1 r hr⟩

/-- What a walk has behind it: on the way forward every range passed ends more than `gap`
before the id, on the way back every range passed begins more than `gap` after it. -/
structure Passed (gap : ℕ) (seqId : UInt32) (direction : Direction) (item : Zipper Range) :
    Prop where
  next : direction = .next →
    item.before ≠ [] ∧ ∀ r ∈ item.before, r.seqIdHigh.toNat + gap < seqId.toNat
  prev : direction = .prev →
    item.after ≠ [] ∧ ∀ r ∈ item.after, seqId.toNat + gap < r.seqIdLow.toNat

theorem Passed.start {gap : ℕ} : Passed gap seqId .none item := ⟨nofun, nofun⟩

theorem Passed.forward {gap : ℕ} (htidy : Tidy item.toList)
    (hhigh : item.focus.seqIdHigh.toNat + gap < seqId.toNat) {next : Zipper Range}
    (hnext : item.next = some next) : Passed gap seqId .next next := by
  have hbefore := (next_eq_some.1 hnext).1
  refine ⟨fun _ => ⟨by simp [hbefore], ?_⟩, nofun⟩
  intro r hr
  rcases mem_cons.1 (hbefore ▸ hr) with rfl | hr
  · exact hhigh
  · have hr' := htidy.before hr
    have hfocus := htidy.focus
    omega

theorem Passed.back {gap : ℕ} (htidy : Tidy item.toList)
    (hlow : seqId.toNat + gap < item.focus.seqIdLow.toNat) {prev : Zipper Range}
    (hprev : item.prev = some prev) : Passed gap seqId .prev prev := by
  have hafter := (prev_eq_some.1 hprev).1
  refine ⟨nofun, fun _ => ⟨by simp [hafter], ?_⟩⟩
  intro r hr
  rcases mem_cons.1 (hafter ▸ hr) with rfl | hr
  · exact hlow
  · have hr' := htidy.after hr
    have hfocus := htidy.focus
    omega

theorem not_covers (htidy : Tidy item.toList) (hfocus : ¬ item.focus.Holds seqId)
    (hbefore : seqId.toNat < item.focus.seqIdLow.toNat →
      ∀ r ∈ item.before, r.seqIdHigh.toNat < seqId.toNat)
    (hafter : item.focus.seqIdHigh.toNat < seqId.toNat →
      ∀ r ∈ item.after, seqId.toNat < r.seqIdLow.toNat) :
    ¬ Covers item.toList seqId := by
  rintro ⟨r, hr, hholds⟩
  rw [Range.holds_iff] at hfocus hholds
  have hproper := htidy.focus
  rcases mem_toList.1 hr with hr | rfl | hr
  · have hapart := htidy.before hr
    have hend := fun hlow => hbefore hlow r hr
    omega
  · exact hfocus hholds
  · have hapart := htidy.after hr
    have hend := fun hhigh => hafter hhigh r hr
    omega

end Place

section Walks

variable {seqId : UInt32} {direction : Direction} {item : Zipper Range}

theorem checkFrom_eq : checkFrom seqId direction item = if item.focus.Holds seqId then
      some item
    else if item.focus.seqIdHigh < seqId ∧ direction ≠ .prev then
      item.next.bind (checkFrom seqId .next)
    else if seqId < item.focus.seqIdLow ∧ direction ≠ .next then
      item.prev.bind (checkFrom seqId .prev)
    else
      none := by
  rw [checkFrom]
  congr 2
  · cases hnext : item.next <;> simp
  · congr 1
    cases hprev : item.prev <;> simp

theorem checkFrom_spec (htidy : Tidy item.toList) (hpassed : Passed 0 seqId direction item) :
    match checkFrom seqId direction item with
    | some found => found.toList = item.toList ∧ found.focus.Holds seqId
    | none => ¬ Covers item.toList seqId := by
  induction direction, item using checkFrom.induct seqId with
  | case1 direction item hholds =>
    rw [checkFrom_eq, if_pos hholds]
    exact ⟨rfl, hholds⟩
  | case2 direction item hholds hhigh hnext =>
    rw [checkFrom_eq, if_neg hholds, if_pos hhigh, hnext]
    apply not_covers htidy hholds
    · intro hlow
      have hproper := htidy.focus
      have hlt := UInt32.lt_iff_toNat_lt.1 hhigh.1
      omega
    · simp [next_eq_none.1 hnext]
  | case3 direction item hholds hhigh next hnext ih =>
    rw [checkFrom_eq, if_neg hholds, if_pos hhigh, hnext]
    have hlist := toList_of_next hnext
    rw [← hlist] at htidy ⊢
    exact ih htidy ((Passed.forward (hlist ▸ htidy) (UInt32.lt_iff_toNat_lt.1 hhigh.1) hnext))
  | case4 direction item hholds hhigh hlow hprev =>
    rw [checkFrom_eq, if_neg hholds, if_neg hhigh, if_pos hlow, hprev]
    apply not_covers htidy hholds
    · simp [prev_eq_none.1 hprev]
    · intro hhigh
      have hproper := htidy.focus
      have hlt := UInt32.lt_iff_toNat_lt.1 hlow.1
      omega
  | case5 direction item hholds hhigh hlow prev hprev ih =>
    rw [checkFrom_eq, if_neg hholds, if_neg hhigh, if_pos hlow, hprev]
    have hlist := toList_of_prev hprev
    rw [← hlist] at htidy ⊢
    exact ih htidy (Passed.back (hlist ▸ htidy) (UInt32.lt_iff_toNat_lt.1 hlow.1) hprev)
  | case6 direction item hholds hhigh hlow =>
    rw [checkFrom_eq, if_neg hholds, if_neg hhigh, if_neg hlow]
    apply not_covers htidy hholds
    · intro hlt
      have hdirection : direction = .next := by
        by_contra hne
        exact hlow ⟨UInt32.lt_iff_toNat_lt.2 hlt, hne⟩
      exact (hpassed.next hdirection).2
    · intro hlt
      have hdirection : direction = .prev := by
        by_contra hne
        exact hhigh ⟨UInt32.lt_iff_toNat_lt.2 hlt, hne⟩
      exact (hpassed.prev hdirection).2

theorem insertFrom_eq : insertFrom seqId direction item = if item.focus.Holds seqId then
      some item
    else if item.focus.seqIdHigh + 1 = seqId then
      some (growHigh seqId item)
    else if item.focus.seqIdLow - 1 = seqId then
      some (growLow seqId item)
    else if item.focus.seqIdHigh < seqId then
      if direction = .prev then
        some ⟨item.focus :: item.before, ⟨seqId, seqId⟩, item.after⟩
      else
        item.next.elim (some ⟨item.focus :: item.before, ⟨seqId, seqId⟩, []⟩)
          (insertFrom seqId .next)
    else if seqId < item.focus.seqIdLow then
      if direction = .next then
        some ⟨item.before, ⟨seqId, seqId⟩, item.focus :: item.after⟩
      else
        item.prev.elim (some ⟨[], ⟨seqId, seqId⟩, item.focus :: item.after⟩)
          (insertFrom seqId .prev)
    else
      none := by
  rw [insertFrom]
  congr 4
  · congr 1
    cases hnext : item.next <;> simp
  · congr 2
    cases hprev : item.prev <;> simp

theorem Adds.of_holds (htidy : Tidy item.toList) (hholds : item.focus.Holds seqId) :
    Adds seqId item.toList item.toList := by
  refine ⟨htidy, fun id => ⟨.inr, ?_⟩⟩
  rintro (rfl | hcovers)
  · exact ⟨item.focus, by simp, hholds⟩
  · exact hcovers

theorem growHigh_adds (htidy : Tidy item.toList)
    (hhigh : item.focus.seqIdHigh.toNat + 1 = seqId.toNat) :
    Adds seqId item.toList (growHigh seqId item).toList := by
  obtain ⟨before, ⟨high, low⟩, after⟩ := item
  have hproper := htidy.focus
  have hbefore := fun r hr => (htidy.before (r := r) hr).2
  have hafter := fun r hr => htidy.after (r := r) hr
  dsimp only at hhigh hproper hbefore hafter
  have grow : (∀ r ∈ after, seqId.toNat + 1 < r.seqIdLow.toNat) →
      Adds seqId (before.reverse ++ [⟨high, low⟩] ++ after)
        (before.reverse ++ ⟨seqId, low⟩ :: after) := by
    intro hright
    apply Adds.replace (by simpa [toList] using htidy)
    · dsimp only; omega
    · simpa using hbefore
    · exact hright
    · intro id
      simp only [mem_singleton, exists_eq_left, Range.holds_iff, ← UInt32.toNat_inj]
      omega
  cases after with
  | nil => simpa [growHigh, toList] using grow (by simp)
  | cons nextItem after =>
    have hnext := hafter nextItem (by simp)
    have hlow : nextItem.seqIdLow = seqId + 1 ↔ nextItem.seqIdLow.toNat = seqId.toNat + 1 := by
      rw [eq_comm, add_one_eq_iff]
      omega
    have hlater : ∀ r ∈ after, nextItem.seqIdHigh.toNat + 1 < r.seqIdLow.toNat :=
      (pairwise_cons.1 (pairwise_toList.1 htidy.apart).2.1).1
    by_cases hadjacent : nextItem.seqIdLow.toNat = seqId.toNat + 1
    · have merge : Adds seqId (before.reverse ++ [⟨high, low⟩, nextItem] ++ after)
          (before.reverse ++ ⟨nextItem.seqIdHigh, low⟩ :: after) := by
        apply Adds.replace (by simpa [toList] using htidy)
        · dsimp only; omega
        · simpa using hbefore
        · exact hlater
        · intro id
          simp only [mem_cons, not_mem_nil, or_false, exists_eq_or_imp,
            exists_eq_left, Range.holds_iff, ← UInt32.toNat_inj]
          omega
      simpa [growHigh, hlow, hadjacent, toList] using merge
    · have hright : ∀ r ∈ nextItem :: after, seqId.toNat + 1 < r.seqIdLow.toNat := by
        intro r hr
        rcases mem_cons.1 hr with rfl | hr
        · omega
        · have hlt := hlater r hr
          omega
      simpa [growHigh, hlow, hadjacent, toList] using grow hright

theorem growLow_adds (htidy : Tidy item.toList)
    (hlow : seqId.toNat + 1 = item.focus.seqIdLow.toNat) :
    Adds seqId item.toList (growLow seqId item).toList := by
  obtain ⟨before, ⟨high, low⟩, after⟩ := item
  have hproper := htidy.focus
  have hbefore := fun r hr => htidy.before (r := r) hr
  have hafter := fun r hr => (htidy.after (r := r) hr).2
  dsimp only at hlow hproper hbefore hafter
  have grow : (∀ r ∈ before, r.seqIdHigh.toNat + 1 < seqId.toNat) →
      Adds seqId (before.reverse ++ [⟨high, low⟩] ++ after)
        (before.reverse ++ ⟨high, seqId⟩ :: after) := by
    intro hleft
    apply Adds.replace (by simpa [toList] using htidy)
    · dsimp only; omega
    · simpa using hleft
    · exact hafter
    · intro id
      simp only [mem_singleton, exists_eq_left, Range.holds_iff, ← UInt32.toNat_inj]
      omega
  cases before with
  | nil => simpa [growLow, toList] using grow (by simp)
  | cons prevItem before =>
    have hprev := hbefore prevItem (by simp)
    have hhigh : prevItem.seqIdHigh = seqId - 1 ↔ prevItem.seqIdHigh.toNat + 1 = seqId.toNat := by
      rw [eq_comm, sub_one_eq_iff]
      omega
    have hearlier : ∀ r ∈ before, r.seqIdHigh.toNat + 1 < prevItem.seqIdLow.toNat :=
      (pairwise_cons.1 (pairwise_toList.1 htidy.apart).1).1
    by_cases hadjacent : prevItem.seqIdHigh.toNat + 1 = seqId.toNat
    · have merge : Adds seqId (before.reverse ++ [prevItem, ⟨high, low⟩] ++ after)
          (before.reverse ++ ⟨high, prevItem.seqIdLow⟩ :: after) := by
        apply Adds.replace (by simpa [toList] using htidy)
        · dsimp only; omega
        · simpa using hearlier
        · exact hafter
        · intro id
          simp only [mem_cons, not_mem_nil, or_false, exists_eq_or_imp,
            exists_eq_left, Range.holds_iff, ← UInt32.toNat_inj]
          omega
      simpa [growLow, hhigh, hadjacent, toList] using merge
    · have hleft : ∀ r ∈ prevItem :: before, r.seqIdHigh.toNat + 1 < seqId.toNat := by
        intro r hr
        rcases mem_cons.1 hr with rfl | hr
        · omega
        · have hlt := hearlier r hr
          omega
      simpa [growLow, hhigh, hadjacent, toList] using grow hleft

theorem new_adds {left right : List Range} (htidy : Tidy (left ++ right))
    (hleft : ∀ r ∈ left, r.seqIdHigh.toNat + 1 < seqId.toNat)
    (hright : ∀ r ∈ right, seqId.toNat + 1 < r.seqIdLow.toNat) :
    Adds seqId (left ++ right) (left ++ ⟨seqId, seqId⟩ :: right) := by
  have hadds : Adds seqId (left ++ [] ++ right) (left ++ ⟨seqId, seqId⟩ :: right) := by
    apply Adds.replace (by simpa using htidy) (Nat.le_refl _) hleft hright
    intro id
    simp only [not_mem_nil, false_and, exists_false, or_false, Range.holds_iff, ← UInt32.toNat_inj]
    omega
  simpa using hadds

/-- Where an insertion meets the wrap at the range the last operation ended at: 0 is
inserted there and the range ends at `2^32 - 1`, or `2^32 - 1` is and it begins at 0. -/
def AtWrap (seqId : UInt32) (r : Range) : Prop :=
  seqId.toNat = 0 ∧ r.seqIdHigh.toNat = 2 ^ 32 - 1 ∧ 0 < r.seqIdLow.toNat ∨
    seqId.toNat = 2 ^ 32 - 1 ∧ r.seqIdLow.toNat = 0 ∧ r.seqIdHigh.toNat < 2 ^ 32 - 2

instance (r : Range) : Decidable (AtWrap seqId r) := inferInstanceAs (Decidable (_ ∨ _))

theorem Passed.not_atWrap {gap : ℕ} (htidy : Tidy item.toList)
    (hpassed : Passed gap seqId direction item) (hdirection : direction ≠ .none) :
    ¬ AtWrap seqId item.focus := by
  have hseq := seqId.toNat_lt
  rintro (⟨hzero, hhigh, -⟩ | ⟨hmax, hlow, -⟩)
  · cases direction with
    | none => exact hdirection rfl
    | next =>
      obtain ⟨hne, hbefore⟩ := hpassed.next rfl
      obtain ⟨r, hr⟩ := exists_mem_of_ne_nil _ hne
      have hlt := hbefore r hr
      omega
    | prev =>
      obtain ⟨hne, -⟩ := hpassed.prev rfl
      obtain ⟨r, hr⟩ := exists_mem_of_ne_nil _ hne
      have hr' := htidy.after hr
      have hlt := r.seqIdLow.toNat_lt
      omega
  · cases direction with
    | none => exact hdirection rfl
    | next =>
      obtain ⟨hne, -⟩ := hpassed.next rfl
      obtain ⟨r, hr⟩ := exists_mem_of_ne_nil _ hne
      have hr' := htidy.before hr
      omega
    | prev =>
      obtain ⟨hne, hafter⟩ := hpassed.prev rfl
      obtain ⟨r, hr⟩ := exists_mem_of_ne_nil _ hne
      have hlt := hafter r hr
      have hlow' := r.seqIdLow.toNat_lt
      omega

theorem gap_above (hhigh : ¬ item.focus.seqIdHigh + 1 = seqId)
    (hlt : item.focus.seqIdHigh < seqId) :
    item.focus.seqIdHigh.toNat + 1 < seqId.toNat := by
  rw [add_one_eq_iff] at hhigh
  rw [UInt32.lt_iff_toNat_lt] at hlt
  omega

theorem gap_below (hlow : ¬ item.focus.seqIdLow - 1 = seqId) (hlt : seqId < item.focus.seqIdLow) :
    seqId.toNat + 1 < item.focus.seqIdLow.toNat := by
  rw [sub_one_eq_iff] at hlow
  rw [UInt32.lt_iff_toNat_lt] at hlt
  omega

theorem new_after_adds (htidy : Tidy item.toList)
    (hgap : item.focus.seqIdHigh.toNat + 1 < seqId.toNat)
    (hafter : ∀ r ∈ item.after, seqId.toNat + 1 < r.seqIdLow.toNat) :
    Adds seqId item.toList
      (Zipper.mk (item.focus :: item.before) ⟨seqId, seqId⟩ item.after).toList := by
  have hproper := htidy.focus
  have hleft : ∀ r ∈ item.before.reverse ++ [item.focus], r.seqIdHigh.toNat + 1 < seqId.toNat := by
    intro r hr
    rcases mem_append.1 hr with hr | hr
    · have hbefore := htidy.before (mem_reverse.1 hr)
      omega
    · rw [mem_singleton.1 hr]
      exact hgap
  have htidy' : Tidy ((item.before.reverse ++ [item.focus]) ++ item.after) := by
    simpa [toList] using htidy
  simpa [toList] using new_adds htidy' hleft hafter

theorem new_before_adds (htidy : Tidy item.toList)
    (hgap : seqId.toNat + 1 < item.focus.seqIdLow.toNat)
    (hbefore : ∀ r ∈ item.before, r.seqIdHigh.toNat + 1 < seqId.toNat) :
    Adds seqId item.toList
      (Zipper.mk item.before ⟨seqId, seqId⟩ (item.focus :: item.after)).toList := by
  have hproper := htidy.focus
  have hright : ∀ r ∈ item.focus :: item.after, seqId.toNat + 1 < r.seqIdLow.toNat := by
    intro r hr
    rcases mem_cons.1 hr with rfl | hr
    · exact hgap
    · have hafter := htidy.after hr
      omega
  exact new_adds htidy (by simpa using hbefore) hright

theorem insertFrom_adds (htidy : Tidy item.toList) (hpassed : Passed 1 seqId direction item)
    (hwrap : ¬ AtWrap seqId item.focus) :
    ∃ item', insertFrom seqId direction item = some item' ∧
      Adds seqId item.toList item'.toList := by
  induction direction, item using insertFrom.induct seqId with
  | case1 direction item hholds =>
    rw [insertFrom_eq, if_pos hholds]
    exact ⟨item, rfl, Adds.of_holds htidy hholds⟩
  | case2 direction item hholds hhigh =>
    rw [insertFrom_eq, if_neg hholds, if_pos hhigh]
    refine ⟨_, rfl, growHigh_adds htidy ?_⟩
    rw [Range.holds_iff] at hholds
    rw [AtWrap] at hwrap
    have hproper := htidy.focus
    rcases add_one_eq_iff.1 hhigh with hnext | hmax <;> omega
  | case3 direction item hholds hhigh hlow =>
    rw [insertFrom_eq, if_neg hholds, if_neg hhigh, if_pos hlow]
    refine ⟨_, rfl, growLow_adds htidy ?_⟩
    rw [Range.holds_iff] at hholds
    rw [add_one_eq_iff] at hhigh
    rw [AtWrap] at hwrap
    have hlt := item.focus.seqIdHigh.toNat_lt
    rcases sub_one_eq_iff.1 hlow with hprev | hmin <;> omega
  | case4 item hholds hhigh hlow hlt =>
    rw [insertFrom_eq, if_neg hholds, if_neg hhigh, if_neg hlow, if_pos hlt, if_pos rfl]
    exact ⟨_, rfl, new_after_adds htidy (gap_above hhigh hlt) (hpassed.prev rfl).2⟩
  | case5 direction item hholds hhigh hlow hlt hdirection hnext =>
    rw [insertFrom_eq, if_neg hholds, if_neg hhigh, if_neg hlow, if_pos hlt,
      if_neg hdirection, hnext]
    have hafter := next_eq_none.1 hnext
    have hadds := new_after_adds htidy (gap_above hhigh hlt) (by simp [hafter])
    rw [hafter] at hadds
    exact ⟨_, rfl, hadds⟩
  | case6 direction item hholds hhigh hlow hlt hdirection next hnext ih =>
    rw [insertFrom_eq, if_neg hholds, if_neg hhigh, if_neg hlow, if_pos hlt,
      if_neg hdirection, hnext]
    have hlist := toList_of_next hnext
    have hforward := Passed.forward htidy (gap_above hhigh hlt) hnext
    rw [← hlist] at htidy ⊢
    exact ih htidy hforward (hforward.not_atWrap htidy (by decide))
  | case7 item hholds hhigh hlow hlt hlt' =>
    rw [insertFrom_eq, if_neg hholds, if_neg hhigh, if_neg hlow, if_neg hlt, if_pos hlt',
      if_pos rfl]
    exact ⟨_, rfl, new_before_adds htidy (gap_below hlow hlt') (hpassed.next rfl).2⟩
  | case8 direction item hholds hhigh hlow hlt hlt' hdirection hprev =>
    rw [insertFrom_eq, if_neg hholds, if_neg hhigh, if_neg hlow, if_neg hlt, if_pos hlt',
      if_neg hdirection, hprev]
    have hbefore := prev_eq_none.1 hprev
    have hadds := new_before_adds htidy (gap_below hlow hlt') (by simp [hbefore])
    rw [hbefore] at hadds
    exact ⟨_, rfl, hadds⟩
  | case9 direction item hholds hhigh hlow hlt hlt' hdirection prev hprev ih =>
    rw [insertFrom_eq, if_neg hholds, if_neg hhigh, if_neg hlow, if_neg hlt, if_pos hlt',
      if_neg hdirection, hprev]
    have hlist := toList_of_prev hprev
    have hback := Passed.back htidy (gap_below hlow hlt') hprev
    rw [← hlist] at htidy ⊢
    exact ih htidy hback (hback.not_atWrap htidy (by decide))
  | case10 direction item hholds hhigh hlow hlt hlt' =>
    rw [Range.holds_iff] at hholds
    rw [UInt32.lt_iff_toNat_lt] at hlt hlt'
    omega

/-- An insertion that meets the wrap leaves a range that ends before it begins, and a search
for an id the range held fails right there. -/
theorem insertFrom_wrap (htidy : Tidy item.toList) (hwrap : AtWrap seqId item.focus) :
    ∃ item' id, insertFrom seqId .none item = some item' ∧ item.focus.Holds id ∧
      checkFrom id .none item' = none := by
  have hproper := htidy.focus
  have hseq := seqId.toNat_lt
  rcases hwrap with ⟨hzero, hhigh, hlow⟩ | ⟨hmax, hlow, hhigh⟩
  · have hafter : item.after = [] := by
      rw [eq_nil_iff_forall_not_mem]
      intro r hr
      have hr' := htidy.after hr
      have hlt := r.seqIdLow.toNat_lt
      omega
    have hnext : ({ item with focus := { item.focus with seqIdHigh := seqId } } :
        Zipper Range).next = none := next_eq_none.2 hafter
    refine ⟨{ item with focus := { item.focus with seqIdHigh := seqId } },
      item.focus.seqIdHigh, ?_, Range.holds_iff.2 ⟨hproper, Nat.le_refl _⟩, ?_⟩
    · rw [insertFrom_eq, if_neg (by rw [Range.holds_iff]; omega),
        if_pos (add_one_eq_iff.2 (.inr ⟨hhigh, hzero⟩))]
      simp [growHigh, hafter]
    · rw [checkFrom_eq, hnext, if_neg (by rw [Range.holds_iff]; dsimp only; omega), if_pos]
      · rfl
      · exact ⟨UInt32.lt_iff_toNat_lt.2 (by dsimp only; omega), by decide⟩
  · have hbefore : item.before = [] := by
      rw [eq_nil_iff_forall_not_mem]
      intro r hr
      have hr' := htidy.before hr
      omega
    have hprev : ({ item with focus := { item.focus with seqIdLow := seqId } } :
        Zipper Range).prev = none := prev_eq_none.2 hbefore
    refine ⟨{ item with focus := { item.focus with seqIdLow := seqId } },
      item.focus.seqIdLow, ?_, Range.holds_iff.2 ⟨Nat.le_refl _, hproper⟩, ?_⟩
    · rw [insertFrom_eq, if_neg (by rw [Range.holds_iff]; omega),
        if_neg (by rw [add_one_eq_iff]; omega), if_pos (sub_one_eq_iff.2 (.inr ⟨hlow, hmax⟩))]
      simp [growLow, hbefore]
    · rw [checkFrom_eq, hprev, if_neg (by rw [Range.holds_iff]; dsimp only; omega), if_neg, if_pos]
      · rfl
      · exact ⟨UInt32.lt_iff_toNat_lt.2 (by dsimp only; omega), by decide⟩
      · rw [UInt32.lt_iff_toNat_lt]
        omega

end Walks

section Calls

/-- The tracker answers for the set of ids inserted, and its ranges are in order. -/
structure Tracks (calls : List Call) (t : Tracker) : Prop where
  check_iff : ∀ seqId, (t.checkDuplicate seqId).1 = true ↔ .insert seqId ∈ calls
  tidy : Tidy t.seqIds

/-- A call that meets the wrap at the current range. -/
def Tracker.Wraps (t : Tracker) : Call → Prop
  | .insert seqId => ∃ item, t = some item ∧ AtWrap seqId item.focus
  | .checkDuplicate _ => False

theorem Tracker.check_iff_covers {t : Tracker} (htidy : Tidy t.seqIds) (seqId : UInt32) :
    (t.checkDuplicate seqId).1 = true ↔ Covers t.seqIds seqId := by
  cases t with
  | none => simp [Tracker.checkDuplicate, Tracker.seqIds, Covers]
  | some item =>
    have hspec := @checkFrom_spec seqId .none item htidy Passed.start
    rw [Tracker.checkDuplicate]
    cases hfound : checkFrom seqId .none item with
    | none =>
      rw [hfound] at hspec
      exact iff_of_false (by simp) hspec
    | some found =>
      rw [hfound] at hspec
      have hmem : found.focus ∈ item.toList := hspec.1 ▸ mem_toList.2 (.inr (.inl rfl))
      exact iff_of_true rfl ⟨found.focus, hmem, hspec.2⟩

theorem Tracker.seqIds_checkDuplicate {t : Tracker} (htidy : Tidy t.seqIds) (seqId : UInt32) :
    (t.checkDuplicate seqId).2.seqIds = t.seqIds := by
  cases t with
  | none => rfl
  | some item =>
    have hspec := @checkFrom_spec seqId .none item htidy Passed.start
    rw [Tracker.checkDuplicate]
    cases hfound : checkFrom seqId .none item with
    | none => rfl
    | some found =>
      rw [hfound] at hspec
      exact hspec.1

theorem Tracks.covers_iff {calls : List Call} {t : Tracker} (h : Tracks calls t)
    (seqId : UInt32) : Covers t.seqIds seqId ↔ .insert seqId ∈ calls :=
  (Tracker.check_iff_covers h.tidy seqId).symm.trans (h.check_iff seqId)

theorem Tracks.of_covers {calls : List Call} {t : Tracker} (htidy : Tidy t.seqIds)
    (hcovers : ∀ seqId, Covers t.seqIds seqId ↔ .insert seqId ∈ calls) : Tracks calls t :=
  ⟨fun seqId => (Tracker.check_iff_covers htidy seqId).trans (hcovers seqId), htidy⟩

theorem Tracks.start : Tracks [] none :=
  Tracks.of_covers Tidy.nil (by simp [Tracker.seqIds, Covers])

theorem Tracker.insert_adds {t : Tracker} (htidy : Tidy t.seqIds) {seqId : UInt32}
    (hwrap : ¬ t.Wraps (.insert seqId)) : Adds seqId t.seqIds (t.insert seqId).seqIds := by
  cases t with
  | none => exact @new_adds seqId [] [] Tidy.nil (by simp) (by simp)
  | some item =>
    obtain ⟨item', hinsert, hadds⟩ := insertFrom_adds htidy Passed.start
      fun h => hwrap ⟨item, rfl, h⟩
    simpa [Tracker.insert, hinsert, Tracker.seqIds] using hadds

theorem Tracks.step_iff {calls : List Call} {t : Tracker} (h : Tracks calls t) (c : Call) :
    Tracks (calls ++ [c]) (t.step c) ↔ ¬ t.Wraps c := by
  cases c with
  | checkDuplicate seqId =>
    refine iff_of_true (Tracks.of_covers ?_ fun id => ?_) id
    · rw [Tracker.step, Tracker.seqIds_checkDuplicate h.tidy]
      exact h.tidy
    · rw [Tracker.step, Tracker.seqIds_checkDuplicate h.tidy, h.covers_iff]
      simp
  | insert seqId =>
    constructor
    · rintro htracks ⟨item, rfl, hwrap⟩
      obtain ⟨item', id, hinsert, hholds, hcheck⟩ := insertFrom_wrap h.tidy hwrap
      have hmem : .insert id ∈ calls :=
        (h.covers_iff id).1 ⟨item.focus, by simp [Tracker.seqIds], hholds⟩
      have hfound := (htracks.check_iff id).2 (by simp [hmem])
      simp [Tracker.step, Tracker.insert, hinsert, Tracker.checkDuplicate, hcheck] at hfound
    · intro hwrap
      have hadds := Tracker.insert_adds h.tidy hwrap
      apply Tracks.of_covers hadds.tidy
      intro id
      rw [hadds.covers, h.covers_iff]
      simp [or_comm]

/-- In a run the tracker is the set of the ids inserted, with its ranges in order, in every
state reached, exactly when no call of the run meets the wrap. -/
theorem tracks_iff (calls : List Call) :
    (∀ earlier, earlier <+: calls → Tracks earlier (reached earlier)) ↔
      ∀ earlier c, earlier ++ [c] <+: calls → ¬ (reached earlier).Wraps c := by
  apply forall_prefix_iff (P := fun earlier => Tracks earlier (reached earlier))
    (Q := fun earlier c => ¬ (reached earlier).Wraps c)
  · exact Tracks.start
  · intro earlier c h
    rw [reached, foldl_append]
    exact h.step_iff c

/-- After the ids `2^32 - 1` and 0 the tracker denies the first. -/
theorem wrapped_not_tracks : ¬ ∀ calls : List Call, Tracks calls (reached calls) := by
  intro hall
  have hcheck := ((hall [.insert 4294967295, .insert 0]).check_iff 4294967295).2 (by simp)
  simp [reached, Tracker.step, Tracker.insert, insertFrom_eq, Range.Holds, growHigh,
    Tracker.checkDuplicate, checkFrom_eq, Zipper.next] at hcheck

end Calls

end Seq

end Ulfm
