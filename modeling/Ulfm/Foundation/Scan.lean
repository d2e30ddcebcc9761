import Mathlib.Data.List.Basic

/-!
# Searching a table

`scanFrom p l i` is the least index from `i` on whose entry meets `p`, as a loop
finds it that walks the table upwards.
-/

namespace Ulfm

open List Option

section Scan

variable {α : Type} {p : α → Bool} {l : List α} {i j : ℕ}

/-- The entry at an index is there and meets `p`. -/
def EntryMeets (p : α → Bool) (l : List α) (i : ℕ) : Prop := ∃ a, l[i]? = some a ∧ p a = true

instance EntryMeets.decidable (p : α → Bool) (l : List α) (i : ℕ) : Decidable (EntryMeets p l i) :=
  decidable_of_iff (l[i]?.any p = true) (any_eq_true_iff_get p _ |>.trans (by
    simp [EntryMeets, eq_some_iff_get_eq]))

theorem EntryMeets.lt_length (h : EntryMeets p l i) : i < l.length := by
  obtain ⟨a, ha, -⟩ := h
  exact (List.getElem?_eq_some_iff.1 ha).1

theorem entryMeets_set {a : α} : EntryMeets p (l.set i a) j ↔
      if j = i then i < l.length ∧ p a = true else EntryMeets p l j := by
  unfold EntryMeets
  split_ifs with hj
  · subst hj
    rw [getElem?_set_self']
    constructor
    · rintro ⟨b, hb, hp⟩
      obtain ⟨c, hc, rfl⟩ := map_eq_some_iff.1 hb
      exact ⟨(List.getElem?_eq_some_iff.1 hc).1, hp⟩
    · intro ⟨hlt, hp⟩
      exact ⟨a, by rw [getElem?_eq_getElem hlt]; rfl, hp⟩
  · rw [getElem?_set_ne (Ne.symm hj)]

theorem countP_set_add {a : α} (h : i < l.length) :
    (l.set i a).countP p + (if EntryMeets p l i then 1 else 0) =
      l.countP p + (if p a then 1 else 0) := by
  have hmeets : EntryMeets p l i ↔ p l[i] = true := by
    unfold EntryMeets
    rw [getElem?_eq_getElem h]
    simp
  rw [countP_set h]
  by_cases hp : p l[i] = true
  · have hpos : 0 < l.countP p := countP_pos_iff.2 ⟨l[i], getElem_mem h, hp⟩
    rw [if_pos (hmeets.2 hp), if_pos hp]
    omega
  · rw [if_neg fun hm => hp (hmeets.1 hm), if_neg hp]
    omega

theorem countP_eq_zero_iff : l.countP p = 0 ↔ ∀ k, ¬EntryMeets p l k := by
  rw [countP_eq_zero]
  constructor
  · rintro hall k ⟨a, ha, hp⟩
    exact hall a (mem_of_getElem? ha) hp
  · intro hall a ha hp
    obtain ⟨k, hk⟩ := mem_iff_getElem?.1 ha
    exact hall k ⟨a, hk, hp⟩

/-- The least index from `i` on whose entry meets `p`. -/
def scanFrom (p : α → Bool) (l : List α) (i : ℕ) : Option ℕ := ((l.drop i).findIdx? p).map (i + ·)

theorem scanFrom_eq_some_iff : scanFrom p l i = some j ↔
      i ≤ j ∧ EntryMeets p l j ∧ ∀ k, i ≤ k → k < j → ¬EntryMeets p l k := by
  unfold scanFrom
  rw [map_eq_some_iff]
  constructor
  · rintro ⟨d, hd, rfl⟩
    obtain ⟨hlt, hmeets, hbefore⟩ := findIdx?_eq_some_iff_getElem.1 hd
    rw [getElem_drop] at hmeets
    refine ⟨Nat.le_add_right i d, ⟨_, getElem?_eq_getElem _, hmeets⟩, fun k hik hkd hk => ?_⟩
    obtain ⟨a, ha, hpa⟩ := hk
    obtain ⟨m, rfl⟩ := Nat.exists_eq_add_of_le hik
    apply hbefore m (Nat.lt_of_add_lt_add_left hkd)
    rw [getElem_drop, (List.getElem?_eq_some_iff.1 ha).2, hpa]
  · rintro ⟨hij, ⟨a, ha, hpa⟩, hbefore⟩
    obtain ⟨d, rfl⟩ := Nat.exists_eq_add_of_le hij
    obtain ⟨hlt, hget⟩ := List.getElem?_eq_some_iff.1 ha
    refine ⟨d, findIdx?_eq_some_iff_getElem.2 ⟨?_, ?_, fun m hm hp => ?_⟩, rfl⟩
    · rw [length_drop]
      exact Nat.lt_sub_of_add_lt (by rwa [Nat.add_comm])
    · rw [getElem_drop, hget, hpa]
    · rw [getElem_drop] at hp
      exact hbefore (i + m) (Nat.le_add_right i m) (Nat.add_lt_add_left hm i)
        ⟨_, getElem?_eq_getElem _, hp⟩

theorem scanFrom_eq_none_iff : scanFrom p l i = none ↔ ∀ k, i ≤ k → ¬EntryMeets p l k := by
  unfold scanFrom
  rw [map_eq_none_iff, findIdx?_eq_none_iff]
  constructor
  · intro hall k hik ⟨a, ha, hpa⟩
    obtain ⟨m, rfl⟩ := Nat.exists_eq_add_of_le hik
    have hmem : a ∈ l.drop i := by
      apply mem_of_getElem? (i := m)
      rw [getElem?_drop, ha]
    exact Bool.noConfusion ((hall a hmem).symm.trans hpa)
  · intro hall a ha
    obtain ⟨m, hm⟩ := mem_iff_getElem?.1 ha
    rw [getElem?_drop] at hm
    have hnot := hall (i + m) (Nat.le_add_right i m)
    by_contra hp
    exact hnot ⟨a, hm, eq_true_of_ne_false hp⟩

end Scan

end Ulfm
