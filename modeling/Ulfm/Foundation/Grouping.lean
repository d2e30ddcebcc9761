import Mathlib.Data.List.Perm.Basic
import Mathlib.Data.List.TakeWhile

/-!
# Groups of entries with one key

The entries of a list with the same key, each group where its first entry stands. An entry without
a key is a group of its own. The groups one after the other are the list exactly if the entries of
every key stand together.
-/

namespace Ulfm

open List Nat

section Together

variable {α κ : Type} {key : α → Option κ} {a : α} {l : List α} {k : κ}

/-- Between two entries with one key there are only entries with this key. -/
def Together (key : α → Option κ) (l : List α) : Prop :=
  ∀ (i j m : ℕ) (x y z : α), i < j → j < m → l[i]? = some x → l[j]? = some y → l[m]? = some z →
    key x = key z → (key x).isSome → key y = key x

theorem Together.tail (h : Together key (a :: l)) : Together key l := by
  intro i j m x y z hij hjm hx hy hz
  exact h (i + 1) (j + 1) (m + 1) x y z (succ_lt_succ hij) (succ_lt_succ hjm) hx hy hz

theorem together_cons_none (ha : key a = none) (h : Together key l) : Together key (a :: l) := by
  intro i j m x y z hij hjm hx hy hz hxz hsome
  cases i with
  | zero =>
    obtain rfl : a = x := Option.some.inj hx
    rw [ha] at hsome
    exact nomatch hsome
  | succ i =>
    cases j with
    | zero => exact absurd hij (Nat.not_lt_zero _)
    | succ j =>
      cases m with
      | zero => exact absurd hjm (Nat.not_lt_zero _)
      | succ m =>
        exact h i j m x y z (lt_of_succ_lt_succ hij) (lt_of_succ_lt_succ hjm) hx hy hz
          hxz hsome

theorem Together.drop {xs ys : List α} (h : Together key (xs ++ ys)) : Together key ys := by
  induction xs with
  | nil => exact h
  | cons x xs ih => exact ih h.tail

theorem together_append {xs ys : List α} (hxs : ∀ x ∈ xs, key x = some k)
    (hys : ∀ y ∈ ys, key y ≠ some k) (h : Together key ys) : Together key (xs ++ ys) := by
  induction xs with
  | nil => exact h
  | cons a xs ih =>
    have ih := ih fun x hx => hxs x (mem_cons_of_mem _ hx)
    intro i j m x y z hij hjm hx hy hz hxz hsome
    cases j with
    | zero => exact absurd hij (Nat.not_lt_zero _)
    | succ j =>
      cases m with
      | zero => exact absurd hjm (Nat.not_lt_zero _)
      | succ m =>
        rw [cons_append] at hx hy hz
        rw [getElem?_cons_succ] at hy hz
        cases i with
        | succ i =>
          exact ih i j m x y z (lt_of_succ_lt_succ hij) (lt_of_succ_lt_succ hjm) hx
            hy hz hxz hsome
        | zero =>
          obtain rfl : a = x := Option.some.inj hx
          have ha : key a = some k := hxs a mem_cons_self
          have hm : m < xs.length := by
            by_contra hle
            rw [getElem?_append_right (Nat.le_of_not_lt hle)] at hz
            exact hys z (mem_of_getElem? hz) (hxz.symm.trans ha)
          have hj : j < xs.length := Nat.lt_trans (lt_of_succ_lt_succ hjm) hm
          rw [getElem?_append_left hj] at hy
          rw [ha]
          exact hxs y (mem_cons_of_mem _ (mem_of_getElem? hy))

end Together

section Grouping

variable {α κ : Type} [DecidableEq κ] {key : α → Option κ} {a : α} {l : List α} {k : κ}

def ofKey (key : α → Option κ) (k : κ) (l : List α) : List α := l.filter (key · = some k)

def offKey (key : α → Option κ) (k : κ) (l : List α) : List α := l.filter (key · ≠ some k)

theorem mem_ofKey : a ∈ ofKey key k l ↔ a ∈ l ∧ key a = some k := by
  rw [ofKey, mem_filter, decide_eq_true_iff]

theorem mem_offKey : a ∈ offKey key k l ↔ a ∈ l ∧ key a ≠ some k := by
  rw [offKey, mem_filter, decide_eq_true_iff]

theorem ofKey_cons_self (ha : key a = some k) : ofKey key k (a :: l) = a :: ofKey key k l :=
  filter_cons_of_pos (decide_eq_true ha)

theorem ofKey_cons_of_ne (ha : key a ≠ some k) : ofKey key k (a :: l) = ofKey key k l :=
  filter_cons_of_neg (fun h => ha (of_decide_eq_true h))

theorem offKey_cons_self (ha : key a = some k) : offKey key k (a :: l) = offKey key k l :=
  filter_cons_of_neg (fun h => of_decide_eq_true h ha)

theorem offKey_cons_of_ne (ha : key a ≠ some k) : offKey key k (a :: l) = a :: offKey key k l :=
  filter_cons_of_pos (decide_eq_true ha)

theorem ofKey_offKey {k' : κ} (h : k' ≠ k) : ofKey key k' (offKey key k l) = ofKey key k' l := by
  rw [ofKey, offKey, filter_filter]
  apply filter_congr
  intro x _
  by_cases hx : key x = some k'
  · simp [hx, h]
  · simp [hx]

theorem ofKey_perm (k : κ) (l : List α) : (ofKey key k l ++ offKey key k l).Perm l := by
  have hsplit := filter_append_perm (fun x => decide (key x = some k)) l
  simpa only [ofKey, offKey, ← decide_not] using hsplit

def grouped (key : α → Option κ) : List α → List (List α)
  | [] => []
  | a :: l =>
    match key a with
    | none => [a] :: grouped key l
    | some k => (a :: ofKey key k l) :: grouped key (offKey key k l)
termination_by l => l.length
decreasing_by
  · exact Nat.lt_succ_self _
  · exact Nat.lt_succ_of_le (length_filter_le _ _)

theorem grouped_nil : grouped key [] = [] := by
  unfold grouped
  rfl

theorem grouped_cons_none (ha : key a = none) : grouped key (a :: l) = [a] :: grouped key l := by
  rw [grouped, ha]

theorem grouped_cons_some (ha : key a = some k) : grouped key (a :: l) =
      (a :: ofKey key k l) :: grouped key (offKey key k l) := by
  rw [grouped, ha]

/-- An entry at the end of the group with its key, or as a new group. -/
def joinGroup (key : α → Option κ) (a : α) : List (List α) → List (List α)
  | [] => [[a]]
  | g :: gs =>
    if (key a).isSome ∧ g.head?.bind key = key a then (g ++ [a]) :: gs
    else g :: joinGroup key a gs

theorem grouped_concat (l : List α) (a : α) :
    grouped key (l ++ [a]) = joinGroup key a (grouped key l) := by
  induction l using grouped.induct key with
  | case1 =>
    rw [nil_append, grouped_nil, joinGroup]
    cases ha : key a with
    | none => rw [grouped_cons_none ha, grouped_nil]
    | some k =>
      rw [grouped_cons_some ha]
      change [a] :: grouped key [] = [[a]]
      rw [grouped_nil]
  | case2 b l hb ih =>
    have hother : ¬ ((key a).isSome ∧ [b].head?.bind key = key a) := by
      rintro ⟨hsome, heq⟩
      rw [← heq] at hsome
      change (key b).isSome = true at hsome
      rw [hb] at hsome
      exact nomatch hsome
    rw [cons_append, grouped_cons_none hb, grouped_cons_none hb, joinGroup, if_neg hother, ih]
  | case3 b l k hb ih =>
    have hhead : ((b :: ofKey key k l).head?.bind key) = some k := hb
    rw [cons_append, grouped_cons_some hb, grouped_cons_some hb, joinGroup, hhead]
    by_cases ha : key a = some k
    · have hmore : ofKey key k (l ++ [a]) = ofKey key k l ++ [a] := by simp [ofKey, ha]
      have hrest : offKey key k (l ++ [a]) = offKey key k l := by simp [offKey, ha]
      rw [if_pos ⟨by rw [ha]; rfl, ha.symm⟩, hmore, hrest, cons_append]
    · have hmore : ofKey key k (l ++ [a]) = ofKey key k l := by simp [ofKey, ha]
      have hrest : offKey key k (l ++ [a]) = offKey key k l ++ [a] := by simp [offKey, ha]
      rw [if_neg fun h => ha h.2.symm, hmore, hrest, ih]

theorem grouped_perm (l : List α) : (grouped key l).flatten.Perm l := by
  induction l using grouped.induct key with
  | case1 => rw [grouped_nil]; exact List.Perm.refl _
  | case2 a l ha ih =>
    rw [grouped_cons_none ha, flatten_cons]
    exact ih.cons a
  | case3 a l k ha ih =>
    rw [grouped_cons_some ha, flatten_cons, cons_append]
    apply List.Perm.cons a
    exact (ih.append_left _).trans (ofKey_perm k l)

theorem mem_grouped {g : List α} (hg : g ∈ grouped key l) : (∃ a ∈ l, key a = none ∧ g = [a]) ∨
      ∃ a ∈ l, ∃ k, key a = some k ∧ g = ofKey key k l := by
  induction l using grouped.induct key with
  | case1 => rw [grouped_nil] at hg; exact nomatch hg
  | case2 a l ha ih =>
    rw [grouped_cons_none ha] at hg
    rcases mem_cons.1 hg with rfl | hg
    · exact .inl ⟨a, mem_cons_self, ha, rfl⟩
    · rcases ih hg with ⟨b, hb, hkey, rfl⟩ | ⟨b, hb, k, hkey, rfl⟩
      · exact .inl ⟨b, mem_cons_of_mem _ hb, hkey, rfl⟩
      · refine .inr ⟨b, mem_cons_of_mem _ hb, k, hkey, ?_⟩
        rw [ofKey_cons_of_ne]
        rw [ha]
        exact nofun
  | case3 a l k ha ih =>
    rw [grouped_cons_some ha] at hg
    rcases mem_cons.1 hg with rfl | hg
    · refine .inr ⟨a, mem_cons_self, k, ha, ?_⟩
      rw [ofKey_cons_self ha]
    · rcases ih hg with ⟨b, hb, hkey, rfl⟩ | ⟨b, hb, k', hkey, rfl⟩
      · exact .inl ⟨b, mem_cons_of_mem _ (mem_offKey.1 hb).1, hkey, rfl⟩
      · have hne : k' ≠ k := by
          rintro rfl
          exact (mem_offKey.1 hb).2 hkey
        refine .inr ⟨b, mem_cons_of_mem _ (mem_offKey.1 hb).1, k', hkey, ?_⟩
        have hhead : key a ≠ some k' := by
          rw [ha]
          exact fun h => hne (Option.some.inj h).symm
        rw [ofKey_cons_of_ne hhead, ofKey_offKey hne]

theorem Together.split (ha : key a = some k) (h : Together key (a :: l)) :
    l = ofKey key k l ++ offKey key k l := by
  induction l with
  | nil => rfl
  | cons b l ih =>
    by_cases hb : key b = some k
    · have htail : Together key (a :: l) := by
        intro i j m x y z hij hjm hx hy hz
        cases i with
        | zero =>
          obtain rfl : a = x := Option.some.inj hx
          cases j with
          | zero => exact absurd hij (Nat.lt_irrefl 0)
          | succ j =>
            cases m with
            | zero => exact absurd hjm (Nat.not_lt_zero _)
            | succ m =>
              exact h 0 (j + 2) (m + 2) a y z (succ_pos _) (succ_lt_succ hjm) rfl hy
                hz
        | succ i =>
          cases j with
          | zero => exact absurd hij (Nat.not_lt_zero _)
          | succ j =>
            cases m with
            | zero => exact absurd hjm (Nat.not_lt_zero _)
            | succ m =>
              exact h (i + 2) (j + 2) (m + 2) x y z (succ_lt_succ hij)
                (succ_lt_succ hjm) hx hy hz
      rw [ofKey_cons_self hb, offKey_cons_self hb, cons_append, ← ih htail]
    · -- no entry with the key follows
      have hnone : ∀ c ∈ l, key c ≠ some k := by
        intro c hc hck
        obtain ⟨m, hm⟩ := mem_iff_getElem?.1 hc
        apply hb
        rw [← ha]
        apply h 0 1 (m + 2) a b c (succ_pos 0) (by omega) rfl rfl hm
        · rw [ha, hck]
        · rw [ha]
          rfl
      have hall : offKey key k l = l := filter_eq_self.2 fun c hc => decide_eq_true (hnone c hc)
      have hempty : ofKey key k l = [] :=
        filter_eq_nil_iff.2 fun c hc h => hnone c hc (of_decide_eq_true h)
      rw [ofKey_cons_of_ne hb, offKey_cons_of_ne hb, hempty, hall, nil_append]

theorem flatten_grouped_iff (l : List α) : (grouped key l).flatten = l ↔ Together key l := by
  induction l using grouped.induct key with
  | case1 =>
    rw [grouped_nil]
    apply iff_of_true rfl
    intro i j m x y z _ _ hx
    exact nomatch hx
  | case2 a l ha ih =>
    rw [grouped_cons_none ha, flatten_cons, singleton_append, List.cons.injEq,
      and_iff_right rfl, ih]
    constructor
    · exact together_cons_none ha
    · exact Together.tail
  | case3 a l k ha ih =>
    rw [grouped_cons_some ha, flatten_cons, cons_append, List.cons.injEq, and_iff_right rfl]
    constructor
    · intro h
      -- what follows the entries with the key is the list without them
      have hother : ∀ y ∈ (grouped key (offKey key k l)).flatten, key y ≠ some k := by
        intro y hy
        exact (mem_offKey.1 ((grouped_perm _).mem_iff.1 hy)).2
      have hrest : offKey key k l = (grouped key (offKey key k l)).flatten := by
        have hsame : offKey key k (ofKey key k l) = [] := by
          apply filter_eq_nil_iff.2
          intro x hx hne
          exact of_decide_eq_true hne (mem_ofKey.1 hx).2
        have hkept : offKey key k (grouped key (offKey key k l)).flatten =
            (grouped key (offKey key k l)).flatten :=
          filter_eq_self.2 fun y hy => decide_eq_true (hother y hy)
        calc offKey key k l
            = offKey key k (ofKey key k l ++ (grouped key (offKey key k l)).flatten) := by rw [h]
          _ = offKey key k (ofKey key k l) ++
              offKey key k (grouped key (offKey key k l)).flatten := filter_append _ _
          _ = (grouped key (offKey key k l)).flatten := by rw [hsame, hkept, nil_append]
      rw [← h, ← cons_append]
      apply together_append
      · intro x hx
        rcases mem_cons.1 hx with rfl | hx
        · exact ha
        · exact (mem_ofKey.1 hx).2
      · exact hother
      · rw [← hrest]
        exact ih.1 hrest.symm
    · intro h
      have hsplit := h.split ha
      have htail := h.tail
      rw [hsplit] at htail
      rw [ih.2 htail.drop, ← hsplit]

end Grouping

end Ulfm
