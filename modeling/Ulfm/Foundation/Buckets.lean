import Ulfm.Foundation.Scan

/-!
# Lists in buckets

A table of buckets is a list of lists. An entry of one bucket stands somewhere in the list of
all entries, and changing the bucket changes that list at the same place.
-/

namespace Ulfm

open List Option

section Buckets

variable {α : Type} {l : List α} {table : List (List α)} {a : α} {i b : ℕ}

theorem exists_split (h : l[i]? = some a) :
    ∃ l₁ l₂, l = l₁ ++ a :: l₂ ∧ l₁.length = i ∧ (∀ f, l.modify i f = l₁ ++ f a :: l₂) ∧
      l.eraseIdx i = l₁ ++ l₂ := by
  obtain ⟨hi, rfl⟩ := List.getElem?_eq_some_iff.1 h
  refine ⟨l.take i, l.drop (i + 1), ?_, ?_, fun f => modify_eq_take_cons_drop hi,
    eraseIdx_eq_take_drop_succ l i⟩
  · rw [getElem_cons_drop, take_append_drop]
  · exact length_take_of_le (Nat.le_of_lt hi)

theorem mem_modify_cases {f : α → α} {b : α} (h : l[i]? = some a) (hb : b ∈ l.modify i f) :
    b ∈ l ∨ b = f a := by
  obtain ⟨l₁, l₂, rfl, -, hmodify, -⟩ := exists_split h
  rw [hmodify, mem_append, mem_cons] at hb
  rw [mem_append, mem_cons]
  tauto

theorem firstEntry_eq (table : List (List α)) (i : ℕ) :
    ((scanFrom (fun list => !list.isEmpty) table i).bind fun j => (table.getD j []).head?) =
      (table.drop i).flatten.head? := by
  cases hscan : scanFrom (fun list => !list.isEmpty) table i with
  | none =>
    have hempty : (table.drop i).flatten = [] := by
      apply flatten_eq_nil_iff.2
      intro list hlist
      obtain ⟨k, hk⟩ := mem_iff_getElem?.1 hlist
      rw [getElem?_drop] at hk
      have hnot := scanFrom_eq_none_iff.1 hscan (i + k) (Nat.le_add_right i k)
      by_contra hne
      exact hnot ⟨list, hk, by simpa using hne⟩
    rw [hempty]
    rfl
  | some j =>
    obtain ⟨hij, ⟨list, hlist, hne⟩, hbefore⟩ := scanFrom_eq_some_iff.1 hscan
    obtain ⟨hj, hget⟩ := List.getElem?_eq_some_iff.1 hlist
    obtain ⟨d, rfl⟩ := Nat.exists_eq_add_of_le hij
    have hskip : ((table.drop i).take d).flatten = [] := by
      apply flatten_eq_nil_iff.2
      intro before hmem
      obtain ⟨k, hk⟩ := mem_iff_getElem?.1 hmem
      have hkd : k < d := by
        have hlt := (List.getElem?_eq_some_iff.1 hk).1
        rw [length_take] at hlt
        omega
      rw [getElem?_take_of_lt hkd, getElem?_drop] at hk
      by_contra hfull
      apply hbefore (i + k) (Nat.le_add_right i k) (Nat.add_lt_add_left hkd i)
      exact ⟨before, hk, by simpa using hfull⟩
    have hrest : (table.drop i).drop d = list :: table.drop (i + d + 1) := by
      rw [drop_drop, drop_eq_getElem_cons hj, hget]
    have hflatten : (table.drop i).flatten = list ++ (table.drop (i + d + 1)).flatten := by
      rw [← take_append_drop d (table.drop i), flatten_append, hskip, hrest]
      rfl
    have hlist' : table.getD (i + d) [] = list := by
      rw [getD_eq_getElem?_getD, hlist]
      rfl
    rw [bind_some, hlist', hflatten]
    cases list with
    | nil => exact nomatch hne
    | cons a list => rfl

end Buckets

end Ulfm
