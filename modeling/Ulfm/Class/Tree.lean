import Mathlib.Data.Int.Notation
import Mathlib.Data.List.Nodup

/-!
# Search in a tree

`opal_tree_find_with` looks for the next item with a key below an item, among the siblings behind it
and among the siblings behind its ancestors. An item is known by its name, and a position in a tree
is what the pointers of the item lead to.
-/

namespace Ulfm.Tree

open List Option

/-- An item with its first child and its next sibling, or `NULL`. -/
inductive Forest (α : Type)
  | nil
  | cons (item : α) (firstChild nextSibling : Forest α)
deriving DecidableEq

namespace Forest

variable {α : Type}

def items : Forest α → List α
  | nil => []
  | cons item children siblings => item :: (children.items ++ siblings.items)

/-- `opal_tree_add_child` behind the last of the siblings. -/
def append : Forest α → Forest α → Forest α
  | nil, g => g
  | cons item children siblings, g => cons item children (siblings.append g)

/-- `opal_tree_add_child` of an item with what is below it. -/
def addChild [DecidableEq α] (parent : α) (new : Forest α) : Forest α → Forest α
  | nil => nil
  | cons item children siblings =>
      if item = parent then cons item (children.append new) siblings
      else cons item (addChild parent new children) (addChild parent new siblings)

/-- `opal_tree_remove_subtree`. -/
def removeSubtree [DecidableEq α] (old : α) : Forest α → Forest α
  | nil => nil
  | cons item children siblings =>
      if item = old then siblings
      else cons item (removeSubtree old children) (removeSubtree old siblings)

theorem items_append (f g : Forest α) : (f.append g).items = f.items ++ g.items := by
  induction f with
  | nil => rfl
  | cons item children siblings _ ih =>
    rw [append, items, items, ih, cons_append, List.append_assoc]

theorem append_assoc (f g h : Forest α) : (f.append g).append h = f.append (g.append h) := by
  induction f with
  | nil => rfl
  | cons item children siblings _ ih => rw [append, append, append, ih]

end Forest

section Built

variable {α : Type} [DecidableEq α] {t : Forest α}

/-- The trees that are built by adding, also to the sentinel, and removing; what is added is in no
tree. -/
inductive Built : Forest α → Prop
  | empty : Built .nil
  | root (item : α) (t below : Forest α) (ht : Built t) (hnodup : (item :: below.items).Nodup)
      (hnew : ∀ x ∈ item :: below.items, x ∉ t.items) : Built (t.append (.cons item below .nil))
  | add (parent item : α) (t below : Forest α) (ht : Built t) (hnodup : (item :: below.items).Nodup)
      (hnew : ∀ x ∈ item :: below.items, x ∉ t.items) :
      Built (Forest.addChild parent (.cons item below .nil) t)
  | remove (old : α) (t : Forest α) (ht : Built t) : Built (Forest.removeSubtree old t)

theorem addChild_of_notMem {parent : α} {new : Forest α} (h : parent ∉ t.items) :
    Forest.addChild parent new t = t := by
  induction t with
  | nil => rfl
  | cons item children siblings ihc ihs =>
    rw [Forest.items, mem_cons, mem_append, not_or, not_or] at h
    rw [Forest.addChild, if_neg (Ne.symm h.1), ihc h.2.1, ihs h.2.2]

theorem addChild_perm {parent : α} {new : Forest α} (h : t.items.Nodup) (hmem : parent ∈ t.items) :
    (Forest.addChild parent new t).items.Perm (t.items ++ new.items) := by
  induction t with
  | nil => exact nomatch hmem
  | cons x children siblings ihc ihs =>
    rw [Forest.items, nodup_cons, nodup_append] at h
    obtain ⟨-, hc, hs, hdisj⟩ := h
    rw [Forest.addChild]
    split_ifs with hx
    · rw [Forest.items, Forest.items, Forest.items_append, cons_append, append_assoc, append_assoc]
      exact (perm_append_comm.append_left _).cons x
    · rw [Forest.items, Forest.items, cons_append, append_assoc]
      apply List.Perm.cons x
      rw [Forest.items, mem_cons, mem_append, or_iff_right (Ne.symm hx)] at hmem
      rcases hmem with hmem | hmem
      · rw [@addChild_of_notMem _ _ siblings _ _ fun hsib => hdisj parent hmem parent hsib rfl]
        apply ((ihc hc hmem).append_right _).trans
        rw [append_assoc]
        exact perm_append_comm.append_left _
      · rw [@addChild_of_notMem _ _ children _ _ fun hchild => hdisj parent hchild parent hmem rfl]
        exact (ihs hs hmem).append_left _

theorem removeSubtree_sublist (old : α) (t : Forest α) :
    (Forest.removeSubtree old t).items.Sublist t.items := by
  induction t with
  | nil => exact List.Sublist.refl _
  | cons item children siblings ihc ihs =>
    rw [Forest.removeSubtree]
    split_ifs
    · exact (sublist_append_right _ _).cons item
    · exact (ihc.append ihs).cons_cons item

/-- An item stands in a tree once. -/
theorem Built.nodup (h : Built t) : t.items.Nodup := by
  induction h with
  | empty => exact nodup_nil
  | root item t below _ hnodup hnew ih =>
    rw [Forest.items_append, nodup_append]
    refine ⟨ih, by simpa [Forest.items] using hnodup, fun x hx y hy hxy => ?_⟩
    rw [Forest.items, Forest.items, List.append_nil] at hy
    exact hnew y hy (hxy ▸ hx)
  | add parent item t below _ hnodup hnew ih =>
    by_cases hparent : parent ∈ t.items
    · rw [(addChild_perm ih hparent).nodup_iff, nodup_append]
      refine ⟨ih, by simpa [Forest.items] using hnodup, fun x hx y hy hxy => ?_⟩
      rw [Forest.items, Forest.items, List.append_nil] at hy
      exact hnew y hy (hxy ▸ hx)
    · rw [addChild_of_notMem hparent]
      exact ih
  | remove old t _ ih => exact ih.sublist (removeSubtree_sublist old t)

end Built

section Search

variable {α : Type}

/-- A position: what is reached through the pointers of the item, and the siblings behind its
parent, its grandparent and so on up to the first level. -/
structure Position (α : Type) where
  item : α
  children : Forest α
  siblings : Forest α
  uncles : List (Forest α)

/-- The items that come after the position. -/
def Position.after (p : Position α) : List α :=
  p.children.items ++ p.siblings.items ++ p.uncles.flatMap Forest.items

inductive Located : Forest α → Position α → Prop
  | first (x : α) (c s : Forest α) : Located (.cons x c s) ⟨x, c, s, []⟩
  | sibling (t : Forest α) (x y : α) (c d s : Forest α) (us : List (Forest α))
      (h : Located t ⟨x, c, .cons y d s, us⟩) : Located t ⟨y, d, s, us⟩
  | child (t : Forest α) (x y : α) (c d s : Forest α) (us : List (Forest α))
      (h : Located t ⟨x, .cons y c d, s, us⟩) : Located t ⟨y, c, d, s :: us⟩

/-- The positions of a forest whose items have these siblings behind their ancestors. -/
def positions : List (Forest α) → Forest α → List (Position α)
  | _, .nil => []
  | us, .cons x c s => ⟨x, c, s, us⟩ :: (positions (s :: us) c ++ positions us s)

theorem map_positions (us : List (Forest α)) (f : Forest α) :
    (positions us f).map (·.item) = f.items := by
  induction f generalizing us with
  | nil => rfl
  | cons x c s ihc ihs => rw [positions, map_cons, map_append, ihc, ihs, Forest.items]

theorem sibling_mem_positions {us vs : List (Forest α)} {f c d s : Forest α} {x y : α}
    (h : ⟨x, c, .cons y d s, us⟩ ∈ positions vs f) : ⟨y, d, s, us⟩ ∈ positions vs f := by
  induction f generalizing vs with
  | nil => exact nomatch h
  | cons z e r ihc ihs =>
    rw [positions, mem_cons, mem_append] at h ⊢
    obtain heq | h | h := h
    · cases heq
      exact .inr (.inr mem_cons_self)
    · exact .inr (.inl (ihc h))
    · exact .inr (.inr (ihs h))

theorem child_mem_positions {us vs : List (Forest α)} {f c d s : Forest α} {x y : α}
    (h : ⟨x, .cons y c d, s, us⟩ ∈ positions vs f) : ⟨y, c, d, s :: us⟩ ∈ positions vs f := by
  induction f generalizing vs with
  | nil => exact nomatch h
  | cons z e r ihc ihs =>
    rw [positions, mem_cons, mem_append] at h ⊢
    obtain heq | h | h := h
    · cases heq
      exact .inr (.inl mem_cons_self)
    · exact .inr (.inl (ihc h))
    · exact .inr (.inr (ihs h))

theorem Located.mem_positions {t : Forest α} {p : Position α} (h : Located t p) :
    p ∈ positions [] t := by
  induction h with
  | first x c s => exact mem_cons_self
  | sibling t x y c d s us _ ih => exact sibling_mem_positions ih
  | child t x y c d s us _ ih => exact child_mem_positions ih

theorem located_of_mem_positions {t f : Forest α} {us : List (Forest α)} {q : Position α}
    (hf : ∀ x c s, f = .cons x c s → Located t ⟨x, c, s, us⟩) (hq : q ∈ positions us f) :
    Located t q := by
  induction f generalizing us with
  | nil => exact nomatch hq
  | cons x c s ihc ihs =>
    have hhead := hf x c s rfl
    rw [positions, mem_cons, mem_append] at hq
    obtain rfl | hq | hq := hq
    · exact hhead
    · apply ihc _ hq
      rintro y c' d rfl
      exact .child t x y c' d s us hhead
    · apply ihs _ hq
      rintro y d s' rfl
      exact .sibling t x y c d s' us hhead

/-- Every item of a tree has a position. -/
theorem exists_located {t : Forest α} {x : α} (hx : x ∈ t.items) :
    ∃ q, Located t q ∧ q.item = x := by
  rw [← map_positions []] at hx
  obtain ⟨q, hq, hitem⟩ := mem_map.1 hx
  refine ⟨q, located_of_mem_positions ?_ hq, hitem⟩
  rintro x c s rfl
  exact .first x c s

theorem Located.unique {t : Forest α} {p q : Position α} (hp : Located t p) (hq : Located t q)
    (hnodup : t.items.Nodup) (hitem : p.item = q.item) : p = q := by
  rw [← map_positions []] at hnodup
  exact inj_on_of_nodup_map hnodup hp.mem_positions hq.mem_positions hitem

/-- `find_in_descendants`. -/
def findInDescendants (comp : α → Bool) : Forest α → Option α
  | .nil => none
  | .cons item children siblings =>
      if comp item then some item
      else (findInDescendants comp children).or (findInDescendants comp siblings)

/-- The inner loop: up to an ancestor with a sibling, or to the first level. -/
def climb : List (Forest α) → List (Forest α)
  | .nil :: u :: us => climb (u :: us)
  | us => us

/-- The loop through the ancestors, with the number of the ancestors of `curr_item`. -/
def findInUncles (comp : α → Bool) : ℕ → List (Forest α) → ℕ → Option (Option α)
  | 0, _, _ => none
  | fuel + 1, us, numAncestors =>
      if numAncestors = 0 then some none
      else
        match climb us with
        | [] => some none
        | .nil :: _ => some none
        | .cons x c s :: us =>
            match findInDescendants comp (.cons x c s) with
            | some item => some (some item)
            | none => findInUncles comp fuel (.cons x c s :: us) us.length

/-- `opal_tree_find_with`; `none` is a search that has not ended. -/
def findWith (comp : α → Bool) (fuel : ℕ) (p : Position α) : Option (Option α) :=
  match (findInDescendants comp p.children).or (findInDescendants comp p.siblings) with
  | some item => some (some item)
  | none => findInUncles comp fuel p.uncles p.uncles.length

variable {key : α → Bool} {t f : Forest α} {p : Position α} {us : List (Forest α)}

theorem findInDescendants_eq : findInDescendants key f = f.items.find? key := by
  induction f with
  | nil => rfl
  | cons item children siblings ihc ihs =>
    rw [findInDescendants, Forest.items, find?_cons, find?_append, ihc, ihs]
    cases key item with
    | false => rfl
    | true => rfl

/-- What comes after a position is what follows its item in depth-first order. -/
theorem Located.items_eq (h : Located t p) : ∃ before, t.items = before ++ p.item :: p.after := by
  induction h with
  | first x c s => exact ⟨[], by simp [Position.after, Forest.items]⟩
  | sibling t x y c d s us _ ih =>
    obtain ⟨before, ih⟩ := ih
    exact ⟨before ++ x :: c.items, by rw [ih]; simp [Position.after, Forest.items]⟩
  | child t x y c d s us _ ih =>
    obtain ⟨before, ih⟩ := ih
    exact ⟨before ++ [x], by rw [ih]; simp [Position.after, Forest.items]⟩

theorem climb_spec (us : List (Forest α)) :
    (climb us).flatMap Forest.items = us.flatMap Forest.items ∧
      ∀ u us', climb us = .nil :: u :: us' → False := by
  induction us with
  | nil => exact ⟨rfl, nofun⟩
  | cons u us ih =>
    match u, us with
    | .cons x c s, us => exact ⟨rfl, nofun⟩
    | .nil, [] => exact ⟨rfl, nofun⟩
    | .nil, u :: us => exact ih

/-- The nearest ancestor with siblings behind it is not on the first level, and neither the search
below and behind the item nor that among these siblings finds the key. -/
def Stuck (key : α → Bool) (p : Position α) : Prop :=
  (p.children.items ++ p.siblings.items).find? key = none ∧
    ∃ f us, climb p.uncles = f :: us ∧ f ≠ .nil ∧ us ≠ [] ∧ f.items.find? key = none

/-- The search among the uncles goes round without an end. -/
theorem findInUncles_stuck {f : Forest α} {rest : List (Forest α)} (hf : f ≠ .nil)
    (hnone : f.items.find? key = none) (hrest : rest ≠ []) (fuel n : ℕ) (hn : n ≠ 0)
    (hclimb : climb us = f :: rest) : findInUncles key fuel us n = none := by
  induction fuel generalizing us n with
  | zero => rfl
  | succ fuel ih =>
    cases f with
    | nil => exact absurd rfl hf
    | cons x c s =>
      rw [findInUncles, if_neg hn, hclimb]
      dsimp only
      rw [findInDescendants_eq, hnone]
      exact ih _ (fun h => hrest (eq_nil_of_length_eq_zero h)) rfl

theorem findWith_stuck (h : Stuck key p) (fuel : ℕ) : findWith key fuel p = none := by
  obtain ⟨hbelow, f, us, hclimb, hf, hus, hnone⟩ := h
  have hlen : p.uncles.length ≠ 0 := by
    intro hzero
    rw [eq_nil_of_length_eq_zero hzero] at hclimb
    exact nomatch hclimb
  unfold findWith
  rw [findInDescendants_eq, findInDescendants_eq, ← find?_append, hbelow]
  exact findInUncles_stuck hf hnone hus _ _ hlen hclimb

/-- The search ends with the first match that comes after the item, exactly if it is not stuck. -/
theorem findWith_iff (key : α → Bool) (p : Position α) :
    (∃ fuel, findWith key fuel p = some (p.after.find? key)) ↔ ¬ Stuck key p := by
  constructor
  · rintro ⟨fuel, h⟩ hstuck
    rw [findWith_stuck hstuck] at h
    exact nomatch h
  · intro h
    refine ⟨2, ?_⟩
    have hfind : (findInDescendants key p.children).or (findInDescendants key p.siblings) =
        (p.children.items ++ p.siblings.items).find? key := by
      rw [findInDescendants_eq, findInDescendants_eq, find?_append]
    have hafter : p.after.find? key = ((p.children.items ++ p.siblings.items).find? key).or
        ((p.uncles.flatMap Forest.items).find? key) := find?_append
    rw [findWith, hfind, hafter]
    cases hbelow : (p.children.items ++ p.siblings.items).find? key with
    | some item => rfl
    | none =>
      obtain ⟨hitems, hnil⟩ := climb_spec p.uncles
      rw [← hitems, none_or]
      dsimp only
      by_cases hlen : p.uncles.length = 0
      · rw [findInUncles, if_pos hlen, eq_nil_of_length_eq_zero hlen]
        rfl
      · rw [findInUncles, if_neg hlen]
        match hclimb : climb p.uncles with
        | [] => rfl
        | [.nil] => rfl
        | .nil :: u :: us => exact (hnil u us hclimb).elim
        | .cons x c s :: us =>
          dsimp only
          rw [findInDescendants_eq, flatMap_cons, find?_append]
          cases hnone : (Forest.cons x c s).items.find? key with
          | some item => rfl
          | none =>
            -- the ancestor is on the first level
            have hus : us = [] := by
              by_contra hus
              exact h ⟨hbelow, _, us, hclimb, nofun, hus, hnone⟩
            rw [hus]
            rfl

inductive Visits (t : Forest α) (key : α → Bool) : Position α → List α → Prop
  | last (p : Position α) (fuel : ℕ) (h : findWith key fuel p = some none) : Visits t key p []
  | next (p q : Position α) (fuel : ℕ) (rest : List α) (hq : Located t q)
      (h : findWith key fuel p = some (some q.item)) (hrest : Visits t key q rest) :
      Visits t key p (q.item :: rest)

/-- What comes after an item that comes after another one. -/
theorem Located.after_eq {u v : List α} {q : Position α} (hp : Located t p) (hq : Located t q)
    (hnodup : t.items.Nodup) (hafter : p.after = u ++ q.item :: v) : v = q.after := by
  obtain ⟨before, hbefore⟩ := hp.items_eq
  obtain ⟨before', hbefore'⟩ := hq.items_eq
  have hsplit : (before ++ p.item :: u) ++ q.item :: v = before' ++ q.item :: q.after := by
    rw [← hbefore', hbefore, hafter, append_assoc, cons_append]
  -- the item stands in the tree once
  rw [hbefore', ← hsplit] at hnodup
  obtain ⟨-, hv, hnot⟩ := nodup_append.1 hnodup
  exact ((append_cons_inj_of_notMem
    (fun hx => hnot _ hx _ mem_cons_self rfl) (nodup_cons.1 hv).1).1 hsplit).2.2

theorem filter_after {q : Position α} (hp : Located t p) (hq : Located t q)
    (hnodup : t.items.Nodup) (h : p.after.find? key = some q.item) :
    p.after.filter key = q.item :: q.after.filter key := by
  obtain ⟨hkey, u, v, hafter, hu⟩ := find?_eq_some_iff_append.1 h
  have hnone : u.filter key = [] := filter_eq_nil_iff.2 fun x hx => by simpa using hu x hx
  rw [← hp.after_eq hq hnodup hafter, hafter, filter_append, hnone, nil_append, filter_cons,
    if_pos hkey]

/-- No search of the repeated calls goes round without an end. -/
def NeverStuck (t : Forest α) (key : α → Bool) (p : Position α) : Prop :=
  ∀ q, Located t q → q = p ∨ q.item ∈ p.after ∧ key q.item = true → ¬Stuck key q

theorem NeverStuck.visits (hnodup : t.items.Nodup) (hp : Located t p)
    (h : NeverStuck t key p) : Visits t key p (p.after.filter key) := by
  -- fewer items come after each match
  induction hn : p.after.length using Nat.strongRecOn generalizing p with
  | ind n ih =>
    obtain ⟨fuel, hfind⟩ := (findWith_iff key p).2 (h p hp (.inl rfl))
    cases hnext : p.after.find? key with
    | none =>
      rw [filter_eq_nil_iff.2 (find?_eq_none.1 hnext)]
      exact .last p fuel (hfind.trans (congrArg some hnext))
    | some x =>
      obtain ⟨before, hitems⟩ := hp.items_eq
      have hx : x ∈ t.items := by
        rw [hitems]
        exact mem_append_right _ (mem_cons_of_mem _ (mem_of_find?_eq_some hnext))
      obtain ⟨q, hq, rfl⟩ := exists_located hx
      obtain ⟨hkey, u, v, hafter, -⟩ := find?_eq_some_iff_append.1 hnext
      obtain rfl := hp.after_eq hq hnodup hafter
      rw [filter_after hp hq hnodup hnext]
      refine .next p q fuel _ hq (hfind.trans (congrArg some hnext))
        (ih q.after.length ?_ hq ?_ rfl)
      · rw [← hn, hafter, length_append, length_cons]
        omega
      · rintro q' hq' (rfl | ⟨hmem, hkey'⟩)
        · exact h q' hq' (.inr ⟨mem_of_find?_eq_some hnext, hkey⟩)
        · refine h q' hq' (.inr ⟨?_, hkey'⟩)
          rw [hafter]
          exact mem_append_right _ (mem_cons_of_mem _ hmem)

end Search

section Serialise

/-- What stands in a buffer: the delimiters and what the functions of the items pack. -/
inductive Token (γ : Type)
  | startLvl
  | endLvl
  | endStream
  | data (x : γ)
deriving DecidableEq

/-- Functions for the data of an item that are inverse to each other. -/
structure Codec (β γ : Type) where
  serialize : β → List (Token γ)
  deserialize : List (Token γ) → Option (β × List (Token γ))
  inverse : ∀ x rest, deserialize (serialize x ++ rest) = some (x, rest)

variable {β γ : Type} [DecidableEq γ]

/-- `add_tree_item2buf`. -/
def addTreeItem2buf (fn : β → List (Token γ)) : ℕ → Forest β → List (Token γ)
  | _, .nil => []
  | depth, .cons item children siblings =>
      .startLvl :: (fn item ++ (addTreeItem2buf fn (depth + 1) children ++ .endLvl ::
        (if 1 < depth then addTreeItem2buf fn depth siblings else [])))

/-- `opal_tree_serialize`. -/
def serialize (fn : β → List (Token γ)) (startItem : Forest β) : List (Token γ) :=
  addTreeItem2buf fn 1 startItem ++ [.endStream]

/-- The children of the parent with the last one, `new_item`. -/
def withLast (kids : Forest β) : Option (β × Forest β) → Forest β
  | none => kids
  | some (item, below) => kids.append (.cons item below .nil)

/-- `deserialize_add_tree_item` with a delimiter; `none` is an error. -/
def deserializeAddTreeItem (fn : List (Token γ) → Option (β × List (Token γ))) :
    ℕ → ℕ → ℤ → Token γ → List (Token γ) → Forest β → Option (β × Forest β) →
      Option (Forest β × List (Token γ))
  | 0, _, _, _, _, _, _ => none
  | fuel + 1, depth, level, delim, data, kids, newItem =>
      let more (level : ℤ) (data : List (Token γ)) (kids : Forest β)
          (newItem : Option (β × Forest β)) :=
        match data with
        | [] => none
        | delim :: data => deserializeAddTreeItem fn fuel depth level delim data kids newItem
      if delim = .endStream then some (withLast kids newItem, data)
      else
        let level := if delim = .startLvl then level + 1 else level - 1
        if level = 0 ∧ 1 < depth then some (withLast kids newItem, data)
        else if level = 1 then
          match fn data with
          | none => none
          | some (item, data) => more level data (withLast kids newItem) (some (item, .nil))
        else if level = 2 then
          match newItem with
          | none => none
          | some (item, below) =>
              match deserializeAddTreeItem fn fuel (depth + 1) 0 delim data below none with
              | none => none
              | some (below, data) => more (level - 1) data kids (some (item, below))
        else more level data kids newItem

def resume (fn : List (Token γ) → Option (β × List (Token γ))) (fuel depth : ℕ) (level : ℤ)
    (data : List (Token γ)) (kids : Forest β) (newItem : Option (β × Forest β)) :
    Option (Forest β × List (Token γ)) :=
  match data with
  | [] => none
  | delim :: data => deserializeAddTreeItem fn fuel depth level delim data kids newItem

/-- `opal_tree_deserialize`; for every delimiter there are at most two cycles. -/
def deserialize (fn : List (Token γ) → Option (β × List (Token γ))) (data : List (Token γ))
    (kids : Forest β) : Option (Forest β) :=
  (resume fn (2 * data.length) 1 0 data kids none).map Prod.fst

variable {c : Codec β γ} {f kids k below : Forest β} {x y : β} {fuel depth : ℕ}
  {rest data : List (Token γ)} {t : Token γ}

theorem append_nil (f : Forest β) : f.append .nil = f := by
  induction f with
  | nil => rfl
  | cons item children siblings _ ih => rw [Forest.append, ih]

end Serialise

section Calls

variable {α β γ : Type} [DecidableEq α] [DecidableEq γ]

/-- A call of `opal_tree_find_with` in a tree that was built, and one of `opal_tree_serialize` and
`opal_tree_deserialize` for an item with its data. -/
structure Call (α β γ : Type) [DecidableEq α] where
  tree : Forest α
  built : Built tree
  start : Position α
  located : Located tree start
  key : α → Bool
  codec : Codec β γ
  data : β
  children : Forest β
  siblings : Forest β
  kids : Forest β

/-- The search finds the next match, repeated calls from the item on end and find every match after
it once, and what was written is read back. -/
structure Call.Serves (c : Call α β γ) : Prop where
  finds : ∃ fuel, findWith c.key fuel c.start = some (c.start.after.find? c.key)
  visits : ∀ found, Visits c.tree c.key c.start found ↔ found = c.start.after.filter c.key
  reads : deserialize c.codec.deserialize
    (serialize c.codec.serialize (.cons c.data c.children c.siblings)) c.kids =
      some (c.kids.append (.cons c.data c.children .nil))

end Calls

end Ulfm.Tree
