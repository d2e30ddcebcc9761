import Ulfm.Datatype.Build
import Ulfm.Foundation.Nesting

/-!
# The nesting of a description

The loops of a description open and close like brackets. `deep` is how many of them
are open at once at most. Every loop, or every contiguous one, says with `items` where
its end is.
-/

namespace Ulfm.Ddt

open List Nesting Entry

section Brackets

/-- A loop opens a bracket, its end closes it. -/
def Entry.move : Entry → ℤ
  | .elem _ => 0
  | .loop _ => 1
  | .endLoop _ => -1

/-- The number of loops that are open at once. -/
def deep (entries : List Entry) : ℤ := height Entry.move entries

/-- The loops with `P` have their end `items` entries further on. -/
def Balanced (P : Loop → Prop) : List Entry → Prop
  | [] => True
  | .elem _ :: rest => Balanced P rest
  | .endLoop _ :: rest => Balanced P rest
  | .loop l :: rest =>
    (P l → l.items ≤ rest.length ∧ level Entry.move (rest.take l.items) = -1) ∧ Balanced P rest

/-- Every bracket that is opened is closed, and where its loop says. -/
structure Bracketed (entries : List Entry) : Prop where
  level : level Entry.move entries = 0
  balanced : Balanced (fun _ => True) entries

variable {P : Loop → Prop} {xs ys : List Entry}

theorem balanced_append (hx : Balanced P xs) (hy : Balanced P ys) : Balanced P (xs ++ ys) := by
  induction xs with
  | nil => exact hy
  | cons x xs ih =>
    cases x with
    | elem e | endLoop e => exact ih hx
    | loop l =>
      refine ⟨fun hl => ?_, ih hx.2⟩
      obtain ⟨hlen, hlevel⟩ := hx.1 hl
      change l.items ≤ (xs ++ ys).length ∧ level move ((xs ++ ys).take l.items) = -1
      rw [length_append, take_append_of_le_length hlen]
      exact ⟨hlen.trans (Nat.le_add_right _ _), hlevel⟩

theorem Balanced.imp {Q : Loop → Prop} (h : Balanced P xs) (hPQ : ∀ l, Q l → P l) :
    Balanced Q xs := by
  induction xs with
  | nil => trivial
  | cons x xs ih =>
    cases x with
    | elem e | endLoop e => exact ih h
    | loop l => exact ⟨fun hl => h.1 (hPQ l hl), ih h.2⟩

theorem Balanced.drop (h : Balanced P xs) (n : ℕ) : Balanced P (xs.drop n) := by
  induction n generalizing xs with
  | zero => exact h
  | succ n ih =>
    cases xs with
    | nil => trivial
    | cons x xs =>
      cases x with
      | elem e | endLoop e => exact ih h
      | loop l => exact ih h.2

theorem deep_append (hx : level Entry.move xs = 0) : deep (xs ++ ys) = max (deep xs) (deep ys) := by
  rw [deep, height_append, hx, zero_add, deep, deep]

theorem Bracketed.append (hx : Bracketed xs) (hy : Bracketed ys) : Bracketed (xs ++ ys) where
  level := by rw [level_append, hx.level, hy.level, add_zero]
  balanced := balanced_append hx.balanced hy.balanced

theorem bracketed_nil : Bracketed [] := ⟨rfl, trivial⟩

theorem bracketed_elem (e : Elem) : Bracketed [.elem e] := ⟨rfl, trivial⟩

theorem Bracketed.loop (h : Bracketed xs) {l : Loop} (e : EndLoop)
    (hitems : l.items = xs.length + 1) :
    Bracketed (.loop l :: (xs ++ [.endLoop e])) where
  level := by
    rw [level_cons, level_append, h.level]
    rfl
  balanced := by
    refine ⟨fun _ => ?_, balanced_append h.balanced trivial⟩
    have hlen : (xs ++ [Entry.endLoop e]).length = l.items := by
      rw [length_append, length_singleton, hitems]
    rw [← hlen, take_length, level_append, h.level]
    exact ⟨Nat.le_refl _, rfl⟩

theorem deep_loop (h : level Entry.move xs = 0) (l : Loop) (e : EndLoop) :
    deep (.loop l :: (xs ++ [.endLoop e])) = deep xs + 1 := by
  have hxs := height_nonneg move xs
  have hend : height move [Entry.endLoop e] = 0 := rfl
  rw [deep, deep, height, height_append, h, hend, move]
  omega

theorem deep_nonneg (xs : List Entry) : 0 ≤ deep xs := height_nonneg move xs

theorem level_behind_loop (h : Balanced P xs) {pos : ℕ} {l : Loop}
    (hget : xs[pos]? = some (.loop l)) (hl : P l) :
    level Entry.move (xs.take (pos + l.items + 1)) = level Entry.move (xs.take pos) := by
  have hdrop : xs.drop pos = .loop l :: xs.drop (pos + 1) := by
    rw [drop_eq_getElem?_toList_append, hget, Option.toList_some, singleton_append]
  have hlevel : level move ((xs.drop (pos + 1)).take l.items) = -1 := by
    have hpos := h.drop pos
    rw [hdrop] at hpos
    exact (hpos.1 hl).2
  rw [Nat.add_assoc, level_take_add, hdrop, take_succ_cons, level_cons, hlevel, move]
  omega

theorem level_next {pos : ℕ} {x : Entry} (hget : xs[pos]? = some x) :
    level Entry.move (xs.take (pos + 1)) = level Entry.move (xs.take pos) + x.move := by
  have hdrop : xs.drop pos = x :: xs.drop (pos + 1) := by
    rw [drop_eq_getElem?_toList_append, hget, Option.toList_some, singleton_append]
  rw [level_take_add, hdrop, take_succ_cons, take_zero, level_cons, level_nil, add_zero]

end Brackets

section Entries

variable {t : Datatype} {count : ℕ} {disp extent : ℤ}

theorem Entry.move_shift (disp : ℤ) (x : Entry) : (x.shift disp).move = x.move := by
  cases x <;> rfl

theorem balanced_shift {P : Loop → Prop} {xs : List Entry} (h : Balanced P xs) (disp : ℤ) :
    Balanced P (xs.map (Entry.shift disp)) := by
  induction xs with
  | nil => trivial
  | cons x xs ih =>
    cases x with
    | elem e | endLoop e => exact ih h
    | loop l =>
      refine ⟨fun hl => ?_, ih h.2⟩
      obtain ⟨hlen, hlevel⟩ := h.1 hl
      have hmoves : ((xs.map (shift disp)).take l.items).map move
          = (xs.take l.items).map move := by
        rw [← map_take, map_map]
        exact map_congr_left fun x _ => x.move_shift disp
      rw [length_map, level_congr move hmoves]
      exact ⟨hlen, hlevel⟩

theorem moves_shift (xs : List Entry) (disp : ℤ) :
    (xs.map (Entry.shift disp)).map Entry.move = xs.map Entry.move := by
  rw [map_map]
  exact map_congr_left fun x _ => x.move_shift disp

theorem Bracketed.shift {xs : List Entry} (h : Bracketed xs) (disp : ℤ) :
    Bracketed (xs.map (Entry.shift disp)) where
  level := by rw [level_congr move (moves_shift xs disp), h.level]
  balanced := balanced_shift h.balanced disp

theorem deep_shift (xs : List Entry) (disp : ℤ) : deep (xs.map (Entry.shift disp)) = deep xs :=
  height_congr move (moves_shift xs disp)

/-- The copies of a predefined type need a loop of their own. -/
def gapped (t : Datatype) (count : ℕ) (extent : ℤ) : Prop :=
  isBasic t = true ∧ extent ≠ t.size ∧ count > 1

instance (t : Datatype) (count : ℕ) (extent : ℤ) : Decidable (gapped t count extent) := by
  unfold gapped
  infer_instance

theorem bracketed_newEntries (h : Bracketed t.desc) :
    Bracketed (newEntries t count disp extent) := by
  rw [newEntries]
  by_cases hbasic : isBasic t = true
  · rw [if_pos hbasic, predefinedEntries]
    by_cases hgap : extent ≠ t.size ∧ count > 1
    · rw [if_pos hgap]
      exact (bracketed_elem _).loop _ rfl
    · rw [if_neg hgap]
      exact bracketed_elem _
  · rw [if_neg hbasic]
    cases mergeable t extent with
    | some e => exact bracketed_elem _
    | none =>
      dsimp only
      rw [copiedEntries]
      by_cases hone : count = 1
      · rw [if_pos hone]
        exact h.shift disp
      · rw [if_neg hone]
        apply (h.shift disp).loop
        rw [length_map]

theorem deep_newEntries (h : Bracketed t.desc) : deep (newEntries t count disp extent) =
      if isBasic t then if extent ≠ t.size ∧ count > 1 then 1 else 0
      else
        match mergeable t extent with
        | some _ => 0
        | none => deep t.desc + if count ≠ 1 then 1 else 0 := by
  rw [newEntries]
  by_cases hbasic : isBasic t = true
  · rw [if_pos hbasic, if_pos hbasic, predefinedEntries]
    by_cases hgap : extent ≠ t.size ∧ count > 1
    · rw [if_pos hgap, if_pos hgap]
      rfl
    · rw [if_neg hgap, if_neg hgap]
      rfl
  · rw [if_neg hbasic, if_neg hbasic]
    cases mergeable t extent with
    | some e => rfl
    | none =>
      dsimp only
      rw [copiedEntries]
      by_cases hone : count = 1
      · rw [if_pos hone, if_neg (not_not_intro hone), add_zero, deep_shift]
      · rw [if_neg hone, if_pos hone]
        exact (deep_loop (h.shift disp).level _ _).trans (by rw [deep_shift])

end Entries

section Counter

variable {base d : Datatype} {m m' : List ℤ} {c : AddCall}

/-- The call neither resets the counter of loops below the depth of the description nor
lets it wrap around. -/
structure KeepsLoops (base : Datatype) (c : AddCall) : Prop where
  reset : ¬c.isMarker → ¬c.isVoid → gapped c.added c.count c.stride → deep base.desc ≤ 1
  counter : ¬c.isMarker → ¬c.isVoid → isBasic c.added = false →
    base.loops + c.added.loops + 4 < 2 ^ 32

/-- The counter of loops covers the depth of the description. -/
structure Covered (d : Datatype) : Prop where
  bracketed : Bracketed d.desc
  deep_le : deep d.desc ≤ d.loops
  spare : deep d.desc ≤ 3 ∨ deep d.desc + 1 ≤ d.loops
  loops_lt : d.loops + 2 < 2 ^ 32

theorem covered_plain (hbracketed : Bracketed d.desc) (hdeep : deep d.desc = 0)
    (hloops : d.loops = 0) : Covered d := by
  refine ⟨hbracketed, ?_, ?_, ?_⟩ <;> omega

theorem covered_basic (p : Platform) (t : TypeId) : Covered (basicDatatype p t) := by
  rcases basicDatatype_cases p t with ⟨unavailable, hempty⟩ | ⟨_, _, _, hblock⟩
  · rw [hempty]
    exact covered_plain bracketed_nil rfl rfl
  · rw [hblock]
    exact covered_plain (bracketed_elem _) rfl rfl

theorem covered_create (expectedSize : ℕ) : Covered (opalDatatypeCreate expectedSize) :=
  covered_plain bracketed_nil rfl rfl

theorem Covered.append (h : Covered base) (hadded : Covered c.added) (hcall : KeepsLoops base c)
    (hid : ¬c.isMarker) (hvoid : ¬c.isVoid)
    (hdesc : d.desc = base.desc ++ newEntries c.added c.count c.disp c.stride)
    (hloops : d.loops = newLoops base c.added c.count c.stride) : Covered d := by
  have hnew : Bracketed (newEntries c.added c.count c.disp c.stride) :=
    bracketed_newEntries hadded.bracketed
  have hdeep : deep d.desc
      = max (deep base.desc) (deep (newEntries c.added c.count c.disp c.stride)) := by
    rw [hdesc, deep_append h.bracketed.level]
  have hentries : deep (newEntries c.added c.count c.disp c.stride) = _ :=
    deep_newEntries hadded.bracketed
  have hbracketed : Bracketed d.desc := by
    rw [hdesc]
    exact h.bracketed.append hnew
  have hbase := deep_nonneg base.desc
  obtain ⟨_, hle, hspare, hlt⟩ := h
  obtain ⟨_, hale, haspare, halt⟩ := hadded
  rw [newLoops] at hloops
  by_cases hbasic : isBasic c.added = true
  · rw [if_pos hbasic] at hloops hentries
    by_cases hgap : c.stride ≠ c.added.size ∧ c.count > 1
    · have hreset := hcall.reset hid hvoid ⟨hbasic, hgap⟩
      rw [if_pos hgap] at hloops hentries
      refine ⟨hbracketed, ?_, ?_, ?_⟩ <;> omega
    · rw [if_neg hgap] at hloops hentries
      refine ⟨hbracketed, ?_, ?_, ?_⟩ <;> omega
  · have hcounter := hcall.counter hid hvoid (Bool.eq_false_iff.mpr hbasic)
    rw [if_neg hbasic] at hloops hentries
    cases hmerge : mergeable c.added c.stride with
    | some e =>
      rw [hmerge] at hloops hentries
      dsimp only at hloops hentries
      rw [Nat.mod_eq_of_lt (by omega)] at hloops
      refine ⟨hbracketed, ?_, ?_, ?_⟩ <;> omega
    | none =>
      rw [hmerge] at hloops hentries
      dsimp only at hloops hentries
      by_cases hone : c.count ≠ 1
      · rw [if_pos hone, Nat.mod_eq_of_lt (by omega)] at hloops
        have hloop : deep (newEntries c.added c.count c.disp c.stride) = deep c.added.desc + 1 := by
          rw [hentries, if_pos hone]
        refine ⟨hbracketed, ?_, ?_, ?_⟩ <;> omega
      · rw [if_neg hone, Nat.mod_eq_of_lt (by omega)] at hloops
        have hcopy : deep (newEntries c.added c.count c.disp c.stride) = deep c.added.desc := by
          rw [hentries, if_neg hone, add_zero]
        refine ⟨hbracketed, ?_, ?_, ?_⟩ <;> omega

theorem Built.covered {p : Platform} (h : Built p KeepsLoops d m) : Covered d := by
  induction h with
  | basic t => exact covered_basic p t
  | create expectedSize => exact covered_create expectedSize
  | add c _ hown _ _ hcall hrun ih ihAdded =>
    cases AddCall.effect hrun with
    | lb hid hd | ub hid hd | void hid hvoid hd =>
      rw [hd]
      exact ⟨ih.bracketed, ih.deep_le, ih.spare, ih.loops_lt⟩
    | data hid hvoid place hbounds hd =>
      apply ih.append ihAdded hcall hid hvoid
      · rw [hd]
        rfl
      · rw [hd]
        rfl
  | resize lb extent _ hrun ih =>
    rw [opalDatatypeResize_eq hrun]
    exact ⟨ih.bracketed, ih.deep_le, ih.spare, ih.loops_lt⟩
  | commit _ hrun ih =>
    rw [opalDatatypeCommit_eq hrun]
    exact ⟨ih.bracketed, ih.deep_le, ih.spare, ih.loops_lt⟩

end Counter

end Ulfm.Ddt
