import Ulfm.Opal.PointerArray

/-!
# Argument vectors

Splitting and joining of strings, and the insertion and deletion of a slice. A vector is the list of
its strings without the `NULL` at the end, a string that of its characters. `none` stands for an
access outside of a vector or a string, and for a sum that is no `int`. Memory is granted.
-/

namespace Ulfm.Argv

open List Option

abbrev Str := List Char

inductive Status
  | success
  | badParam
deriving DecidableEq

section Definitions

/-- `opal_argv_append`. -/
def append (argv : List Str) (arg : Str) : Option (List Str) :=
  if Opal.intMax < argv.length + 2 then none else some (argv ++ [arg])

/-- The strings that the loop of `opal_argv_split_inter` appends. -/
def splitInter (delimiter : Char) (includeEmpty : Bool) : ℕ → Str → List Str
  | 0, _ => []
  | _, [] => []
  | fuel + 1, c :: cs =>
    let arg := (c :: cs).takeWhile (· ≠ delimiter)
    match (c :: cs).dropWhile (· ≠ delimiter) with
    -- tail argument
    | [] => [c :: cs]
    | _ :: rest =>
      -- zero length argument
      if arg = [] then
        (if includeEmpty then [[]] else []) ++ splitInter delimiter includeEmpty fuel rest
      else arg :: splitInter delimiter includeEmpty fuel rest

/-- `opal_argv_split`. -/
def split (src : Str) (delimiter : Char) : Option (List Str) :=
  (splitInter delimiter false src.length src).foldlM append []

/-- `opal_argv_split_with_empty`. -/
def splitWithEmpty (src : Str) (delimiter : Char) : Option (List Str) :=
  (splitInter delimiter true src.length src).foldlM append []

/-- The loop that fills in the string, with `pp` in a string of the vector and `p` behind it. -/
def fillStr (delimiter : Char) : ℕ → Option Str → List Str → Option Str
  | 0, _, _ => some []
  | _ + 1, none, _ => none
  | n + 1, some [], p => (fillStr delimiter n p.head? p.tail).map (delimiter :: ·)
  | n + 1, some (c :: pp), p => (fillStr delimiter n (some pp) p).map (c :: ·)

/-- A string as long as the counted ones, filled in from `argv` on. -/
def joinFrom (delimiter : Char) (argv counted : List Str) : Option Str :=
  let strLen := (counted.map fun str => str.length + 1).sum
  -- `str[--str_len]`
  if strLen = 0 then none else fillStr delimiter (strLen - 1) argv.head? argv.tail

/-- `opal_argv_join`. -/
def join (argv : List Str) (delimiter : Char) : Option Str :=
  if argv = [] then some [] else joinFrom delimiter argv argv

/-- `opal_argv_join_range`. -/
def joinRange (argv : List Str) (start stop : ℕ) (delimiter : Char) : Option Str :=
  if argv = [] ∨ (argv.length : ℤ) < Opal.toInt start then some []
  else if argv.length < start then none
  else joinFrom delimiter (argv.drop start) ((argv.drop start).take (stop - start))

/-- The loop that copies the suffix over the deleted items. -/
def shiftDown (numToDelete : ℕ) : ℕ → ℕ → List Str → List Str
  | 0, _, argv => argv
  | n + 1, i, argv => shiftDown numToDelete n (i + 1) (argv.set i (argv.getD (i + numToDelete) []))

/-- `opal_argv_delete`. -/
def delete (argc : ℤ) (argv : List Str) (start numToDelete : ℤ) : Option (Status × ℤ × List Str) :=
  if numToDelete = 0 then some (.success, argc, argv)
  else if argv.length < start then some (.success, argc, argv)
  else if start < 0 ∨ numToDelete < 0 then some (.badParam, argc, argv)
  -- the sum is no `int`
  else if Opal.intMax < start + numToDelete then none
  else
    let suffixCount := argv.length - (start.toNat + numToDelete.toNat)
    some (.success, argc - numToDelete,
      (shiftDown numToDelete.toNat suffixCount start.toNat argv).take (start.toNat + suffixCount))

/-- The loop that moves the suffix up, from its end on. -/
def shiftUp (count start : ℕ) : ℕ → List (Option Str) → List (Option Str)
  | 0, target => target
  | i + 1, target =>
    shiftUp count start i (target.set (start + count + i) (target.getD (start + i) none))

def copyIn : List Str → ℕ → List (Option Str) → List (Option Str)
  | [], _, target => target
  | str :: source, i, target => copyIn source (i + 1) (target.set i (some str))

/-- `opal_argv_insert`; memory that is new has no string in it. -/
def insert (target : List Str) (start : ℤ) (source : Option (List Str)) :
    Option (Status × List (Option Str)) :=
  if start < 0 then some (.badParam, target.map some)
  else
    match source with
    | none => some (.success, target.map some)
    | some source =>
      if target.length < start then
        (source.foldlM append target).map fun target => (.success, target.map some)
      else if Opal.intMax < target.length + source.length + 1 then none
      else
        some (.success, copyIn source start.toNat
          (shiftUp source.length start.toNat (target.length - start.toNat)
            (target.map some ++ replicate source.length none)))

/-- `opal_argv_insert_element`. -/
def insertElement (target : List Str) (location : ℤ) (source : Option Str) :
    Option (Status × List (Option Str)) :=
  if location < 0 then some (.badParam, target.map some)
  else
    match source with
    | none => some (.success, target.map some)
    | some source =>
      if target.length < location then
        (append target source).map fun target => (.success, target.map some)
      else if Opal.intMax < target.length + 2 then none
      else
        some (.success, (shiftUp 1 location.toNat (target.length - location.toNat)
          (target.map some ++ [none])).set location.toNat (some source))

end Definitions

section Join

variable {d : Char} {strs rest : List Str} {src : Str} {fuel n : ℕ} {empty : Bool}

theorem fillStr_append (s : Str) (p : List Str) :
    fillStr d (s.length + n) (some s) p = (fillStr d n (some []) p).map (s ++ ·) := by
  induction s with
  | nil =>
    rw [length_nil, Nat.zero_add]
    exact (Option.map_id').symm
  | cons c s ih =>
    rw [length_cons, Nat.succ_add, fillStr, ih, Option.map_map]
    rfl

theorem fillStr_spec (h : strs ≠ []) :
    fillStr d ((strs.map fun str => str.length + 1).sum - 1) (strs ++ rest).head?
      (strs ++ rest).tail =
      some ([d].intercalate strs) := by
  induction strs with
  | nil => exact absurd rfl h
  | cons s strs ih =>
    rw [map_cons, sum_cons, cons_append, head?_cons, tail_cons]
    cases strs with
    | nil =>
      have hlen : s.length + 1 + ([].map fun str : Str => str.length + 1).sum - 1 =
          s.length + 0 := rfl
      rw [hlen, fillStr_append, intercalate_singleton, fillStr, map_some, append_nil]
    | cons s' strs =>
      have hlen : s.length + 1 + ((s' :: strs).map fun str => str.length + 1).sum - 1 =
          s.length + (((s' :: strs).map fun str => str.length + 1).sum - 1 + 1) := by
        rw [map_cons, sum_cons]
        omega
      rw [hlen, fillStr_append, fillStr, ih (cons_ne_nil _ _), intercalate_cons_cons]
      simp

theorem joinFrom_eq (h : strs ≠ []) :
    joinFrom d (strs ++ rest) strs = some ([d].intercalate strs) := by
  have hlen : (strs.map fun str => str.length + 1).sum ≠ 0 := by
    cases strs with
    | nil => exact absurd rfl h
    | cons s strs =>
      rw [map_cons, sum_cons]
      omega
  unfold joinFrom
  rw [if_neg hlen, fillStr_spec h]

theorem join_eq (argv : List Str) : join argv d = some ([d].intercalate argv) := by
  unfold join
  split_ifs with h
  · rw [h]
    rfl
  · have hjoin := @joinFrom_eq d argv [] h
    rwa [append_nil] at hjoin

/-- What stands up to the first delimiter, if there is one. -/
theorem split_cases (src : Str) : (d ∉ src ∧ src.dropWhile (· ≠ d) = []) ∨
    ∃ arg rest, src = arg ++ d :: rest ∧ src.takeWhile (· ≠ d) = arg ∧
      src.dropWhile (· ≠ d) = d :: rest := by
  induction src with
  | nil => exact .inl ⟨not_mem_nil, rfl⟩
  | cons c src ih =>
    by_cases hc : c = d
    · refine .inr ⟨[], src, by rw [hc]; rfl, ?_, ?_⟩
      · simp [hc]
      · simp [hc]
    · rcases ih with ⟨hnot, hdrop⟩ | ⟨arg, rest, hsrc, htake, hdrop⟩
      · refine .inl ⟨?_, ?_⟩
        · exact fun hmem => hnot ((mem_cons.1 hmem).resolve_left fun h => hc h.symm)
        · rw [dropWhile_cons, if_pos (decide_eq_true hc), hdrop]
      · refine .inr ⟨c :: arg, rest, by rw [hsrc]; rfl, ?_, ?_⟩
        · rw [takeWhile_cons, if_pos (decide_eq_true hc), htake]
        · rw [dropWhile_cons, if_pos (decide_eq_true hc), hdrop]

/-- A delimiter at the end is lost. -/
theorem intercalate_splitInter (hfuel : src.length ≤ fuel) :
    (splitInter d true fuel src = [] ↔ src = []) ∧
    [d].intercalate (splitInter d true fuel src) =
      if src.getLast? = some d then src.dropLast else src := by
  induction fuel generalizing src with
  | zero =>
    obtain rfl := eq_nil_of_length_eq_zero (Nat.le_zero.1 hfuel)
    exact ⟨iff_of_true rfl rfl, rfl⟩
  | succ fuel ih =>
    cases src with
    | nil => exact ⟨iff_of_true rfl rfl, rfl⟩
    | cons c cs =>
      unfold splitInter
      rcases @split_cases d (c :: cs) with ⟨hnot, hdrop⟩ | ⟨arg, rest, hsrc, htake, hdrop⟩
      · rw [hdrop]
        refine ⟨iff_of_false (cons_ne_nil _ _) (cons_ne_nil _ _), ?_⟩
        rw [if_neg fun h => hnot (mem_of_getLast? h)]
        exact intercalate_singleton
      · have hsplit : (if arg = [] then (if true = true then [[]] else []) ++
            splitInter d true fuel rest else arg :: splitInter d true fuel rest) =
              arg :: splitInter d true fuel rest := by
          by_cases harg : arg = []
          · rw [if_pos harg, harg]
            rfl
          · rw [if_neg harg]
        have hlen : rest.length ≤ fuel := by
          rw [hsrc, length_append, length_cons] at hfuel
          omega
        obtain ⟨hnil, hrest⟩ := ih hlen
        rw [hdrop, htake]
        dsimp only
        rw [hsplit]
        refine ⟨iff_of_false (cons_ne_nil _ _) (cons_ne_nil _ _), ?_⟩
        rw [hsrc]
        cases hmore : splitInter d true fuel rest with
        | nil =>
          obtain rfl := hnil.1 hmore
          simp
        | cons s strs =>
          have hne : rest ≠ [] := fun h => cons_ne_nil s strs (hmore ▸ hnil.2 h)
          rw [hmore] at hrest
          rw [intercalate_cons_cons, hrest, getLast?_append_of_ne_nil _
            (cons_ne_nil _ _), getLast?_cons_of_ne_nil hne]
          split_ifs with hlast
          · rw [dropLast_append_of_ne_nil (cons_ne_nil _ _), dropLast_cons_of_ne_nil hne]
            simp
          · simp

/-- There is a piece for each delimiter, and one behind the last of them. -/
theorem length_splitInter (hfuel : src.length ≤ fuel) : (splitInter d true fuel src).length =
      src.count d + if src = [] ∨ src.getLast? = some d then 0 else 1 := by
  induction fuel generalizing src with
  | zero =>
    obtain rfl := eq_nil_of_length_eq_zero (Nat.le_zero.1 hfuel)
    rfl
  | succ fuel ih =>
    cases src with
    | nil => rfl
    | cons c cs =>
      unfold splitInter
      rcases @split_cases d (c :: cs) with ⟨hnot, hdrop⟩ | ⟨arg, rest, hsrc, htake, hdrop⟩
      · have hend : ¬(c :: cs = [] ∨ (c :: cs).getLast? = some d) :=
          not_or.2 ⟨cons_ne_nil _ _, fun h => hnot (mem_of_getLast? h)⟩
        rw [hdrop, count_eq_zero.2 hnot, if_neg hend]
        rfl
      · have harg : arg.count d = 0 := by
          rw [← htake]
          refine count_eq_zero.2 fun hmem => ?_
          have hall := all_eq_true.1 (all_takeWhile (p := (· ≠ d)) (l := c :: cs)) d hmem
          exact of_decide_eq_true hall rfl
        have hlen : rest.length ≤ fuel := by
          rw [hsrc, length_append, length_cons] at hfuel
          omega
        have hend : (c :: cs = [] ∨ (c :: cs).getLast? = some d) ↔
            rest = [] ∨ rest.getLast? = some d := by
          rw [or_iff_right (cons_ne_nil c cs), hsrc, getLast?_append_of_ne_nil _ (cons_ne_nil _ _)]
          cases rest with
          | nil => exact iff_of_true rfl (.inl rfl)
          | cons x rest =>
            rw [getLast?_cons_of_ne_nil (cons_ne_nil _ _), or_iff_right (cons_ne_nil _ _)]
        have hcount : (c :: cs).count d = rest.count d + 1 := by
          rw [hsrc, count_append, harg, count_cons_self, Nat.zero_add]
        have hpieces : (if arg = [] then (if true = true then [[]] else []) ++
            splitInter d true fuel rest else arg :: splitInter d true fuel rest).length =
            (splitInter d true fuel rest).length + 1 := by
          by_cases hempty : arg = []
          · rw [if_pos hempty]
            rfl
          · rw [if_neg hempty, length_cons]
        rw [hdrop, htake]
        dsimp only
        rw [hpieces, ih hlen, hcount]
        simp only [hend]
        omega

theorem foldlM_append (argv source : List Str) : source.foldlM append argv =
    if source ≠ [] ∧ Opal.intMax < argv.length + source.length + 1 then none
    else some (argv ++ source) := by
  induction source generalizing argv with
  | nil => exact congrArg some (List.append_nil argv).symm
  | cons str source ih =>
    rw [foldlM_cons, append]
    by_cases hint : Opal.intMax < argv.length + 2
    · rw [if_pos hint, if_pos ⟨cons_ne_nil _ _, by rw [length_cons]; omega⟩]
      rfl
    · rw [if_neg hint, bind_eq_bind, bind_some, ih, append_assoc, singleton_append]
      apply if_congr _ rfl rfl
      rw [length_append, length_cons, length_cons, length_nil]
      cases source with
      | nil | cons str' source => simp; omega

theorem join_splitWithEmpty_iff (src : Str) (d : Char) :
    (splitWithEmpty src d).bind (join · d) = some src ↔
      src.getLast? ≠ some d ∧ src.count d + 2 ≤ Opal.intMax := by
  have hlen := @length_splitInter d src src.length (Nat.le_refl _)
  rw [splitWithEmpty, foldlM_append, length_nil, nil_append]
  by_cases hend : src.getLast? = some d
  · refine iff_of_false ?_ fun h => h.1 hend
    split_ifs
    · exact nofun
    · rw [bind_some, join_eq, (intercalate_splitInter (Nat.le_refl _)).2, if_pos hend, some_inj]
      intro heq
      have hlen := congrArg length heq
      have hpos : 0 < src.length := length_pos_of_mem (mem_of_getLast? hend)
      rw [length_dropLast] at hlen
      omega
  · rw [and_iff_right hend]
    by_cases hsrc : src = []
    · subst hsrc
      exact iff_of_true rfl (by rw [count_nil]; decide)
    · rw [if_neg (not_or.2 ⟨hsrc, hend⟩)] at hlen
      have hne : splitInter d true src.length src ≠ [] := by
        intro hnil
        rw [hnil, length_nil] at hlen
        omega
      rw [hlen]
      split_ifs with hint
      · refine iff_of_false nofun ?_
        omega
      · rw [bind_some, join_eq, (intercalate_splitInter (Nat.le_refl _)).2, if_neg hend]
        refine iff_of_true rfl ?_
        have hfits : ¬Opal.intMax < ((0 : ℕ) : ℤ) + ((src.count d + 1 : ℕ) : ℤ) + 1 :=
          fun h => hint ⟨hne, h⟩
        omega

/-- Without the empty pieces the split is that with them, filtered. -/
theorem splitInter_filter : splitInter d false fuel src =
    (splitInter d true fuel src).filter (· ≠ []) := by
  induction fuel generalizing src with
  | zero => rfl
  | succ fuel ih =>
    cases src with
    | nil => rfl
    | cons c cs =>
      unfold splitInter
      cases (c :: cs).dropWhile (· ≠ d) with
      | nil => rfl
      | cons x rest =>
        dsimp only
        by_cases harg : (c :: cs).takeWhile (· ≠ d) = []
        · rw [if_pos harg, if_pos harg, ih]
          rfl
        · rw [if_neg harg, if_neg harg, ih, filter_cons, if_pos (decide_eq_true harg)]

/-- A split without the empty pieces, where there are no more pieces than an `int` counts. -/
theorem split_eq_filter (hint : src.count d + 2 ≤ Opal.intMax) :
    split src d = (splitWithEmpty src d).map (·.filter (· ≠ [])) := by
  have hlen := @length_splitInter d src src.length (Nat.le_refl _)
  have hle : ((splitInter d true src.length src).filter (· ≠ [])).length ≤
      (splitInter d true src.length src).length := length_filter_le _ _
  rw [split, splitWithEmpty, splitInter_filter, foldlM_append, foldlM_append, length_nil,
    nil_append,
    nil_append]
  have hfits : (splitInter d true src.length src).length ≤ src.count d + 1 := by
    split_ifs at hlen <;> omega
  rw [if_neg (by omega), if_neg (by omega)]
  rfl

theorem joinRange_iff (argv : List Str) (start stop : ℕ) (hargv : argv.length ≤ Opal.intMax) :
    joinRange argv start stop d = some ([d].intercalate ((argv.drop start).take (stop - start))) ↔
      argv = [] ∨ (argv.length : ℤ) < Opal.toInt start ∨ (start < stop ∧ start < argv.length) := by
  unfold joinRange
  split_ifs with hbozo hout
  · have hnil : argv.drop start = [] := by
      rcases hbozo with rfl | hlt
      · exact drop_nil
      · apply drop_eq_nil_of_le
        unfold Opal.toInt at hlt
        omega
    rw [hnil, take_nil]
    exact iff_of_true rfl (hbozo.imp_right .inl)
  · refine iff_of_false nofun ?_
    rintro (h | h | h)
    · exact hbozo (.inl h)
    · exact hbozo (.inr h)
    · omega
  · rw [not_or] at hbozo
    rw [or_iff_right hbozo.1, or_iff_right hbozo.2]
    by_cases hslice : start < stop ∧ start < argv.length
    · refine iff_of_true ?_ hslice
      have hne : (argv.drop start).take (stop - start) ≠ [] := by
        apply ne_nil_of_length_pos
        rw [length_take, length_drop]
        omega
      have hjoin := @joinFrom_eq d _ ((argv.drop start).drop (stop - start)) hne
      rwa [take_append_drop] at hjoin
    · have hnil : (argv.drop start).take (stop - start) = [] := by
        apply eq_nil_of_length_eq_zero
        rw [length_take, length_drop]
        omega
      rw [hnil]
      exact iff_of_false nofun hslice

end Join

section Slices

variable {argv source : List Str} {target : List (Option Str)} {num count start i n k : ℕ}

theorem getElem?_shiftDown (h : n = 0 ∨ i + n + num ≤ argv.length) :
    (shiftDown num n i argv)[k]? = if i ≤ k ∧ k < i + n then argv[k + num]? else argv[k]? := by
  induction n generalizing i argv with
  | zero => rw [shiftDown, if_neg (by omega)]
  | succ n ih =>
    have hlen := h.resolve_left (Nat.succ_ne_zero n)
    rw [shiftDown, ih (by rw [length_set]; omega)]
    by_cases hk : k = i
    · rw [if_neg (by omega), if_pos (by omega), hk, getElem?_set_self (by omega),
        getD_eq_getElem?_getD, getElem?_eq_getElem (by omega)]
      rfl
    · by_cases hin : i + 1 ≤ k ∧ k < i + 1 + n
      · rw [if_pos hin, if_pos (by omega), getElem?_set_ne (by omega)]
      · rw [if_neg hin, if_neg (by omega), getElem?_set_ne (by omega)]

theorem shiftDown_eq (hstart : start ≤ argv.length) :
    (shiftDown num (argv.length - (start + num)) start argv).take
        (start + (argv.length - (start + num))) = argv.take start ++ argv.drop (start + num) := by
  apply ext_getElem?
  intro k
  rw [getElem?_take, getElem?_shiftDown (by omega), getElem?_append, length_take,
    Nat.min_eq_left hstart, getElem?_drop, getElem?_take]
  by_cases hk : k < start
  · rw [if_pos (by omega), if_neg (by omega), if_pos hk, if_pos hk]
  · rw [if_neg hk]
    by_cases hin : k < start + (argv.length - (start + num))
    · rw [if_pos hin, if_pos (by omega), show start + num + (k - start) = k + num by omega]
    · rw [if_neg hin, getElem?_eq_none (by omega)]

theorem getElem?_shiftUp (h : start + count + n ≤ target.length) :
    (shiftUp count start n target)[k]? =
      if start + count ≤ k ∧ k < start + count + n then target[k - count]? else target[k]? := by
  induction n generalizing target with
  | zero => rw [shiftUp, if_neg (by omega)]
  | succ n ih =>
    rw [shiftUp, ih (by rw [length_set]; omega)]
    by_cases hk : k = start + count + n
    · rw [if_neg (by omega), if_pos (by omega), hk, getElem?_set_self (by omega),
        getD_eq_getElem?_getD, show start + count + n - count = start + n by omega,
        getElem?_eq_getElem (by omega)]
      rfl
    · by_cases hin : start + count ≤ k ∧ k < start + count + n
      · rw [if_pos hin, if_pos (by omega), getElem?_set_ne (by omega)]
      · rw [if_neg hin, if_neg (by omega), getElem?_set_ne (by omega)]

theorem length_shiftUp : (shiftUp count start n target).length = target.length := by
  induction n generalizing target with
  | zero => rfl
  | succ n ih => rw [shiftUp, ih, length_set]

theorem getElem?_copyIn (h : i + source.length ≤ target.length) : (copyIn source i target)[k]? =
      if i ≤ k ∧ k < i + source.length then source[k - i]?.map some else target[k]? := by
  induction source generalizing i target with
  | nil => rw [copyIn, length_nil, if_neg (by omega)]
  | cons str source ih =>
    rw [length_cons] at h ⊢
    rw [copyIn, ih (by rw [length_set]; omega)]
    by_cases hk : k = i
    · rw [if_neg (by omega), if_pos (by omega), hk, getElem?_set_self (by omega), Nat.sub_self]
      rfl
    · by_cases hin : i + 1 ≤ k ∧ k < i + 1 + source.length
      · rw [if_pos hin, if_pos (by omega), show k - i = k - (i + 1) + 1 by omega,
          getElem?_cons_succ]
      · rw [if_neg hin, if_neg (by omega), getElem?_set_ne (by omega)]

theorem copyIn_shiftUp (hstart : start ≤ argv.length) :
    copyIn source start (shiftUp source.length start (argv.length - start)
      (argv.map some ++ List.replicate source.length none)) =
        (argv.take start ++ source ++ argv.drop start).map some := by
  have hlen : (argv.map some ++ replicate source.length none).length =
      argv.length + source.length := by
    rw [length_append, length_map, length_replicate]
  apply ext_getElem?
  intro k
  have hlists : (argv.take start ++ (source ++ argv.drop start))[k]? =
      if k < start then (if k < start then argv[k]? else none)
      else if k - start < source.length then source[k - start]?
      else argv[start + (k - start - source.length)]? := by
    rw [getElem?_append, length_take, Nat.min_eq_left hstart, getElem?_take,
      getElem?_append, getElem?_drop]
  rw [getElem?_copyIn (by rw [length_shiftUp, hlen]; omega), getElem?_shiftUp (by omega),
    getElem?_map, append_assoc, hlists]
  by_cases hk : k < start
  · rw [if_neg (by omega), if_neg (by omega), if_pos hk, if_pos hk,
      getElem?_append_left (by rw [length_map]; omega), getElem?_map]
  · rw [if_neg hk]
    by_cases hsource : k < start + source.length
    · rw [if_pos (by omega), if_pos (by omega)]
    · rw [if_neg (by omega), if_neg (show ¬ k - start < source.length by omega),
        show start + (k - start - source.length) = k - source.length by omega]
      by_cases hin : k < argv.length + source.length
      · rw [if_pos (by omega), getElem?_append_left (by rw [length_map]; omega), getElem?_map]
      · rw [if_neg (by omega), getElem?_eq_none (by omega), getElem?_eq_none (by omega)]
        rfl

theorem insert_iff (argv source : List Str) (start : ℕ) :
    insert argv start (some source) =
        some (.success, (argv.take start ++ source ++ argv.drop start).map some) ↔
      source = [] ∧ argv.length < start ∨ argv.length + source.length + 1 ≤ Opal.intMax := by
  unfold insert
  rw [if_neg (by omega)]
  dsimp only
  split_ifs with hlt hint
  · rw [take_of_length_le (by omega), drop_eq_nil_of_le (by omega), append_nil, foldlM_append]
    split_ifs with hint
    · exact iff_of_false nofun (by rintro (h | h); exacts [hint.1 h.1, by omega])
    · refine iff_of_true rfl ?_
      by_cases hsource : source = []
      · exact .inl ⟨hsource, by omega⟩
      · exact .inr (not_lt.1 fun h => hint ⟨hsource, h⟩)
  · exact iff_of_false nofun (by omega)
  · rw [Int.toNat_natCast, copyIn_shiftUp (by omega)]
    exact iff_of_true rfl (.inr (by omega))

theorem insertElement_iff (argv : List Str) (str : Str) (start : ℕ) :
    insertElement argv start (some str) =
        some (.success, (argv.take start ++ [str] ++ argv.drop start).map some) ↔
      argv.length + 2 ≤ Opal.intMax := by
  have hone : ((argv.length : ℤ) + ([str].length : ℕ) + 1) = argv.length + 2 := by
    rw [length_singleton]
    omega
  have hsingle := insert_iff argv [str] start
  rw [hone, or_iff_right fun h => cons_ne_nil _ _ h.1] at hsingle
  -- one string is inserted
  have hinsert : insertElement argv start (some str) = insert argv start (some [str]) := by
    unfold insertElement insert
    dsimp only
    rw [hone, foldlM_cons]
    cases append argv str <;> rfl
  rw [hinsert]
  exact hsingle

theorem delete_iff (argv : List Str) (start num : ℕ) (hargv : argv.length ≤ Opal.intMax) :
    delete argv.length argv start num = some (.success,
        ((argv.take start ++ argv.drop (start + num)).length : ℤ),
        argv.take start ++ argv.drop (start + num)) ↔
      num = 0 ∨ argv.length < start ∨ start + num ≤ argv.length := by
  unfold delete
  split_ifs with hnum hlt hneg hmax
  · have hzero : num = 0 := by omega
    rw [hzero, Nat.add_zero, take_append_drop]
    exact iff_of_true rfl (.inl rfl)
  · rw [take_of_length_le (by omega), drop_eq_nil_of_le (by omega), append_nil]
    exact iff_of_true rfl (.inr (.inl (by omega)))
  · omega
  · exact iff_of_false nofun (by omega)
  · dsimp only
    rw [Int.toNat_natCast, Int.toNat_natCast, shiftDown_eq (by omega), some_inj, Prod.mk.injEq,
      Prod.mk.injEq, and_iff_right rfl, and_iff_left rfl, length_append, length_take,
      length_drop]
    omega

end Slices

section Lists

/-- What the functions are called with; a vector has no more strings than `int` counts. -/
structure Call where
  src : Str
  delimiter : Char
  argv : List Str
  count_le : argv.length ≤ Opal.intMax
  first : ℕ
  stop : ℕ
  position : ℕ
  source : List Str
  element : Str
  start : ℕ
  numToDelete : ℕ

/-- The functions do what they are for on lists. -/
structure Call.AreLists (c : Call) : Prop where
  join_split : (splitWithEmpty c.src c.delimiter).bind (join · c.delimiter) = some c.src
  split_eq : split c.src c.delimiter = (splitWithEmpty c.src c.delimiter).map (·.filter (· ≠ []))
  join_range : joinRange c.argv c.first c.stop c.delimiter =
    some ([c.delimiter].intercalate ((c.argv.drop c.first).take (c.stop - c.first)))
  insert_slice : insert c.argv c.position (some c.source) =
    some (.success, (c.argv.take c.position ++ c.source ++ c.argv.drop c.position).map some)
  insert_element : insertElement c.argv c.position (some c.element) =
    some (.success, (c.argv.take c.position ++ [c.element] ++ c.argv.drop c.position).map some)
  delete_slice : delete c.argv.length c.argv c.start c.numToDelete = some (.success,
    ((c.argv.take c.start ++ c.argv.drop (c.start + c.numToDelete)).length : ℤ),
    c.argv.take c.start ++ c.argv.drop (c.start + c.numToDelete))

theorem areLists_iff (c : Call) : c.AreLists ↔
    (c.src.getLast? ≠ some c.delimiter ∧ c.src.count c.delimiter + 2 ≤ Opal.intMax) ∧
    (c.argv = [] ∨ (c.argv.length : ℤ) < Opal.toInt c.first ∨
      (c.first < c.stop ∧ c.first < c.argv.length)) ∧
    (c.argv.length + 2 ≤ Opal.intMax ∧ c.argv.length + c.source.length + 1 ≤ Opal.intMax) ∧
    (c.numToDelete = 0 ∨ c.argv.length < c.start ∨ c.start + c.numToDelete ≤ c.argv.length) := by
  constructor
  · intro h
    have helement := (insertElement_iff _ _ _).1 h.insert_element
    refine ⟨(join_splitWithEmpty_iff _ _).1 h.join_split,
      (joinRange_iff _ _ _ c.count_le).1 h.join_range, ⟨helement, ?_⟩,
      (delete_iff _ _ _ c.count_le).1 h.delete_slice⟩
    obtain ⟨hnil, -⟩ | hslice := (insert_iff _ _ _).1 h.insert_slice
    · rw [hnil, length_nil]
      omega
    · exact hslice
  · rintro ⟨hsplit, hrange, ⟨helement, hslice⟩, hdelete⟩
    exact {
      join_split := (join_splitWithEmpty_iff _ _).2 hsplit
      split_eq := split_eq_filter hsplit.2
      join_range := (joinRange_iff _ _ _ c.count_le).2 hrange
      insert_slice := (insert_iff _ _ _).2 (.inr hslice)
      insert_element := (insertElement_iff _ _ _).2 helement
      delete_slice := (delete_iff _ _ _ c.count_le).2 hdelete }

/-- A string that ends with its delimiter. -/
theorem trailing_not_areLists : ¬ ∀ c : Call, c.AreLists := by
  intro h
  exact absurd (h ⟨['a', ','], ',', [], by decide, 0, 0, 0, [], [], 0, 0⟩).join_split (by decide)

end Lists

end Ulfm.Argv
