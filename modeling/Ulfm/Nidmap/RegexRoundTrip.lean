import Mathlib.Algebra.Order.BigOperators.Group.List
import Ulfm.Foundation.Outcome
import Ulfm.Nidmap.RegexCreate

/-!
# What comes back of a list of names

The names come back if no leading zero is lost, no digit stands behind a letter that follows a
number, and the names that are put together stand together. The numbers of a name are padded to all
its digits, also those in the suffix.
-/

namespace Ulfm.Nidmap

open List Option Nat Char

section Extract

variable {t p s : List Char} {nd n : ℕ} {out : Option (List Name)} {r : Range} {rs : List Range}

/-- The first item of a text gives the names, and the loop goes on behind it. -/
def Expands (t : List Char) (out : Option (List Name)) : Prop :=
  ∀ fuel, extractFrom (fuel + 1) t = out ∧ ∀ more, extractFrom (fuel + 1) (t ++ ',' :: more) =
    out.bind fun names => (extractFrom fuel more).map (names ++ ·)

theorem takeWhile_stop {q : Char → Bool} {c : Char} (h : ∀ x ∈ t, q x = true) (hc : q c = false) :
    (t ++ c :: s).takeWhile q = t ∧ (t ++ c :: s).dropWhile q = c :: s := by
  rw [takeWhile_append_of_pos h, dropWhile_append_of_pos h, takeWhile_cons, dropWhile_cons, hc]
  exact ⟨append_nil t, rfl⟩

theorem takeWhile_all {q : Char → Bool} (h : ∀ x ∈ t, q x = true) :
    t.takeWhile q = t ∧ t.dropWhile q = [] :=
  ⟨takeWhile_eq_self_iff.2 h, dropWhile_eq_nil_iff.2 h⟩

theorem expands_plain (hne : t ≠ []) (ht : ∀ c ∈ t, c ≠ '[' ∧ c ≠ ',') : Expands t (some [t]) := by
  intro fuel
  have hplain : ∀ c ∈ t, decide (c ≠ '[' ∧ c ≠ ',') = true := fun c hc => decide_eq_true (ht c hc)
  constructor
  · rw [extractFrom, (takeWhile_all hplain).1, (takeWhile_all hplain).2]
    exact if_neg hne
  · intro more
    have hstop := @takeWhile_stop t more _ ',' hplain (by decide)
    rw [extractFrom, hstop.1, hstop.2]
    exact if_neg hne

/-- The names with those of what is left of a text behind its first item. -/
def extractMore (fuel : ℕ) (rest : List Char) (names : List Name) : Option (List Name) :=
  match rest.dropWhile (· ≠ ',') with
  | [] => some names
  | _ :: more => (extractFrom fuel more).map (names ++ ·)

theorem expands_ranges {text : List Char} (hp : ∀ c ∈ p, c ≠ '[' ∧ c ≠ ',') (hs : ∀ c ∈ s, c ≠ ',')
    (htext : ∀ c ∈ text, c ≠ ']') :
    Expands (p ++ '[' :: (Nat.toDigits 10 n ++ ':' :: (text ++ ']' :: s)))
      (regexParseNodeRanges p text n (optPrefix s)) := by
  intro fuel
  have hdigits : ∀ c ∈ toDigits 10 n, decide (c ≠ ':') = true := by
    intro c hc
    apply decide_eq_true
    rintro rfl
    exact absurd (isDigit_toDigits hc) (by decide)
  have hstep : ∀ rest, (rest = s ∨ ∃ more, rest = s ++ ',' :: more) →
      extractFrom (fuel + 1) (p ++ '[' :: (toDigits 10 n ++ ':' :: (text ++ ']' :: rest))) =
        (regexParseNodeRanges p text n (optPrefix s)).bind (extractMore fuel rest) := by
    intro rest hrest
    have hbase := @takeWhile_stop p (toDigits 10 n ++ ':' :: (text ++ ']' :: rest))
      (fun c => c ≠ '[' ∧ c ≠ ',') '[' (fun c hc => decide_eq_true (hp c hc)) (by decide)
    have hcolon := @takeWhile_stop (toDigits 10 n) (text ++ ']' :: rest) (fun c => c ≠ ':') ':'
      hdigits (by decide)
    have hend := @takeWhile_stop text rest (fun c => c ≠ ']') ']'
      (fun c hc => decide_eq_true (htext c hc)) (by decide)
    have hsuffix : rest.takeWhile (fun c => decide (c ≠ ',')) = s := by
      have hplain : ∀ c ∈ s, decide (c ≠ ',') = true := fun c hc => decide_eq_true (hs c hc)
      rcases hrest with rfl | ⟨more, rfl⟩
      · exact (takeWhile_all hplain).1
      · exact (takeWhile_stop hplain (by decide)).1
    rw [extractFrom, hbase.1, hbase.2]
    dsimp only
    rw [if_neg (by decide), hcolon.1, hcolon.2]
    dsimp only
    rw [hend.1, hend.2, (takeWhile_all fun c hc => isDigit_toDigits hc).1, numeral_toDigits]
    dsimp only
    subst hsuffix
    rfl
  constructor
  · have hend : extractMore fuel s = some := by
      funext names
      rw [extractMore, (takeWhile_all fun c hc => decide_eq_true (hs c hc)).2]
    rw [hstep s (.inl rfl), hend]
    exact bind_fun_some _
  · intro more
    have hmore := hstep (s ++ ',' :: more) (.inr ⟨more, rfl⟩)
    have hstop : extractMore fuel (s ++ ',' :: more) =
        fun names => (extractFrom fuel more).map (names ++ ·) := by
      funext names
      rw [extractMore, (takeWhile_stop (fun c hc => decide_eq_true (hs c hc)) (by decide)).2]
    rw [hstop] at hmore
    rw [← hmore]
    simp only [append_assoc, cons_append]

theorem extractFrom_intercalate {α : Type} {text : α → List Char} {names : α → Option (List Name)}
    (xs : List α) (hne : xs ≠ []) (h : ∀ x ∈ xs, Expands (text x) (names x)) (fuel : ℕ)
    (hfuel : ([','].intercalate (xs.map text)).length < fuel) :
    extractFrom fuel ([','].intercalate (xs.map text)) = (xs.mapM names).map flatten := by
  induction xs generalizing fuel with
  | nil => exact absurd rfl hne
  | cons x xs ih =>
    obtain ⟨fuel, rfl⟩ := exists_eq_succ_of_ne_zero (Nat.ne_zero_of_lt hfuel)
    have hx := h x mem_cons_self fuel
    cases xs with
    | nil =>
      rw [map_singleton, intercalate_singleton, hx.1]
      cases hnames : names x with
      | none | some ns => simp [hnames]
    | cons y xs =>
      have hitem : [','].intercalate ((x :: y :: xs).map text) =
          text x ++ ',' :: [','].intercalate ((y :: xs).map text) := by
        rw [map_cons, map_cons, intercalate_cons_cons]
        simp
      rw [hitem, length_append, length_cons] at hfuel
      have hmore := ih (cons_ne_nil _ _) (fun z hz => h z (mem_cons_of_mem _ hz)) fuel
        (by omega)
      rw [hitem, hx.2, hmore]
      generalize y :: xs = ys
      rw [mapM_cons]
      cases names x with
      | none => rfl
      | some ns =>
        cases ys.mapM names with
        | none => rfl
        | some nss => rfl

end Extract

section ParseRange

variable {base : List Char} {nd : ℕ} {sfx : Option Name} {r : Range} {rs : List Range}

theorem intText_parts (x : ℤ) : ∃ sign : List Char, (∀ c ∈ sign, c = '-') ∧
    intText x = sign ++ Nat.toDigits 10 x.natAbs := by
  unfold intText
  split_ifs
  · exact ⟨['-'], fun c hc => mem_singleton.1 hc, rfl⟩
  · refine ⟨[], ?_, rfl⟩
    exact fun c hc => nomatch hc

theorem dropWhile_intText (x : ℤ) (rest : List Char) :
    (intText x ++ rest).dropWhile (fun c => !c.isDigit) = Nat.toDigits 10 x.natAbs ++ rest := by
  obtain ⟨sign, hsign, htext⟩ := intText_parts x
  rw [htext, append_assoc, dropWhile_append_of_pos]
  · cases hdigits : toDigits 10 x.natAbs with
    | nil => exact absurd hdigits toDigits_ne_nil
    | cons c cs =>
      have hc : c.isDigit = true := isDigit_toDigits (hdigits ▸ mem_cons_self)
      rw [cons_append, dropWhile_cons, hc]
      rfl
  · intro c hc
    rw [hsign c hc]
    rfl

theorem regexParseNodeRange_text : regexParseNodeRange base nd sfx r.text =
    if Opal.intMax < r.start.natAbs then none
    else (range' r.start.natAbs
      (min (r.start + r.cnt - 1).natAbs longMax + 1 - r.start.natAbs)).mapM
        (nodeText base nd sfx) := by
  have hdigits : ∀ c ∈ toDigits 10 r.start.natAbs, c.isDigit = true :=
    fun c hc => isDigit_toDigits hc
  unfold regexParseNodeRange Range.text
  by_cases hone : r.cnt = 1
  · have hfirst := dropWhile_intText r.start []
    rw [append_nil, append_nil] at hfirst
    rw [if_pos hone, hfirst]
    dsimp only
    rw [(takeWhile_all hdigits).1, (takeWhile_all hdigits).2, numeral_toDigits,
      if_neg toDigits_ne_nil, if_pos rfl]
    split_ifs with hbig
    · rfl
    · have hcount : min (r.start + r.cnt - 1).natAbs longMax + 1 - r.start.natAbs = 1 := by
        have hmax : Opal.intMax < longMax := by decide
        omega
      rw [hcount]
      cases htext : nodeText base nd sfx r.start.natAbs with
      | none | some t => simp [htext]
  · have hlast := dropWhile_intText (r.start + r.cnt - 1) []
    have hdash : ('-' :: intText (r.start + r.cnt - 1)).dropWhile (fun c => !c.isDigit) =
        toDigits 10 (r.start + r.cnt - 1).natAbs := by
      rw [append_nil, append_nil] at hlast
      exact hlast
    have hstop := @takeWhile_stop _ (intText (r.start + r.cnt - 1)) _ '-' hdigits rfl
    rw [if_neg hone, dropWhile_intText]
    dsimp only
    rw [hstop.1, hstop.2, numeral_toDigits, hdash,
      if_neg (append_ne_nil_of_left_ne_nil toDigits_ne_nil _),
      if_neg (cons_ne_nil _ _), if_neg toDigits_ne_nil,
      (takeWhile_all fun c hc => isDigit_toDigits hc).1, numeral_toDigits]

theorem intText_chars {c : Char} {x : ℤ} (h : c ∈ intText x) : c.isDigit = true ∨ c = '-' := by
  obtain ⟨sign, hsign, htext⟩ := intText_parts x
  rw [htext] at h
  rcases mem_append.1 h with h | h
  · exact .inr (hsign c h)
  · exact .inl (isDigit_toDigits h)

theorem text_chars {c : Char} (h : c ∈ r.text) : c.isDigit = true ∨ c = '-' := by
  unfold Range.text at h
  split_ifs at h
  · exact intText_chars h
  · rcases mem_append.1 h with h | h
    · exact intText_chars h
    · rcases mem_cons.1 h with h | h
      · exact .inr h
      · exact intText_chars h

theorem intercalate_chars {c : Char} (h : c ∈ [','].intercalate (rs.map Range.text)) :
    c.isDigit = true ∨ c = '-' ∨ c = ',' := by
  induction rs with
  | nil => exact nomatch h
  | cons r rs ih =>
    cases rs with
    | nil =>
      rw [map_singleton, intercalate_singleton] at h
      exact (text_chars h).imp_right .inl
    | cons r' rs =>
      rw [map_cons, map_cons, intercalate_cons_cons] at h
      rcases mem_append.1 h with h | h
      · rcases mem_append.1 h with h | h
        · exact (text_chars h).imp_right .inl
        · exact .inr (.inr (mem_singleton.1 h))
      · exact ih h

theorem regexParseNodeRanges_text (hne : rs ≠ []) :
    regexParseNodeRanges base ([','].intercalate (rs.map Range.text)) nd sfx =
      (rs.mapM fun r => regexParseNodeRange base nd sfx r.text).map flatten := by
  have hsplit : ([','].intercalate (rs.map Range.text)).splitOn ',' = rs.map Range.text := by
    apply splitOn_intercalate
    · intro text htext hcomma
      obtain ⟨r, -, rfl⟩ := List.mem_map.1 htext
      rcases text_chars hcomma with h | h
      · exact nomatch h
      · exact nomatch h
    · exact fun h => hne (map_eq_nil_iff.1 h)
  have hlast : (rs.map Range.text).getLast? ≠ some [] := by
    intro h
    obtain ⟨r, -, htext⟩ := List.mem_map.1 (mem_of_getLast? h)
    have hdrop := dropWhile_intText r.start
    unfold Range.text at htext
    split_ifs at htext
    · have hnil := hdrop []
      rw [append_nil, htext] at hnil
      exact toDigits_ne_nil (append_eq_nil_iff.1 hnil.symm).1
    · exact cons_ne_nil _ _ (append_eq_nil_iff.1 htext).2
  unfold regexParseNodeRanges
  rw [hsplit]
  dsimp only
  rw [if_neg hlast, mapM_map]
  rfl

end ParseRange

section Groups

variable {a : Name} {g names : List Name} {p s : Name} {nd : ℕ} {k : Name × Name × ℕ}

def groupNames (g : List Name) : Option (List Name) :=
  match g.head?.bind nameKey, g with
  | some (p, s, _), [a] => some [p ++ intText (number a) ++ s]
  | some (p, s, nd), _ => ((collect (g.map number)).mapM fun r =>
    regexParseNodeRange p nd (optPrefix s) r.text).map flatten
  | none, _ => some g

/-- A group is a name that is kept, a name that has its key alone, or all names with a key. -/
inductive IsGroup (names : List Name) : List Name → Prop where
  | kept (a : Name) (ha : a ∈ names) (hkey : nameKey a = none) : IsGroup names [a]
  | alone (a : Name) (k : Name × Name × ℕ) (ha : a ∈ names) (hkey : nameKey a = some k)
      (hg : ofKey nameKey k names = [a]) : IsGroup names [a]
  | shared (k : Name × Name × ℕ) (hlen : 2 ≤ (ofKey nameKey k names).length) :
      IsGroup names (ofKey nameKey k names)

theorem isGroup (hg : g ∈ grouped nameKey names) : IsGroup names g := by
  rcases mem_grouped hg with ⟨a, ha, hkey, rfl⟩ | ⟨a, ha, k, hkey, rfl⟩
  · exact .kept a ha hkey
  · have hmem : a ∈ ofKey nameKey k names := mem_ofKey.2 ⟨ha, hkey⟩
    by_cases hlen : 2 ≤ (ofKey nameKey k names).length
    · exact .shared k hlen
    · have hone : (ofKey nameKey k names).length = 1 := by
        have := length_pos_of_mem hmem
        omega
      obtain ⟨b, hb⟩ := length_eq_one_iff.1 hone
      rw [hb] at hmem ⊢
      obtain rfl := mem_singleton.1 hmem
      exact .alone a k ha hkey hb

theorem head_ofKey (h : 0 < (ofKey nameKey k names).length) :
    (ofKey nameKey k names).head?.bind nameKey = some k := by
  obtain ⟨b, g, hg⟩ := exists_cons_of_ne_nil (ne_nil_of_length_pos h)
  have hb : b ∈ ofKey nameKey k names := by
    rw [hg]
    exact mem_cons_self
  rw [hg]
  exact (mem_ofKey.1 hb).2

theorem groupNames_kept (ha : nameKey a = none) : groupNames [a] = some [a] := by
  have hhead : [a].head?.bind nameKey = none := ha
  unfold groupNames
  rw [hhead]

theorem groupNames_alone (ha : nameKey a = some (p, s, nd)) :
    groupNames [a] = some [p ++ intText (number a) ++ s] := by
  have hhead : [a].head?.bind nameKey = some (p, s, nd) := ha
  unfold groupNames
  rw [hhead]

theorem groupNode_shared (h : 2 ≤ (ofKey nameKey (p, s, nd) names).length) :
    groupNode (ofKey nameKey (p, s, nd) names) = ⟨optPrefix p, some s, nd,
      collect ((ofKey nameKey (p, s, nd) names).map number)⟩ := by
  rw [groupNode, head_ofKey (lt_of_succ_lt h)]

theorem groupNames_shared (h : 2 ≤ (ofKey nameKey (p, s, nd) names).length) :
    groupNames (ofKey nameKey (p, s, nd) names) =
      ((collect ((ofKey nameKey (p, s, nd) names).map number)).mapM fun r =>
        regexParseNodeRange p nd (optPrefix s) r.text).map flatten := by
  have hhead := head_ofKey (lt_of_succ_lt h)
  generalize ofKey nameKey (p, s, nd) names = g at h hhead
  unfold groupNames
  rw [hhead]
  match g, h with
  | _ :: _ :: _, _ => rfl

theorem getD_optPrefix (p : Name) : (optPrefix p).getD [] = p := by
  unfold optPrefix
  split_ifs with h
  · exact h.symm
  · rfl

theorem text_whole {e : RegexNode} (h : 2 ≤ (numbers e.ranges).length) :
    e.text = [e.nodePrefix.getD [] ++ '[' :: Nat.toDigits 10 e.numDigits ++ ':' ::
      [','].intercalate (e.ranges.map Range.text) ++ ']' :: e.suffix.getD []] := by
  obtain ⟨base, suffix, nd, rs⟩ := e
  match rs, h with
  | [r], h =>
    have hcnt : r.cnt ≠ 1 := by
      simp [numbers] at h
      omega
    exact if_neg hcnt
  | _ :: _ :: _, _ => rfl

theorem expands_groupNode (hg : IsGroup names g) (hne : ∀ a ∈ names, a ≠ [])
    (hplain : ∀ a ∈ names, ∀ c ∈ a, c ≠ ',' ∧ c ≠ '[' ∧ c ≠ ']' ∧ c ≠ ':') :
    ∃ t, (groupNode g).text = [t] ∧ Expands t (groupNames g) := by
  have hletters : ∀ {a c}, c ∈ letters a → c ≠ '[' ∧ c ≠ ',' := by
    intro a c hc
    constructor <;> rintro rfl <;> exact absurd (isAlpha_letters hc) (by decide)
  have hsuffix : ∀ {a k c}, nameKey a = some k → c ∈ suffix a → c ≠ '[' ∧ c ≠ ',' := by
    intro a k c ha hc
    have hmem : c ∈ a := by
      rw [← parts a]
      exact mem_append_right _ hc
    have halnum := (nameKey_eq_some ha).2.1 c hmem
    constructor <;> rintro rfl <;> exact absurd halnum (by decide)
  cases hg with
  | kept a ha hkey =>
    have hhead : [a].head?.bind nameKey = none := hkey
    refine ⟨a, by rw [groupNode, hhead]; rfl, ?_⟩
    rw [groupNames_kept hkey]
    exact expands_plain (hne a ha) fun c hc => ⟨(hplain a ha c hc).2.1, (hplain a ha c hc).1⟩
  | alone a k ha hkey =>
    obtain rfl := (nameKey_eq_some hkey).1
    have hhead : [a].head?.bind nameKey = _ := hkey
    refine ⟨letters a ++ intText (number a) ++ suffix a, ?_, ?_⟩
    · rw [groupNode, hhead]
      change [(optPrefix (letters a)).getD [] ++ _ ++ _] = _
      rw [getD_optPrefix]
      rfl
    · rw [groupNames_alone hkey]
      apply expands_plain
      · intro hnil
        obtain ⟨sign, -, htext⟩ := intText_parts (number a)
        have h := (append_eq_nil_iff.1 (append_eq_nil_iff.1 hnil).1).2
        rw [htext] at h
        exact toDigits_ne_nil (append_eq_nil_iff.1 h).2
      · intro c hc
        rcases mem_append.1 hc with hc | hc
        · rcases mem_append.1 hc with hc | hc
          · exact hletters hc
          · rcases intText_chars hc with h | rfl
            · constructor <;> rintro rfl <;> exact absurd h (by decide)
            · decide
        · exact hsuffix hkey hc
  | shared k hlen =>
    obtain ⟨a, ha⟩ := exists_mem_of_length_pos (lt_of_succ_lt hlen)
    have hkey := (mem_ofKey.1 ha).2
    obtain rfl := (nameKey_eq_some hkey).1
    have hnode := groupNode_shared hlen
    rw [groupNames_shared hlen]
    generalize ofKey nameKey (letters a, suffix a, a.countP isDigit) names = g at hlen hnode
    have hnumbers := (collect_spec (g.map number)).1
    have htwo : 2 ≤ (numbers (groupNode g).ranges).length := by
      rw [hnode, hnumbers, length_map]
      exact hlen
    refine ⟨_, text_whole htwo, ?_⟩
    rw [hnode] at htwo ⊢
    rw [← regexParseNodeRanges_text, getD_optPrefix, append_assoc, append_assoc]
    · apply expands_ranges
      · exact fun c hc => hletters hc
      · exact fun c hc => (hsuffix hkey hc).2
      · rintro c hc rfl
        rcases intercalate_chars hc with h | h | h
        all_goals exact absurd h (by decide)
    · intro hnil
      rw [hnil] at htwo
      exact not_succ_le_zero 1 htwo

end Groups

section Numbers

variable {a n : Name} {g names out : List Name} {p s q ds : Name} {nd i : ℕ}

/-- The number of a name that is put together is an `int`. -/
def Small (name : Name) : Prop := nameKey name ≠ none → (numeral (digits name) : ℤ) ≤ Opal.intMax

theorem number_le (a : Name) : number a ≤ Opal.intMax := by
  unfold number nodenum Opal.toInt Opal.intMax
  omega

theorem number_eq (h : (numeral (digits a) : ℤ) ≤ Opal.intMax) : number a = numeral (digits a) := by
  have hlong : Opal.intMax ≤ longMax := by decide
  unfold number nodenum Opal.toInt
  unfold Opal.intMax at h hlong
  rw [Nat.min_eq_left (by omega)]
  omega

theorem small_parts (hq : ∀ c ∈ q, c.isAlpha = true) (hds : ∀ c ∈ ds, c.isDigit = true)
    (hne : ds ≠ []) (hs : ∀ c, s.head? = some c → c.isDigit = false)
    (h : (numeral ds : ℤ) ≤ Opal.intMax) : Small (q ++ ds ++ s) := by
  intro _
  rw [(parts_append hq hds hne hs).2.1]
  exact h

theorem nodeText_parts (h : nodeText p nd (optPrefix s) i = some n) :
    ∃ k z : ℕ, n = p.take k ++ (replicate z '0' ++ Nat.toDigits 10 i) ++ s := by
  unfold nodeText at h
  dsimp only at h
  split_ifs at h
  rw [take_append, take_replicate, getD_optPrefix] at h
  rw [append_assoc (take _ p)] at h
  exact ⟨_, _, (Option.some.inj h).symm⟩

theorem small_nodeText (h : nodeText (letters a) nd (optPrefix (suffix a)) i = some n)
    (hi : (i : ℤ) ≤ Opal.intMax) : Small n := by
  obtain ⟨k, z, rfl⟩ := nodeText_parts h
  have hdigit : ∀ c ∈ replicate z '0' ++ toDigits 10 i, c.isDigit = true := by
    intro c hc
    rcases mem_append.1 hc with hc | hc
    · rw [eq_of_mem_replicate hc]
      rfl
    · exact isDigit_toDigits hc
  apply small_parts (fun c hc => isAlpha_letters (mem_of_mem_take hc)) hdigit
    (append_ne_nil_of_right_ne_nil _ toDigits_ne_nil) (fun c hc => head_suffix hc)
  rw [numeral, ofDigitChars_append, ofDigitChars_replicate_zero, Nat.mul_zero]
  rw [ofDigitChars_ten_toDigits]
  exact hi

theorem last_mem_numbers {r : Range} {rs : List Range} (hr : r ∈ rs) (hcnt : 0 < r.cnt) :
    r.start + r.cnt - 1 ∈ numbers rs := by
  apply mem_flatMap.2
  refine ⟨r, hr, List.mem_map.2 ⟨r.cnt - 1, mem_range.2 (by omega), ?_⟩⟩
  omega

theorem range_le {start cnt m : ℤ} {l : ℕ} (hlast : start + cnt - 1 ≤ m) (hcnt : 0 < cnt)
    (hstart : ¬ m < start.natAbs)
    (hi : i < start.natAbs + (min (start + cnt - 1).natAbs l + 1 - start.natAbs)) :
    (i : ℤ) ≤ m := by
  have hmin := Nat.min_le_left (start + cnt - 1).natAbs l
  omega

theorem small_alone : Small (letters a ++ intText (number a) ++ suffix a) := by
  unfold intText
  split_ifs with hneg
  · intro hne
    obtain ⟨k, hk⟩ := ne_none_iff_exists'.1 hne
    have hdash := (nameKey_eq_some hk).2.1 '-'
      (mem_append_left _ (mem_append_right _ mem_cons_self))
    exact absurd hdash (by decide)
  · apply small_parts (fun c hc => isAlpha_letters hc) (fun c hc => isDigit_toDigits hc)
      toDigits_ne_nil (fun c hc => head_suffix hc)
    have hle := number_le a
    rw [numeral_toDigits]
    omega

theorem small_groupNames (hg : IsGroup names g) (h : groupNames g = some out) :
    ∀ n ∈ out, Small n := by
  intro n hn
  cases hg with
  | kept a ha hkey =>
    rw [groupNames_kept hkey] at h
    obtain rfl := Option.some.inj h
    obtain rfl := mem_singleton.1 hn
    exact fun hne => absurd hkey hne
  | alone a k ha hkey =>
    obtain rfl := (nameKey_eq_some hkey).1
    rw [groupNames_alone hkey] at h
    obtain rfl := Option.some.inj h
    obtain rfl := mem_singleton.1 hn
    exact small_alone
  | shared k hlen =>
    obtain ⟨a, ha⟩ := exists_mem_of_length_pos (lt_of_succ_lt hlen)
    obtain rfl := (nameKey_eq_some (mem_ofKey.1 ha).2).1
    rw [groupNames_shared hlen] at h
    obtain ⟨outs, houts, rfl⟩ := map_eq_some_iff.1 h
    obtain ⟨ns, hns, hn⟩ := mem_flatten.1 hn
    obtain ⟨r, hr, hnames⟩ := exists_of_mem_mapM houts hns
    have hspec := collect_spec
      ((ofKey nameKey (letters a, suffix a, a.countP isDigit) names).map number)
    have hcnt := hspec.2 r hr
    have hlast := last_mem_numbers hr hcnt
    rw [hspec.1] at hlast
    obtain ⟨b, -, hb⟩ := List.mem_map.1 hlast
    rw [regexParseNodeRange_text] at hnames
    split_ifs at hnames with hbig
    obtain ⟨i, hi, hin⟩ := exists_of_mem_mapM hnames hn
    apply small_nodeText hin
    rw [mem_range'_1] at hi
    have hle : r.start + r.cnt - 1 ≤ Opal.intMax := by
      rw [← hb]
      exact number_le b
    exact range_le hle (Int.natCast_pos.2 hcnt) hbig hi.2

end Numbers

section Restored

variable {a : Name} {g names : List Name} {p s q ds : Name} {nd n : ℕ}

/-- The names that have the key of the name. -/
def sharers (names : List Name) (a : Name) : ℕ := names.countP (nameKey · = nameKey a)

/-- The name that comes back for a name of the list. -/
def restored (names : List Name) (a : Name) : Name :=
  match nameKey a with
  | some (p, s, nd) =>
    p ++ (if sharers names a = 1 then Nat.toDigits 10 (numeral (digits a))
      else padded nd (numeral (digits a))) ++ s
  | none => a

theorem restored_some (h : nameKey a = some (p, s, nd)) : restored names a =
    p ++ (if sharers names a = 1 then Nat.toDigits 10 (numeral (digits a))
      else padded nd (numeral (digits a))) ++ s := by
  rw [restored, h]

theorem restored_none (h : nameKey a = none) : restored names a = a := by
  rw [restored, h]

theorem length_ofKey (h : nameKey a = some (p, s, nd)) :
    (ofKey nameKey (p, s, nd) names).length = sharers names a := by
  rw [sharers, h, ofKey, countP_eq_length_filter]

theorem numeral_digits_lt (h : nameKey a = some (p, s, nd)) :
    0 < nd ∧ numeral (digits a) < 10 ^ nd := by
  obtain ⟨hk, -, hne⟩ := nameKey_eq_some h
  have hnd : nd = (digits a).length + (suffix a).countP isDigit := by
    rw [← countP_parts]
    exact congrArg (·.2.2) hk
  have hlen := length_pos_iff.2 hne
  refine ⟨by omega, Nat.lt_of_lt_of_le (numeral_lt fun c hc => isDigit_digits hc) ?_⟩
  exact Nat.pow_le_pow_right (succ_pos 9) (by omega)

theorem nodeText_padded (hnd : 0 < nd) (h : n < 10 ^ nd) :
    nodeText p nd (optPrefix s) n = some (p ++ padded nd n ++ s) := by
  have hle := (length_toDigits_le hnd).2 h
  unfold nodeText padded
  dsimp only
  rw [length_append, length_replicate, if_neg (by omega), take_append,
    take_of_length_le (by omega), take_replicate, getD_optPrefix, Nat.min_eq_left (by omega),
    append_assoc p, show p.length + nd - _ - p.length = nd - (toDigits 10 n).length by omega]

theorem regexParseNodeRange_padded {r : Range} (hr : 0 < r.cnt) (hstart : 0 ≤ r.start)
    (hle : r.start + r.cnt - 1 ≤ Opal.intMax)
    (h : ∀ x ∈ (range r.cnt).map fun i : ℕ => r.start + i, x.toNat < 10 ^ nd) (hnd : 0 < nd) :
    regexParseNodeRange p nd (optPrefix s) r.text = some
      (((range r.cnt).map fun i : ℕ => r.start + i).map fun x => p ++ padded nd x.toNat ++ s) := by
  obtain ⟨start, hs⟩ := Int.eq_ofNat_of_zero_le hstart
  have hlong : Opal.intMax < longMax := by decide
  have hcount : min (r.start + r.cnt - 1).natAbs longMax + 1 - r.start.natAbs = r.cnt := by omega
  have htexts : ∀ i ∈ range' start r.cnt,
      nodeText p nd (optPrefix s) i = some (p ++ padded nd i ++ s) := by
    intro i hi
    rw [range'_eq_map_range] at hi
    obtain ⟨j, hj, rfl⟩ := List.mem_map.1 hi
    apply nodeText_padded hnd
    have hj := h _ (List.mem_map_of_mem hj)
    rw [hs] at hj
    exact hj
  rw [regexParseNodeRange_text, if_neg (by omega), hcount, hs]
  change (range' start r.cnt).mapM _ = _
  rw [mapM_eq_some_map htexts, range'_eq_map_range, List.map_map, List.map_map]
  rfl

theorem groupNames_restored (hg : IsGroup names g) (hsmall : ∀ a ∈ names, Small a) :
    groupNames g = some (g.map (restored names)) := by
  cases hg with
  | kept a ha hkey =>
    rw [groupNames_kept hkey, map_singleton, restored_none hkey]
  | alone a k ha hkey hone =>
    have hnumber := number_eq (hsmall a ha (by rw [hkey]; exact nofun))
    have hcount := @length_ofKey a names _ _ _ hkey
    rw [hone] at hcount
    rw [groupNames_alone hkey, map_singleton, restored_some hkey,
      if_pos (show sharers names a = 1 from hcount.symm), hnumber]
    rfl
  | shared k hlen =>
    obtain ⟨p, s, nd⟩ := k
    have hmem : ∀ {a}, a ∈ ofKey nameKey (p, s, nd) names →
        nameKey a = some (p, s, nd) ∧ number a = numeral (digits a) := by
      intro a ha
      have hkey := (mem_ofKey.1 ha).2
      exact ⟨hkey, number_eq (hsmall a (mem_ofKey.1 ha).1 (by rw [hkey]; exact nofun))⟩
    obtain ⟨a, ha⟩ := exists_mem_of_length_pos (lt_of_succ_lt hlen)
    have hnd := (numeral_digits_lt (hmem ha).1).1
    have hspec := collect_spec ((ofKey nameKey (p, s, nd) names).map number)
    have hfits : ∀ x ∈ numbers (collect ((ofKey nameKey (p, s, nd) names).map number)),
        0 ≤ x ∧ x ≤ Opal.intMax ∧ x.toNat < 10 ^ nd := by
      rw [hspec.1]
      intro x hx
      obtain ⟨b, hb, rfl⟩ := List.mem_map.1 hx
      refine ⟨?_, number_le b, ?_⟩
      · rw [(hmem hb).2]
        exact Int.natCast_nonneg _
      · rw [(hmem hb).2]
        exact (numeral_digits_lt (hmem hb).1).2
    have hranges : ∀ r ∈ collect ((ofKey nameKey (p, s, nd) names).map number),
        regexParseNodeRange p nd (optPrefix s) r.text = some
          (((range r.cnt).map fun i : ℕ => r.start + i).map
            fun x => p ++ padded nd x.toNat ++ s) := by
      intro r hr
      have hcnt := hspec.2 r hr
      have hin : ∀ x ∈ (range r.cnt).map fun i : ℕ => r.start + i,
          x ∈ numbers (collect ((ofKey nameKey (p, s, nd) names).map number)) :=
        fun x hx => mem_flatMap.2 ⟨r, hr, hx⟩
      have hstart := hfits _ (hin _ (List.mem_map_of_mem (mem_range.2 hcnt)))
      apply regexParseNodeRange_padded hcnt _ (hfits _ (last_mem_numbers hr hcnt)).2.1
        (fun x hx => (hfits x (hin x hx)).2.2) hnd
      omega
    rw [groupNames_shared hlen, mapM_eq_some_map hranges, map_some, some_inj]
    calc _ = (numbers (collect ((ofKey nameKey (p, s, nd) names).map number))).map
          (fun x => p ++ padded nd x.toNat ++ s) := by
          rw [numbers, map_flatMap, flatMap_def]
      _ = (ofKey nameKey (p, s, nd) names).map (restored names) := by
          rw [hspec.1, List.map_map]
          apply map_congr_left
          intro b hb
          have hcount : sharers names b ≠ 1 := by
            rw [← length_ofKey (hmem hb).1]
            omega
          rw [restored_some (hmem hb).1, if_neg hcount, Function.comp_apply, (hmem hb).2]
          rfl

end Restored

section Kept

variable {a b : Name} {names : List Name} {p s q ds : Name} {nd n : ℕ}

/-- A name that is alone has no leading zeros; one that is not has no digits in its suffix. -/
def Kept (names : List Name) (a : Name) : Prop :=
  nameKey a ≠ none → if sharers names a = 1 then digits a = ['0'] ∨ (digits a).head? ≠ some '0'
    else (suffix a).countP Char.isDigit = 0

theorem restored_eq (h : nameKey a ≠ none) : restored names a =
    letters a ++ (if sharers names a = 1 then Nat.toDigits 10 (numeral (digits a))
      else padded (a.countP Char.isDigit) (numeral (digits a))) ++ suffix a := by
  obtain ⟨k, hk⟩ := ne_none_iff_exists'.1 h
  obtain rfl := (nameKey_eq_some hk).1
  exact restored_some hk

theorem restored_eq_iff : restored names a = a ↔ Kept names a := by
  unfold Kept
  by_cases hkey : nameKey a = none
  · exact iff_of_true (restored_none hkey) fun h => absurd hkey h
  · obtain ⟨k, hk⟩ := ne_none_iff_exists'.1 hkey
    obtain ⟨rfl, -, hne⟩ := nameKey_eq_some hk
    have hdigits : ∀ c ∈ digits a, c.isDigit = true := fun c hc => isDigit_digits hc
    have hcancel : ∀ ds : Name, letters a ++ ds ++ suffix a = a ↔ ds = digits a := by
      intro ds
      have hparts := parts a
      constructor
      · intro h
        exact append_cancel_left (append_cancel_right (h.trans hparts.symm))
      · rintro rfl
        exact hparts
    rw [restored_eq hkey, hcancel, forall_prop_of_true hkey]
    split_ifs with hone
    · exact toDigits_numeral_iff hdigits hne
    · have hcount := countP_parts a
      have hfits := numeral_digits_lt hk
      constructor
      · intro h
        have hlen := congrArg length h
        rw [length_padded hfits.1 hfits.2] at hlen
        omega
      · intro h
        rw [hcount, h]
        exact padded_numeral hdigits hne

theorem length_restored (h : sharers names a ≠ 1 → Kept names a) :
    (restored names a).length ≤ a.length ∧
      ((restored names a).length = a.length → restored names a = a) := by
  by_cases hone : sharers names a = 1
  · by_cases hkey : nameKey a = none
    · rw [restored_none hkey]
      exact ⟨Nat.le_refl _, fun _ => rfl⟩
    · obtain ⟨k, hk⟩ := ne_none_iff_exists'.1 hkey
      have hne := (nameKey_eq_some hk).2.2
      have hdigits : ∀ c ∈ digits a, c.isDigit = true := fun c hc => isDigit_digits hc
      have hle := (length_toDigits_le (length_pos_iff.2 hne)).2 (numeral_lt hdigits)
      have hparts := congrArg length (parts a)
      rw [restored_eq hkey, if_pos hone]
      rw [length_append, length_append] at hparts ⊢
      refine ⟨by omega, fun hlen => ?_⟩
      have heq := eq_of_numeral (fun c hc => isDigit_toDigits hc) hdigits (by omega)
        (numeral_toDigits (numeral (digits a)))
      rw [heq, parts]
  · rw [restored_eq_iff.2 (h hone)]
    exact ⟨Nat.le_refl _, fun _ => rfl⟩

theorem nameKey_parts (hq : ∀ c ∈ q, c.isAlpha = true) (hds : ∀ c ∈ ds, c.isDigit = true)
    (hne : ds ≠ []) (hs : ∀ c, s.head? = some c → c.isDigit = false)
    (hall : ∀ c ∈ s, c.isAlphanum = true) :
    nameKey (q ++ ds ++ s) = some (q, s, ds.length + s.countP Char.isDigit) := by
  obtain ⟨hl, hd, hs'⟩ := parts_append hq hds hne hs
  have hcount := countP_parts (q ++ ds ++ s)
  have halnum : (q ++ ds ++ s).all isAlphanum = true := by
    rw [List.all_eq_true]
    intro c hc
    rcases mem_append.1 hc with hc | hc
    · rw [isAlphanum]
      rcases mem_append.1 hc with hc | hc
      · rw [hq c hc, Bool.true_or]
      · rw [hds c hc, Bool.or_true]
    · exact hall c hc
  have hany : (q ++ ds ++ s).any isDigit = true := by
    obtain ⟨d, hd⟩ := exists_mem_of_ne_nil ds hne
    exact List.any_eq_true.2 ⟨d, mem_append_left _ (mem_append_right _ hd), hds d hd⟩
  rw [nameKey, halnum, hany, hl, hs', hcount, hd, hs']
  rfl

theorem nameKey_restored (h : nameKey a = some (p, s, nd)) (hshared : sharers names a ≠ 1) :
    nameKey (restored names a) = some (p, s, nd + s.countP Char.isDigit) := by
  obtain ⟨hk, hall, -⟩ := nameKey_eq_some h
  have hfits := numeral_digits_lt h
  have hlen := length_padded hfits.1 hfits.2
  obtain ⟨rfl, hk⟩ := Prod.ext_iff.1 hk
  obtain ⟨rfl, -⟩ := Prod.ext_iff.1 hk
  rw [restored_some h, if_neg hshared, nameKey_parts, hlen]
  · exact fun c hc => isAlpha_letters hc
  · exact fun c hc => isDigit_padded hc
  · apply ne_nil_of_length_pos
    rw [hlen]
    exact hfits.1
  · exact fun c hc => head_suffix hc
  · intro c hc
    apply hall
    rw [← parts a]
    exact mem_append_right _ hc

theorem kept_of_shared (hperm : (names.map (restored names)).Perm names) (ha : a ∈ names)
    (hshared : sharers names a ≠ 1) : Kept names a := by
  intro hkey
  obtain ⟨⟨p, s, nd⟩, hk⟩ := ne_none_iff_exists'.1 hkey
  obtain ⟨hk', -⟩ := nameKey_eq_some hk
  have hs : suffix a = s := (congrArg (·.2.1) hk').symm
  rw [if_neg hshared, hs]
  by_contra hpos
  -- the same key with ever more digits is also shared
  have hmore : ∀ m, 2 ≤ names.countP (nameKey · = some (p, s, nd + m * s.countP isDigit)) := by
    intro m
    induction m with
    | zero =>
      have hmem : 0 < names.countP (nameKey · = nameKey a) :=
        countP_pos_iff.2 ⟨a, ha, decide_eq_true rfl⟩
      rw [Nat.zero_mul, Nat.add_zero, ← hk]
      unfold sharers at hshared
      omega
    | succ m ih =>
      have hmap := hperm.countP_eq
        (nameKey · = some (p, s, nd + (m + 1) * s.countP isDigit))
      apply Nat.le_trans ih
      rw [← hmap, countP_map]
      apply countP_mono_left
      intro b _ hb
      have hb := of_decide_eq_true hb
      apply decide_eq_true
      have hcount : sharers names b ≠ 1 := by
        unfold sharers
        rw [hb]
        omega
      rw [nameKey_restored hb hcount, succ_mul, Nat.add_assoc]
  obtain ⟨b, hb, hbk⟩ := countP_pos_iff.1
    (Nat.lt_of_lt_of_le Nat.two_pos (hmore ((names.map length).sum + 1)))
  have hdigits := congrArg (·.2.2) (nameKey_eq_some (of_decide_eq_true hbk)).1
  dsimp only at hdigits
  have hle : b.countP isDigit ≤ (names.map length).sum :=
    Nat.le_trans countP_le_length (single_le_sum (fun _ _ => Nat.zero_le _) _
      (List.mem_map_of_mem hb))
  have hgrow := Nat.le_mul_of_pos_right ((names.map length).sum + 1)
    (Nat.pos_of_ne_zero hpos)
  omega

end Kept

section RoundTrip

structure NodeList where
  names : List Name
  two_le : 2 ≤ names.length
  nonempty : ∀ name ∈ names, name ≠ []
  plain : ∀ name ∈ names, ∀ c ∈ name, c ≠ ',' ∧ c ≠ '[' ∧ c ≠ ']' ∧ c ≠ ':'

namespace NodeList

variable {l : NodeList}

def text (l : NodeList) : List Char := [','].intercalate l.names

def RoundTrips (l : NodeList) : Prop :=
  (orteRegexCreate l.text).bind orteRegexExtractNodeNames = some l.names

/-- Every prefix has room, every number is an `int`, every name keeps its digits, and the names that
are put together stand together. -/
structure Regular (l : NodeList) : Prop where
  fits : ∀ name ∈ l.names, PrefixFits name
  small : ∀ name ∈ l.names, Small name
  kept : ∀ name ∈ l.names, Kept l.names name
  together : Together nameKey l.names

theorem create_eq (l : NodeList) : orteRegexCreate l.text =
    (l.names.foldlM addName []).map fun nodes =>
      [','].intercalate (nodes.flatMap RegexNode.text) := by
  obtain ⟨names, htwo, hne, hplain⟩ := l
  have hsplit : ([','].intercalate names).splitOn ',' = names := by
    apply splitOn_intercalate
    · exact fun name hname hc => (hplain name hname ',' hc).1 rfl
    · exact ne_nil_of_length_pos (lt_of_succ_lt htwo)
  have hlast : names.getLast? ≠ some [] := fun h => hne [] (mem_of_getLast? h) rfl
  have hcomma : ',' ∈ [','].intercalate names := by
    match names, htwo with
    | a :: b :: names, _ =>
      rw [intercalate_cons_cons]
      exact mem_append_left _ (mem_append_right _ mem_cons_self)
  unfold orteRegexCreate nodeNames NodeList.text
  rw [if_neg (not_not.2 hcomma), hsplit]
  dsimp only
  rw [if_neg hlast]

theorem roundTrip_eq (h : ∀ name ∈ l.names, PrefixFits name) :
    (orteRegexCreate l.text).bind orteRegexExtractNodeNames =
      ((grouped nameKey l.names).mapM groupNames).map flatten := by
  have hgroups : ∀ g ∈ grouped nameKey l.names, (groupNode g).text = [(groupNode g).text.flatten] ∧
        Expands (groupNode g).text.flatten (groupNames g) := by
    intro g hg
    obtain ⟨t, ht, hexp⟩ := expands_groupNode (isGroup hg) l.nonempty l.plain
    rw [ht, flatten_singleton]
    exact ⟨rfl, hexp⟩
  have htext : ((grouped nameKey l.names).map groupNode).flatMap RegexNode.text =
      (grouped nameKey l.names).map fun g => (groupNode g).text.flatten := by
    rw [flatMap_map, map_eq_flatMap]
    exact flatMap_congr fun g hg => (hgroups g hg).1
  have hne : grouped nameKey l.names ≠ [] := by
    intro hnil
    have hlen := (@grouped_perm _ _ _ nameKey l.names).length_eq
    rw [hnil] at hlen
    have htwo := l.two_le
    rw [← hlen] at htwo
    exact not_succ_le_zero 1 htwo
  rw [create_eq, foldlM_addName h, map_some, bind_some, htext]
  exact extractFrom_intercalate _ hne (fun g hg => (hgroups g hg).2) _ (lt_succ_self _)

theorem restored_of_small (hfits : ∀ name ∈ l.names, PrefixFits name)
    (hsmall : ∀ name ∈ l.names, Small name) :
    (orteRegexCreate l.text).bind orteRegexExtractNodeNames =
      some ((grouped nameKey l.names).flatten.map (restored l.names)) := by
  rw [roundTrip_eq hfits, mapM_eq_some_map fun g hg => groupNames_restored (isGroup hg) hsmall,
    map_some, map_flatten]

/-- The names come back exactly if they are regular. -/
theorem roundTrips_iff (l : NodeList) : l.RoundTrips ↔ l.Regular := by
  have hperm := @grouped_perm _ _ _ nameKey l.names
  constructor
  · intro h
    have hfits : ∀ name ∈ l.names, PrefixFits name := by
      obtain ⟨text, htext, -⟩ := bind_eq_some_iff.1 h
      rw [create_eq] at htext
      obtain ⟨nodes, hnodes, -⟩ := map_eq_some_iff.1 htext
      exact prefixFits_of_foldlM (by rw [hnodes]; rfl)
    have hsmall : ∀ name ∈ l.names, Small name := by
      intro name hname
      rw [RoundTrips, roundTrip_eq hfits] at h
      obtain ⟨outs, houts, hflat⟩ := map_eq_some_iff.1 h
      rw [← hflat] at hname
      obtain ⟨out, hout, hname⟩ := mem_flatten.1 hname
      obtain ⟨g, hg, hgroup⟩ := exists_of_mem_mapM houts hout
      exact small_groupNames (isGroup hg) hgroup name hname
    rw [RoundTrips, restored_of_small hfits hsmall] at h
    have hback := Option.some.inj h
    have hmap : (l.names.map (restored l.names)).Perm l.names :=
      (hperm.map _).symm.trans (List.Perm.of_eq hback)
    have hlen := fun name hname => @length_restored name l.names fun hshared =>
      kept_of_shared hmap hname hshared
    have hsame : ∀ name ∈ l.names, restored l.names name = name := by
      intro name hname
      apply (hlen name hname).2
      by_contra hne
      have hlt := sum_lt_sum (l := l.names) (fun n => (restored l.names n).length)
        length (fun n hn => (hlen n hn).1)
        ⟨name, hname, Nat.lt_of_le_of_ne (hlen name hname).1 hne⟩
      have hsum := (hmap.map length).sum_eq
      rw [List.map_map] at hsum
      exact Nat.ne_of_lt hlt hsum
    refine ⟨hfits, hsmall, fun name hname => restored_eq_iff.1 (hsame name hname), ?_⟩
    rw [← flatten_grouped_iff]
    rw [map_congr_left fun name hname => hsame name (hperm.mem_iff.1 hname), List.map_id'] at hback
    exact hback
  · intro h
    rw [RoundTrips, restored_of_small h.fits h.small, map_congr_left fun name hname =>
      restored_eq_iff.2 (h.kept name (hperm.mem_iff.1 hname)), List.map_id',
      (flatten_grouped_iff _).2 h.together]

/-- Two names of different kinds, the first with a leading zero. -/
def leadingZero : NodeList where
  names := [['n', 'o', 'd', 'e', '0', '1'], ['x', '2']]
  two_le := by decide
  nonempty := by decide
  plain := by simp

theorem leadingZero_not_roundTrips : ¬ ∀ l : NodeList, l.RoundTrips := by
  intro h
  have hback : (orteRegexCreate leadingZero.text).bind orteRegexExtractNodeNames =
      some leadingZero.names := h leadingZero
  exact absurd hback (by decide)

end NodeList

end RoundTrip

end Ulfm.Nidmap
