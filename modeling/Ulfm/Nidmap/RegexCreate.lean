import Ulfm.Nidmap.Regex

/-!
# The parts of a node name

What the loop over the characters finds in a name, and the nodes that the cycle through the names
makes: one for each group of names that agree in all but their number.
-/

namespace Ulfm.Nidmap

open List Option Bool Char

section Parts

def letters (name : Name) : Name := name.takeWhile Char.isAlpha

def digits (name : Name) : Name := (name.dropWhile Char.isAlpha).takeWhile Char.isDigit

def suffix (name : Name) : Name := (name.dropWhile Char.isAlpha).dropWhile Char.isDigit

/-- What names have in common that are put together; `none` for a name that is kept as it is. -/
def nameKey (name : Name) : Option (Name × Name × ℕ) :=
  if name.all Char.isAlphanum && name.any Char.isDigit then
    some (letters name, suffix name, name.countP Char.isDigit)
  else none

def number (name : Name) : ℤ := nodenum (digits name)

def PrefixFits (name : Name) : Prop :=
  (letters name).length ≤ orteMaxNodePrefix ∧
    (nameKey name ≠ none → (letters name).length ≠ orteMaxNodePrefix)

variable {name : Name} {c : Char} {k : Name × Name × ℕ}

theorem isDigit_of_isAlpha (h : c.isAlpha = true) : c.isDigit = false := by
  have h : (decide (c.val ≥ 'A'.val ∧ c.val ≤ 'Z'.val) ||
    (decide (c.val ≥ 'a'.val) && decide (c.val ≤ 'z'.val))) = true := h
  simp only [isDigit, or_eq_true, and_eq_true, decide_eq_true_eq, and_eq_false_iff,
    decide_eq_false_iff_not] at h ⊢
  right
  intro hle
  have hle : c.val.toNat ≤ 57 := hle
  rcases h with ⟨h, -⟩ | ⟨h, -⟩
  · have h : 65 ≤ c.val.toNat := h
    omega
  · have h : 97 ≤ c.val.toNat := h
    omega

theorem parts (name : Name) : letters name ++ digits name ++ suffix name = name := by
  rw [letters, digits, suffix, append_assoc, takeWhile_append_dropWhile, takeWhile_append_dropWhile]

theorem isAlpha_letters (h : c ∈ letters name) : c.isAlpha = true := mem_takeWhile_imp h

theorem isDigit_digits (h : c ∈ digits name) : c.isDigit = true := mem_takeWhile_imp h

theorem head_suffix (h : (suffix name).head? = some c) : c.isDigit = false := by
  have hhead := head?_dropWhile_not isDigit (name.dropWhile isAlpha)
  rw [suffix] at h
  rw [h] at hhead
  simpa using hhead

theorem nameKey_eq_some (h : nameKey name = some k) :
    k = (letters name, suffix name, name.countP Char.isDigit) ∧
      (∀ c ∈ name, c.isAlphanum = true) ∧ digits name ≠ [] := by
  unfold nameKey at h
  split_ifs at h with hcond
  rw [and_eq_true, List.all_eq_true] at hcond
  refine ⟨(Option.some.inj h).symm, hcond.1, ?_⟩
  intro hempty
  obtain ⟨c, hc, hdigit⟩ := List.any_eq_true.1 hcond.2
  -- the first character that is no letter is a digit
  cases hdrop : name.dropWhile isAlpha with
  | nil =>
    have hall := dropWhile_eq_nil_iff.1 hdrop c hc
    rw [isDigit_of_isAlpha hall] at hdigit
    cases hdigit
  | cons x xs =>
    have hhead := head?_dropWhile_not isAlpha name
    rw [hdrop] at hhead
    have hmem : x ∈ name := (dropWhile_sublist _).subset (hdrop ▸ mem_cons_self)
    have hx : x.isDigit = true := by
      have halnum := hcond.1 x hmem
      rw [isAlphanum, or_eq_true] at halnum
      rcases halnum with halpha | hdig
      · simp [halpha] at hhead
      · exact hdig
    rw [digits, hdrop, takeWhile_cons, if_pos hx] at hempty
    cases hempty

theorem parts_append {p ds s : Name} (hp : ∀ c ∈ p, c.isAlpha = true)
    (hds : ∀ c ∈ ds, c.isDigit = true) (hne : ds ≠ [])
    (hs : ∀ c, s.head? = some c → c.isDigit = false) :
    letters (p ++ ds ++ s) = p ∧ digits (p ++ ds ++ s) = ds ∧ suffix (p ++ ds ++ s) = s := by
  obtain ⟨d, ds', rfl⟩ := exists_cons_of_ne_nil hne
  have hd : d.isAlpha = false := by
    by_contra h
    have := isDigit_of_isAlpha (not_eq_false _ ▸ h)
    rw [hds d mem_cons_self] at this
    cases this
  have htake : (p ++ (d :: ds' ++ s)).takeWhile isAlpha = p := by
    rw [takeWhile_append_of_pos hp, cons_append, takeWhile_cons, hd]
    exact append_nil p
  have hdrop : (p ++ (d :: ds' ++ s)).dropWhile isAlpha = d :: ds' ++ s := by
    rw [dropWhile_append_of_pos hp, cons_append, dropWhile_cons, hd]
    rfl
  have hstop : s.takeWhile isDigit = [] ∧ s.dropWhile isDigit = s := by
    cases s with
    | nil => exact ⟨rfl, rfl⟩
    | cons c s =>
      rw [takeWhile_cons, dropWhile_cons, hs c rfl]
      exact ⟨rfl, rfl⟩
  rw [append_assoc]
  refine ⟨htake, ?_, ?_⟩
  · rw [digits, hdrop, takeWhile_append_of_pos hds, hstop.1, append_nil]
  · rw [suffix, hdrop, dropWhile_append_of_pos hds, hstop.2]

theorem countP_parts (name : Name) :
    name.countP Char.isDigit = (digits name).length + (suffix name).countP Char.isDigit := by
  have hletters : (letters name).countP isDigit = 0 := by
    rw [countP_eq_zero]
    intro c hc
    rw [isDigit_of_isAlpha (isAlpha_letters hc)]
    exact Bool.false_ne_true
  have hdigits : (digits name).countP isDigit = (digits name).length :=
    countP_eq_length.2 fun c hc => isDigit_digits hc
  conv_lhs => rw [← parts name]
  rw [countP_append, countP_append, hletters, hdigits, Nat.zero_add]

end Parts

section Scan

variable {cs : Name} {i : ℕ} {scan : NameScan}

theorem scanName_nodePrefix : (scanName cs i scan).nodePrefix =
    if scan.startnum.isNone then scan.nodePrefix ++ cs.takeWhile Char.isAlpha
    else scan.nodePrefix := by
  induction cs generalizing i scan with
  | nil => simp [scanName]
  | cons c cs ih =>
    rw [scanName]
    by_cases halpha : c.isAlpha = true
    · rw [if_pos halpha, ih]
      cases hstart : scan.startnum with
      | none => simp [halpha]
      | some k => simp [hstart]
    · rw [if_neg halpha, takeWhile_cons, if_neg halpha, append_nil, ite_self]
      by_cases hdigit : c.isDigit = true
      · rw [if_pos hdigit, ih]
        cases hstart : scan.startnum with
        | none => rfl
        | some k => rfl
      · rw [if_neg hdigit]

theorem scanName_fullname :
    (scanName cs i scan).fullname = (scan.fullname || !cs.all Char.isAlphanum) := by
  induction cs generalizing i scan with
  | nil => simp [scanName]
  | cons c cs ih =>
    rw [scanName, all_cons, isAlphanum]
    by_cases halpha : c.isAlpha = true
    · rw [if_pos halpha, ih, halpha]
      cases hstart : scan.startnum with
      | none => rfl
      | some k => rfl
    · by_cases hdigit : c.isDigit = true
      · rw [if_neg halpha, if_pos hdigit, ih, hdigit, Bool.or_true]
        rfl
      · rw [if_neg halpha, if_neg hdigit, eq_false_iff.2 halpha, eq_false_iff.2 hdigit]
        simp

theorem scanName_digits (h : ∀ c ∈ cs, c.isAlphanum = true) :
    (scanName cs i scan).numDigits = scan.numDigits + cs.countP Char.isDigit ∧
    (scanName cs i scan).startnum = scan.startnum.or
      (if cs.any Char.isDigit then some (i + (cs.takeWhile Char.isAlpha).length) else none) := by
  induction cs generalizing i scan with
  | nil => simp [scanName]
  | cons c cs ih =>
    have ih := fun i scan => @ih i scan fun x hx => h x (mem_cons_of_mem _ hx)
    rw [scanName]
    by_cases halpha : c.isAlpha = true
    · have hdigit := isDigit_of_isAlpha halpha
      rw [if_pos halpha, (ih _ _).1, (ih _ _).2, countP_cons, any_cons, hdigit,
        takeWhile_cons, if_pos halpha, length_cons, Nat.add_assoc i, Nat.add_comm 1]
      cases hstart : scan.startnum with
      | none => exact ⟨rfl, rfl⟩
      | some k => exact ⟨rfl, congrArg (Option.or · _) hstart⟩
    · have hdigit : c.isDigit = true := by
        have halnum := h c mem_cons_self
        rw [isAlphanum, eq_false_iff.2 halpha] at halnum
        simpa using halnum
      rw [if_neg halpha, if_pos hdigit, (ih _ _).1, (ih _ _).2, countP_cons, any_cons,
        hdigit, takeWhile_cons, if_neg halpha]
      have hcount : scan.numDigits + 1 + cs.countP isDigit =
          scan.numDigits + (cs.countP isDigit + 1) := by omega
      cases hstart : scan.startnum with
      | none | some k => exact ⟨hcount, rfl⟩

theorem drop_letters (name : Name) :
    name.drop (letters name).length = name.dropWhile Char.isAlpha := by
  have h : letters name ++ name.dropWhile isAlpha = name := takeWhile_append_dropWhile
  calc name.drop (letters name).length
      = (letters name ++ name.dropWhile isAlpha).drop (letters name).length := by rw [h]
    _ = name.dropWhile isAlpha := drop_left

theorem addName_eq (nodeids : List RegexNode) (name : Name) : addName nodeids name =
      if orteMaxNodePrefix < (letters name).length then none
      else
        match nameKey name with
        | some (nodePrefix, suffix, numDigits) => if nodePrefix.length = orteMaxNodePrefix then none
          else some (addNumber nodePrefix suffix numDigits (number name) nodeids)
        | none => some (nodeids ++ [⟨some name, none, 0, []⟩]) := by
  have hprefix : (scanName name 0 ⟨false, none, [], 0⟩).nodePrefix = letters name := by
    rw [scanName_nodePrefix]
    rfl
  have hfull : (scanName name 0 ⟨false, none, [], 0⟩).fullname = !name.all isAlphanum := by
    rw [scanName_fullname, Bool.false_or]
  rw [addName, hprefix]
  by_cases hlong : orteMaxNodePrefix < (letters name).length
  · rw [if_pos hlong, if_pos hlong]
  · rw [if_neg hlong, if_neg hlong]
    by_cases hall : name.all isAlphanum = true
    · obtain ⟨hnum, hstart⟩ := @scanName_digits name 0 ⟨false, none, [], 0⟩
        (List.all_eq_true.1 hall)
      rw [Nat.zero_add] at hnum hstart
      by_cases hany : name.any isDigit = true
      · have hkey : nameKey name = some (letters name, suffix name, name.countP isDigit) := by
          rw [nameKey, hall, hany]
          rfl
        rw [if_pos hany] at hstart
        simp only [hfull, hall, hstart, hkey, Bool.not_true, none_or, hnum]
        change (if _ then _ else some (addNumber _ ((name.drop (letters name).length).dropWhile _) _
          (nodenum ((name.drop (letters name).length).takeWhile _)) _)) = _
        rw [drop_letters]
        rfl
      · have hkey : nameKey name = none := by
          rw [nameKey, hall, eq_false_iff.2 hany]
          rfl
        rw [if_neg hany] at hstart
        simp only [hfull, hall, hstart, hkey, Bool.not_true, none_or]
    · have hkey : nameKey name = none := by
        rw [nameKey, eq_false_iff.2 hall]
        rfl
      simp only [hfull, eq_false_iff.2 hall, hkey, Bool.not_false]

theorem addName_isSome (nodeids : List RegexNode) (name : Name) :
    (addName nodeids name).isSome ↔ PrefixFits name := by
  rw [addName_eq, PrefixFits]
  by_cases hlong : orteMaxNodePrefix < (letters name).length
  · rw [if_pos hlong]
    exact iff_of_false Bool.false_ne_true fun h => Nat.not_lt_of_le h.1 hlong
  · rw [if_neg hlong]
    cases hkey : nameKey name with
    | none => exact iff_of_true rfl ⟨Nat.le_of_not_lt hlong, fun h => absurd rfl h⟩
    | some k =>
      obtain ⟨rfl, -⟩ := nameKey_eq_some hkey
      dsimp only
      by_cases hlen : (letters name).length = orteMaxNodePrefix
      · rw [if_pos hlen]
        exact iff_of_false Bool.false_ne_true fun h => h.2 nofun hlen
      · rw [if_neg hlen]
        exact iff_of_true rfl ⟨Nat.le_of_not_lt hlong, fun _ => hlen⟩

end Scan

section Ranges

variable {rs : List Range} {n : ℤ}

def numbers (rs : List Range) : List ℤ :=
  rs.flatMap fun r => (range r.cnt).map fun i : ℕ => r.start + i

/-- The ranges of the numbers, one after the other. -/
def collect (ns : List ℤ) : List Range := ns.foldl (fun rs n => extendRanges n rs) []

theorem numbers_concat (r : Range) : numbers (rs ++ [r]) =
    numbers rs ++ (range r.cnt).map fun i : ℕ => r.start + i := by
  rw [numbers, flatMap_append, flatMap_singleton, numbers]

theorem numbers_extendRanges : numbers (extendRanges n rs) = numbers rs ++ [n] := by
  cases hlast : rs.getLast? with
  | none =>
    obtain rfl := getLast?_eq_none_iff.1 hlast
    simp [extendRanges, numbers]
  | some r =>
    obtain ⟨rs, rfl⟩ := getLast?_eq_some_iff.1 hlast
    rw [extendRanges, hlast]
    dsimp only
    split_ifs with h
    · rw [numbers_concat]
      simp
    · rw [dropLast_concat, numbers_concat, numbers_concat, range_succ, map_append, append_assoc]
      simp [not_not.1 h]

theorem cnt_extendRanges (h : ∀ r ∈ rs, 0 < r.cnt) : ∀ r ∈ extendRanges n rs, 0 < r.cnt := by
  intro r hr
  cases hlast : rs.getLast? with
  | none =>
    rw [extendRanges, hlast] at hr
    obtain rfl := mem_singleton.1 hr
    exact Nat.one_pos
  | some last =>
    rw [extendRanges, hlast] at hr
    dsimp only at hr
    split_ifs at hr
    · rcases mem_append.1 hr with hr | hr
      · exact h r hr
      · obtain rfl := mem_singleton.1 hr
        exact Nat.one_pos
    · rcases mem_append.1 hr with hr | hr
      · exact h r ((dropLast_sublist rs).subset hr)
      · obtain rfl := mem_singleton.1 hr
        exact Nat.succ_pos _

theorem collect_spec (ns : List ℤ) : numbers (collect ns) = ns ∧ ∀ r ∈ collect ns, 0 < r.cnt := by
  induction ns using reverseRecOn with
  | nil => exact ⟨rfl, fun r hr => nomatch hr⟩
  | append_singleton ns n ih =>
    rw [collect, foldl_append, foldl_cons, foldl_nil]
    exact ⟨by rw [numbers_extendRanges]; exact congrArg (· ++ [n]) ih.1, cnt_extendRanges ih.2⟩

end Ranges

section Create

variable {a : Name} {g : List Name} {gs : List (List Name)} {names : List Name}

def groupNode (g : List Name) : RegexNode :=
  match g.head?.bind nameKey with
  | some (nodePrefix, suffix, numDigits) =>
    ⟨optPrefix nodePrefix, some suffix, numDigits, collect (g.map number)⟩
  | none => ⟨g.head?, none, 0, []⟩

theorem optPrefix_inj {p q : Name} : optPrefix p = optPrefix q ↔ p = q := by
  unfold optPrefix
  split_ifs with hp hq hq
  · exact iff_of_true rfl (hp.trans hq.symm)
  · exact iff_of_false nofun fun h => hq (h ▸ hp)
  · exact iff_of_false nofun fun h => hp (h.trans hq)
  · exact some_inj

theorem groupNode_matches {p s : Name} {nd : ℕ} :
    ((groupNode g).nodePrefix = optPrefix p ∧ (groupNode g).suffix = some s ∧
      (groupNode g).numDigits = nd) ↔ g.head?.bind nameKey = some (p, s, nd) := by
  unfold groupNode
  cases hkey : g.head?.bind nameKey with
  | none => exact iff_of_false (fun h => nomatch h.2.1) nofun
  | some k => rw [optPrefix_inj, some_inj, some_inj, Prod.ext_iff, Prod.ext_iff]

theorem addNumber_groupNode {p s : Name} {nd : ℕ} (ha : nameKey a = some (p, s, nd)) :
    addNumber p s nd (number a) (gs.map groupNode) = (joinGroup nameKey a gs).map groupNode := by
  induction gs with
  | nil =>
    have hkey : [a].head?.bind nameKey = some (p, s, nd) := ha
    rw [joinGroup, map_nil, addNumber, map_singleton, groupNode, hkey]
    rfl
  | cons g gs ih =>
    rw [joinGroup, map_cons, addNumber]
    by_cases hkey : g.head?.bind nameKey = some (p, s, nd)
    · rw [if_pos (groupNode_matches.2 hkey), if_pos ⟨by rw [ha]; rfl, hkey.trans ha.symm⟩, map_cons]
      cases g with
      | nil => cases hkey
      | cons b g =>
        have hb : nameKey b = some (p, s, nd) := hkey
        simp only [groupNode, cons_append, head?_cons, bind_some, hb, collect,
          map_cons, map_append, map_nil, foldl_cons, foldl_append,
          foldl_nil]
    · rw [if_neg fun h => hkey (groupNode_matches.1 h), if_neg fun h => hkey (h.2.trans ha),
        map_cons, ih]

theorem joinGroup_none (ha : nameKey a = none) : joinGroup nameKey a gs = gs ++ [[a]] := by
  induction gs with
  | nil => rfl
  | cons g gs ih =>
    rw [joinGroup, if_neg, ih, cons_append]
    rw [ha]
    exact fun h => by cases h.1

theorem foldlM_addName (h : ∀ a ∈ names, PrefixFits a) :
    names.foldlM addName [] = some ((grouped nameKey names).map groupNode) := by
  induction names using reverseRecOn with
  | nil => rw [grouped_nil]; rfl
  | append_singleton names a ih =>
    have hfit := h a (mem_append_right _ mem_cons_self)
    rw [foldlM_append, ih fun b hb => h b (mem_append_left _ hb), grouped_concat]
    change (addName _ a >>= pure) = _
    rw [bind_pure, addName_eq, if_neg (Nat.not_lt_of_le hfit.1)]
    cases ha : nameKey a with
    | none =>
      rw [joinGroup_none ha, map_append]
      simp [groupNode, ha]
    | some k =>
      have hlen : k.1.length ≠ orteMaxNodePrefix := by
        rw [(nameKey_eq_some ha).1]
        exact hfit.2 (by rw [ha]; exact Option.some_ne_none _)
      dsimp only
      rw [if_neg hlen, addNumber_groupNode ha]

theorem prefixFits_of_foldlM {nodes : List RegexNode} (h : (names.foldlM addName nodes).isSome) :
    ∀ a ∈ names, PrefixFits a := by
  induction names generalizing nodes with
  | nil => exact fun a ha => nomatch ha
  | cons b names ih =>
    rw [foldlM_cons] at h
    intro a ha
    cases hb : addName nodes b with
    | none => rw [hb] at h; exact nomatch h
    | some nodes' =>
      rw [hb] at h
      rcases mem_cons.1 ha with rfl | ha
      · exact (addName_isSome nodes a).1 (by rw [hb]; rfl)
      · exact ih h a ha

end Create

end Ulfm.Nidmap
