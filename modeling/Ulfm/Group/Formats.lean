import Mathlib.Data.List.Sort
import Mathlib.Data.Nat.Bitwise
import Mathlib.Tactic.Linarith
import Mathlib.Tactic.Ring
import Mathlib.Tactic.Positivity
import Ulfm.Group.Sparse

/-!
# The sparse formats hold the ranks of the parent

`SparseData.Codes data ranks m` says that the data of a sparse group stands for the list
`ranks` of ranks of a parent with `m` processes: its two translations are the lookup in
that list and the search in it. Each format that `ompi_group_incl` can choose does so.
-/

namespace Ulfm

open List

section RankOf

variable {α : Type} [DecidableEq α] {l : List α} {a : α}

theorem rankOf_of_getElem? (hl : l.Nodup) {k : Nat} (hk : l[k]? = some a) : rankOf a l = k := by
  obtain ⟨hlt, heq⟩ := List.getElem?_eq_some_iff.1 hk
  have hmem : a ∈ l := mem_of_getElem? hk
  rw [rankOf, if_pos hmem, ← heq, hl.idxOf_getElem k hlt]

theorem rankOf_of_not_mem (ha : a ∉ l) : rankOf a l = mpiUndefined := if_neg ha

end RankOf

/-- The data stands for the ranks `ranks` of a parent with `m` processes. -/
structure SparseData.Codes (data : SparseData) (ranks : List Nat) (m : Nat) : Prop where
  reverse : ∀ {k r : Nat}, ranks[k]? = some r → data.translateReverse k = some (r : ℤ)
  forward : ∀ {p : Nat}, p < m → data.translate p = some (rankOf p ranks)

theorem natCast_ne_mpiProcNull (k : Nat) : (k : ℤ) ≠ mpiProcNull := by
  rw [mpiProcNull]
  omega

section Strided

theorem checkStrideLoop_spec {s : ℤ} {a : Nat} {rest : List Nat}
    (h : checkStrideLoop s (a :: rest) ≠ -1) :
    checkStrideLoop s (a :: rest) = s ∧
      ∀ k r : Nat, (a :: rest)[k]? = some r → (r : ℤ) = a + s * k := by
  induction rest generalizing a with
  | nil =>
    refine ⟨rfl, fun k r hk => ?_⟩
    cases k with
    | zero =>
      obtain rfl : a = r := by simpa using hk
      simp
    | succ k => simp at hk
  | cons b rest ih =>
    rw [checkStrideLoop] at h ⊢
    by_cases hab : (b : ℤ) - a ≠ s
    · rw [if_pos hab] at h
      exact absurd rfl h
    · rw [if_neg hab] at h ⊢
      obtain ⟨heq, hranks⟩ := ih h
      refine ⟨heq, fun k r hk => ?_⟩
      cases k with
      | zero =>
        obtain rfl : a = r := by simpa using hk
        simp
      | succ k =>
        have hr := hranks k r (by simpa using hk)
        rw [not_not] at hab
        push_cast
        linarith

theorem checkStride_spec {a : Nat} {rest : List Nat} (hnodup : (a :: rest).Nodup)
    (h : checkStride (a :: rest) ≠ -1) :
    0 < checkStride (a :: rest) ∧
      ∀ k r : Nat, (a :: rest)[k]? = some r → (r : ℤ) = a + checkStride (a :: rest) * k := by
  cases rest with
  | nil =>
    have hone : checkStride [a] = 1 := rfl
    have hloop : checkStrideLoop 1 [a] ≠ -1 := h
    obtain ⟨-, hranks⟩ := checkStrideLoop_spec hloop
    rw [hone]
    exact ⟨Int.one_pos, hranks⟩
  | cons b rest =>
    simp only [checkStride] at h ⊢
    by_cases hneg : (b : ℤ) - a < 0
    · rw [if_pos hneg] at h
      exact absurd rfl h
    · rw [if_neg hneg] at h ⊢
      obtain ⟨heq, hranks⟩ := checkStrideLoop_spec h
      rw [heq]
      refine ⟨?_, hranks⟩
      have hne : a ≠ b := fun hab => by simp [hab] at hnodup
      omega

theorem strided_codes {ranks : List Nat} (hranks : ranks ≠ []) (hnodup : ranks.Nodup)
    (h : checkStride ranks ≠ -1) (m : Nat) :
    (SparseData.strided (checkStride ranks) (ranks.headD 0) (ranks.getLastD 0)).Codes ranks m := by
  cases ranks with
  | nil => exact absurd rfl hranks
  | cons a rest =>
    obtain ⟨hpos, hspec⟩ := checkStride_spec hnodup h
    generalize checkStride (a :: rest) = s at hpos hspec
    have hlast : (((a :: rest).getLastD 0 : Nat) : ℤ) = a + s * rest.length := by
      refine hspec rest.length _ ?_
      rw [getLastD_eq_getLast?, getLast?_eq_getElem?]
      simp
    refine ⟨fun {k r} hk => ?_, fun {p} _ => ?_⟩
    · rw [SparseData.translateReverse, if_neg (natCast_ne_mpiProcNull k), hspec k r hk]
      simp only [headD_cons, Option.some.injEq]
      ring
    · rw [SparseData.translate, if_neg (natCast_ne_mpiProcNull p)]
      simp only [SparseData.translateStrided, headD_cons, hlast, hpos.ne', if_false]
      by_cases hbelow : (p : ℤ) - a < 0
      · rw [if_pos hbelow, rankOf_of_not_mem]
        intro hmem
        obtain ⟨k, hk⟩ := mem_iff_getElem?.1 hmem
        have hp := hspec k p hk
        have hnonneg : 0 ≤ s * (k : ℤ) := by positivity
        omega
      · rw [if_neg hbelow, Int.tmod_eq_emod_of_nonneg (by omega),
          Int.tdiv_eq_ediv_of_nonneg (by omega)]
        split_ifs with hp
        · obtain ⟨hmod, hle⟩ := hp
          have hmul : s * (((p : ℤ) - a) / s) = p - a :=
            Int.mul_ediv_cancel' (Int.dvd_of_emod_eq_zero hmod)
          obtain ⟨k, hk⟩ := Int.eq_ofNat_of_zero_le
            (Int.ediv_nonneg (by omega : 0 ≤ (p : ℤ) - a) hpos.le)
          have hklt : k < (a :: rest).length := by
            have hks : s * (k : ℤ) ≤ s * rest.length := by
              rw [← hk, hmul]
              omega
            have := le_of_mul_le_mul_left hks hpos
            simp only [length_cons]
            omega
          obtain ⟨r, hr⟩ : ∃ r, (a :: rest)[k]? = some r := ⟨_, getElem?_eq_getElem hklt⟩
          have hrp : r = p := by
            have hval := hspec k r hr
            rw [← hk, hmul] at hval
            omega
          rw [hk, rankOf_of_getElem? hnodup (hrp ▸ hr)]
        · rw [rankOf_of_not_mem]
          intro hmem
          obtain ⟨k, hk⟩ := mem_iff_getElem?.1 hmem
          have hval := hspec k p hk
          have hklt : k < (a :: rest).length := (List.getElem?_eq_some_iff.1 hk).1
          have hsub : (p : ℤ) - a = s * k := by omega
          refine hp ⟨by rw [hsub, Int.mul_emod_right], ?_⟩
          have hks : s * (k : ℤ) ≤ s * rest.length := by
            refine mul_le_mul_of_nonneg_left ?_ hpos.le
            simp only [length_cons] at hklt
            omega
          omega

end Strided

section Sporadic

def sporadicRanks (list : List (Nat × Nat)) : List Nat :=
  list.flatMap fun e => (range e.2).map (e.1 + ·)

theorem sporadicRanks_cons (e : Nat × Nat) (list : List (Nat × Nat)) :
    sporadicRanks (e :: list) = (range e.2).map (e.1 + ·) ++ sporadicRanks list :=
  flatMap_cons

theorem sporadicRanks_listLoop {entry : Nat × Nat} {before : Nat} {rest : List Nat}
    (h : before + 1 = entry.1 + entry.2) :
    sporadicRanks (sporadicListLoop entry before rest) =
      (range entry.2).map (entry.1 + ·) ++ rest := by
  induction rest generalizing entry before with
  | nil => simp [sporadicListLoop, sporadicRanks]
  | cons r rest ih =>
    rw [sporadicListLoop]
    split_ifs with hr
    · rw [ih (by simp only; omega), range_succ, map_append, append_assoc]
      simp only [map_cons, map_nil, singleton_append]
      rw [hr, h]
    · rw [sporadicRanks_cons, ih (by simp only)]
      simp

theorem sporadicRanks_sporadicList (ranks : List Nat) :
    sporadicRanks (sporadicList ranks) = ranks := by
  cases ranks with
  | nil => rfl
  | cons r rest =>
    rw [sporadicList, sporadicRanks_listLoop (by simp only)]
    simp

theorem length_sporadicListLoop (entry : Nat × Nat) (before : Nat) (rest : List Nat) (l : Nat) :
    (sporadicListLoop entry before rest).length + l = sporadicLenLoop (l + 1) before rest := by
  induction rest generalizing entry before l with
  | nil =>
    rw [sporadicListLoop, sporadicLenLoop, length_singleton]
    omega
  | cons r rest ih =>
    rw [sporadicListLoop, sporadicLenLoop]
    by_cases hr : r = before + 1
    · rw [if_pos hr, if_pos (by rw [hr]; push_cast; rfl), if_neg (Nat.succ_ne_zero l), ih]
    · rw [if_neg hr, if_neg (by omega), length_cons, ← ih (r, 1) r (l + 1)]
      omega

theorem length_sporadicList (before : ℤ) {ranks : List Nat} :
    (sporadicList ranks).length = sporadicLenLoop 0 before ranks := by
  cases ranks with
  | nil => rfl
  | cons r rest =>
    rw [sporadicList, sporadicLenLoop]
    have h := length_sporadicListLoop (r, 1) r rest 0
    by_cases hr : (r : ℤ) = before + 1
    · rw [if_pos hr]
      exact h
    · rw [if_neg hr]
      exact h

theorem sum_sporadicList (list : List (Nat × Nat)) :
    (list.map (·.2)).sum = (sporadicRanks list).length := by
  simp [sporadicRanks, length_flatMap]

theorem translateSporadicReverse_eq (list : List (Nat × Nat)) (count : ℤ) {k r : Nat}
    (hk : (sporadicRanks list)[k]? = some r) :
    SparseData.translateSporadicReverse (count + k) count list = some (r : ℤ) := by
  induction list generalizing count k with
  | nil => cases hk
  | cons e list ih =>
    rw [sporadicRanks_cons] at hk
    rw [SparseData.translateSporadicReverse]
    by_cases hlt : k < e.2
    · rw [if_neg (by omega)]
      rw [getElem?_append_left (by simpa using hlt), getElem?_map, getElem?_range hlt] at hk
      obtain rfl : e.1 + k = r := by simpa using hk
      push_cast
      congr 1
      ring
    · rw [if_pos (by omega)]
      rw [getElem?_append_right (by simpa using hlt)] at hk
      have hrest := ih (count + e.2) hk
      rw [length_map, length_range] at hrest
      rw [← hrest]
      congr 1
      omega

theorem translateSporadic_eq (list : List (Nat × Nat)) (hnodup : (sporadicRanks list).Nodup)
    (count : ℤ) (p : Nat) :
    SparseData.translateSporadic p count list =
      if p ∈ sporadicRanks list then count + (sporadicRanks list).idxOf p else mpiUndefined := by
  induction list generalizing count with
  | nil => rfl
  | cons e list ih =>
    have hmem : p ∈ (List.range e.2).map (e.1 + ·) ↔ e.1 ≤ p ∧ p < e.1 + e.2 := by
      simp only [mem_map, mem_range]
      constructor
      · rintro ⟨k, hk, rfl⟩
        omega
      · exact fun h => ⟨p - e.1, by omega, by omega⟩
    rw [sporadicRanks_cons] at hnodup ⊢
    rw [SparseData.translateSporadic]
    by_cases hp : e.1 ≤ p ∧ p < e.1 + e.2
    · have hin := mem_append_left (sporadicRanks list) (hmem.2 hp)
      have hget : ((List.range e.2).map (e.1 + ·) ++ sporadicRanks list)[p - e.1]? = some p := by
        rw [getElem?_append_left (by simp; omega), getElem?_map, getElem?_range (by omega)]
        simp only [Option.map_some, Option.some.injEq]
        omega
      have hrank := rankOf_of_getElem? hnodup hget
      rw [rankOf, if_pos hin] at hrank
      rw [if_pos (by omega), if_pos hin, hrank]
      omega
    · have hnot : p ∉ (List.range e.2).map (e.1 + ·) := fun h => hp (hmem.1 h)
      rw [if_neg (by omega), ih (nodup_append.1 hnodup).2.1, idxOf_append_of_notMem hnot]
      simp only [mem_append, hnot, false_or, length_map, length_range]
      split_ifs
      · push_cast
        ring
      · rfl

theorem sporadic_codes {ranks : List Nat} (hnodup : ranks.Nodup) (m : Nat) :
    (SparseData.sporadic (sporadicList ranks)).Codes ranks m := by
  have hranks := sporadicRanks_sporadicList ranks
  refine ⟨fun {k r} hk => ?_, fun {p} _ => ?_⟩
  · rw [SparseData.translateReverse, if_neg (natCast_ne_mpiProcNull k)]
    have h := translateSporadicReverse_eq (sporadicList ranks) 0 (hranks.symm ▸ hk)
    rwa [zero_add] at h
  · rw [SparseData.translate, if_neg (natCast_ne_mpiProcNull p)]
    simp only [translateSporadic_eq _ (hranks.symm ▸ hnodup), hranks, zero_add, rankOf]

end Sporadic

section Bitmap

open SparseData

theorem bitSet_eq_testBit (array : List Nat) (p : Nat) :
    bitSet array p = (array.getD (p / bSize) 0).testBit (p % bSize) := by
  rw [bitSet, Nat.one_shiftLeft, Nat.and_two_pow]
  cases (array.getD (p / bSize) 0).testBit (p % bSize) with
  | true => simp
  | false => simp [(Nat.two_pow_pos _).ne]

theorem bitSet_modify {array : List Nat} {r : Nat} (hr : r / bSize < array.length) (p : Nat) :
    bitSet (array.modify (r / bSize) (· ||| 1 <<< (r % bSize))) p =
      (bitSet array p || decide (p = r)) := by
  rw [bitSet_eq_testBit, bitSet_eq_testBit, getD_eq_getElem?_getD, getElem?_modify,
    getD_eq_getElem?_getD]
  have hsplit : p = r ↔ r / bSize = p / bSize ∧ r % bSize = p % bSize := by
    simp only [bSize]
    omega
  by_cases hbyte : r / bSize = p / bSize
  · rw [hbyte] at hr
    simp [hbyte, hsplit, getElem?_eq_getElem hr, Nat.one_shiftLeft, Nat.testBit_two_pow]
  · simp [hbyte, hsplit]

theorem length_foldl_modify (ranks array : List Nat) :
    (ranks.foldl (fun array r => array.modify (r / bSize) (· ||| 1 <<< (r % bSize))) array).length =
      array.length := by
  induction ranks generalizing array with
  | nil => rfl
  | cons r ranks ih => rw [foldl_cons, ih, length_modify]

theorem bitSet_foldl_modify {ranks array : List Nat} (h : ∀ r ∈ ranks, r / bSize < array.length)
    (p : Nat) :
    bitSet (ranks.foldl (fun array r => array.modify (r / bSize) (· ||| 1 <<< (r % bSize))) array)
      p = (bitSet array p || decide (p ∈ ranks)) := by
  induction ranks generalizing array with
  | nil => simp
  | cons r ranks ih =>
    rw [foldl_cons, ih, bitSet_modify (h r mem_cons_self)]
    · simp [Bool.or_assoc]
    · intro s hs
      rw [length_modify]
      exact h s (mem_cons_of_mem r hs)

theorem length_bitmapArray (m : Nat) (ranks : List Nat) :
    (bitmapArray m ranks).length = groupDivCeil m bSize := by
  rw [bitmapArray, length_foldl_modify, length_replicate]

theorem le_groupDivCeil_mul (m : Nat) : m ≤ groupDivCeil m bSize * bSize := by
  rw [groupDivCeil, bSize]
  by_cases hm : m % 8 = 0
  · rw [if_pos hm]
    omega
  · rw [if_neg hm]
    omega

theorem div_lt_groupDivCeil {m r : Nat} (h : r < m) : r / bSize < groupDivCeil m bSize :=
  Nat.div_lt_of_lt_mul (Nat.mul_comm .. ▸ h.trans_le (le_groupDivCeil_mul m))

theorem bitSet_bitmapArray {m : Nat} {ranks : List Nat} (h : ∀ r ∈ ranks, r < m) (p : Nat) :
    bitSet (bitmapArray m ranks) p = decide (p ∈ ranks) := by
  rw [bitmapArray, bitSet_foldl_modify, bitSet_eq_testBit]
  · simp [getD_eq_getElem?_getD, getElem?_replicate]
    split_ifs
    · simp
    · simp
  · intro r hr
    rw [length_replicate]
    exact div_lt_groupDivCeil (h r hr)

theorem pairwise_of_checkRanks {ranks : List Nat} (h : checkRanks ranks = true)
    (hnodup : ranks.Nodup) : ranks.Pairwise (· < ·) := by
  induction ranks with
  | nil => exact List.Pairwise.nil
  | cons a rest ih =>
    cases rest with
    | nil => exact pairwise_singleton _ a
    | cons b rest =>
      rw [checkRanks] at h
      split_ifs at h with hab
      have hrest := ih h (nodup_cons.1 hnodup).2
      have hlt : a < b := by
        have hne : a ≠ b := fun heq => by simp [heq] at hnodup
        omega
      refine pairwise_cons.2 ⟨fun c hc => ?_, hrest⟩
      rcases mem_cons.1 hc with rfl | hc
      · exact hlt
      · exact hlt.trans ((pairwise_cons.1 hrest).1 c hc)

theorem filter_bitSet {m : Nat} {ranks : List Nat} (h : checkRanks ranks = true)
    (hnodup : ranks.Nodup) (hlt : ∀ r ∈ ranks, r < m) {n : Nat} (hn : m ≤ n) :
    (range n).filter (bitSet (bitmapArray m ranks)) = ranks := by
  refine List.Pairwise.eq_of_mem_iff ((pairwise_lt_range).filter _)
    (pairwise_of_checkRanks h hnodup) fun p => ?_
  rw [mem_filter, bitSet_bitmapArray hlt, decide_eq_true_eq, mem_range]
  constructor
  · exact fun hp => hp.2
  · exact fun hp => ⟨(hlt p hp).trans_le hn, hp⟩

theorem translateBmapReverse_eq (array ps : List Nat) (count : Nat) {k r : Nat}
    (hk : (ps.filter (bitSet array))[k]? = some r) :
    translateBmapReverse array ((count : ℤ) + k) count ps = some (r : ℤ) := by
  induction ps generalizing count k with
  | nil => cases hk
  | cons p ps ih =>
    rw [translateBmapReverse]
    cases hp : bitSet array p with
    | true =>
      rw [filter_cons_of_pos hp] at hk
      simp only [if_true]
      cases k with
      | zero =>
        obtain rfl : p = r := by simpa using hk
        rw [if_pos (by simp)]
      | succ k =>
        rw [if_neg (by omega)]
        have hrest := ih (count + 1) (by simpa using hk)
        push_cast at hrest ⊢
        rw [show (count : ℤ) + (k + 1) = count + 1 + k by ring]
        exact hrest
    | false =>
      rw [filter_cons_of_neg (by simp [hp])] at hk
      simp only [Bool.false_eq_true, if_false]
      rw [if_neg (by omega)]
      exact ih count hk

theorem countBits_eq (array : List Nat) (m : Nat) :
    countBits array m = ((range (m + 1)).filter (bitSet array)).length := by
  have hfold : ∀ (ps : List Nat) (count : Nat),
      ps.foldl (fun count p => if bitSet array p then count + 1 else count) count =
        count + (ps.filter (bitSet array)).length := by
    intro ps
    induction ps with
    | nil => simp
    | cons p ps ih =>
      intro count
      rw [foldl_cons, ih]
      cases hp : bitSet array p with
      | true =>
        rw [filter_cons_of_pos hp, length_cons]
        simp only [if_true]
        omega
      | false =>
        rw [filter_cons_of_neg (by simp [hp])]
        simp
  rw [countBits, hfold, zero_add]

theorem bitmap_codes {m : Nat} {ranks : List Nat} (h : checkRanks ranks = true)
    (hnodup : ranks.Nodup) (hlt : ∀ r ∈ ranks, r < m) :
    (SparseData.bitmap (bitmapArray m ranks)).Codes ranks m := by
  have hlen := length_bitmapArray m ranks
  have hcover : m ≤ (bitmapArray m ranks).length * bSize := by
    rw [hlen]
    exact le_groupDivCeil_mul m
  refine ⟨fun {k r} hk => ?_, fun {p} hp => ?_⟩
  · rw [translateReverse, if_neg (natCast_ne_mpiProcNull k)]
    rw [← filter_bitSet h hnodup hlt hcover] at hk
    have hrev := translateBmapReverse_eq (bitmapArray m ranks) _ 0 hk
    simpa using hrev
  · rw [SparseData.translate, if_neg (natCast_ne_mpiProcNull p)]
    simp only [translateBmap, Int.toNat_natCast]
    rw [if_neg (by omega), if_neg (by rw [hlen]; exact not_le.2 (div_lt_groupDivCeil hp)),
      bitSet_bitmapArray hlt]
    by_cases hmem : p ∈ ranks
    · have hbit : bitSet (bitmapArray m ranks) p = true := by
        rw [bitSet_bitmapArray hlt]
        exact decide_eq_true hmem
      -- the set bits below that of `p` come before it
      have hget : ranks[((range p).filter (bitSet (bitmapArray m ranks))).length]? = some p := by
        have hsplit : range m = range p ++ p :: (range (m - p - 1)).map (p + 1 + ·) := by
          have hm : m = p + 1 + (m - p - 1) := by omega
          conv_lhs => rw [hm, range_add, range_succ]
          simp
        have hfilter := filter_bitSet h hnodup hlt le_rfl
        rw [hsplit, filter_append, filter_cons_of_pos hbit] at hfilter
        generalize bitSet (bitmapArray m ranks) = bit at hfilter ⊢
        rw [← hfilter, getElem?_append_right le_rfl]
        simp
      rw [if_pos (decide_eq_true hmem), rankOf_of_getElem? hnodup hget, countBits_eq,
        range_succ, filter_append]
      simp [hbit]
    · rw [if_neg (by simpa using hmem), rankOf_of_not_mem hmem]

end Bitmap

end Ulfm
