import Mathlib.Data.List.TakeWhile
import Mathlib.Data.Option.NAry
import Ulfm.Cid.Redux

/-!
# The algebra of the reduction

`cid_redux_fn` on the arrays as they stand in memory: it compacts the array `out` while
it scans `in`, and leaves old epochs behind in the entries that it empties. An array in
which the empty entries trail is a finite map from context ids to epochs, next to the
leading maximum, and the function computes the meet of the two maps.
-/

namespace Ulfm

open List Option

namespace Cid

section Source

/-- `a[i]`. -/
def item (a : List Elem) (i : ℕ) : Elem := a.getD i ⟨0, 0⟩

/-- `while( n > 0 && a[n].cid == 0 ) n--`. -/
def lastUsed (a : List Elem) : ℕ → ℕ
  | 0 => 0
  | n + 1 => if (item a (n + 1)).cid = 0 then lastUsed a n else n + 1

/-- The loop over `j`, with the search of `in[1]` to `in[m]` for the context id of
`out[j]`. -/
def compactLoop (inn : List Elem) (m : ℕ) : ℕ → ℕ → ℕ → List Elem → List Elem
  | 0, _, _, out => out
  | rounds + 1, j, n, out =>
    if n < j then out
    else
      match (inn.tail.take m).find? (·.cid = (item out j).cid) with
      | some e =>
        compactLoop inn m rounds (j + 1) n <|
          out.set j { item out j with epoch := max (item out j).epoch e.epoch }
      | none =>
        compactLoop inn m rounds j (n - 1) <|
          (out.set j (item out n)).set n { item out n with cid := 0 }

/-- `cid_redux_fn`, for arrays of the same length `*dcount / 2`. -/
def cidReduxArray (inn out : List Elem) : List Elem :=
  let out :=
    if (item out 0).cid < (item inn 0).cid then
      out.set 0 { item out 0 with cid := (item inn 0).cid }
    else out
  if (item out 1).cid = 0 then out
  else if (item inn 1).cid = 0 then
    out.take 1 ++ out.tail.map fun e => { e with cid := 0 }
  else
    let n := lastUsed out (out.length - 1)
    let m := lastUsed inn (inn.length - 1)
    compactLoop inn m n 1 n out

end Source

section Loop

variable {inn avail : List Elem} {m : ℕ}

theorem item_append_cons (front : List Elem) (e : Elem) (rest : List Elem) :
    item (front ++ e :: rest) front.length = e := by
  simp [item]

theorem set_append_cons (front : List Elem) (e e' : Elem) (rest : List Elem) :
    (front ++ e :: rest).set front.length e' = front ++ e' :: rest := by
  simp

/-- The loop does to the entries `out[j]` to `out[n]` what `reduxLoop` does to a list, and
empties the ones that it frees. -/
theorem compactLoop_eq (havail : inn.tail.take m = avail) {rounds : ℕ} (n : ℕ)
    (front work : List Elem) {zeros : List Elem} (hfront : front ≠ [])
    (hrounds : work.length ≤ rounds)
    (hn : n + 1 = front.length + work.length) (hzeros : ∀ e ∈ zeros, e.cid = 0) :
    ∃ zeros', (∀ e ∈ zeros', e.cid = 0) ∧
      (reduxLoop avail rounds work).length + zeros'.length = work.length + zeros.length ∧
      compactLoop inn m rounds front.length n (front ++ (work ++ zeros)) =
        front ++ (reduxLoop avail rounds work ++ zeros') := by
  have hpos := length_pos_iff.mpr hfront
  induction rounds generalizing n front work zeros with
  | zero =>
    obtain rfl := length_eq_zero_iff.mp (Nat.le_zero.mp hrounds)
    exact ⟨zeros, hzeros, rfl, rfl⟩
  | succ rounds ih =>
    cases work with
    | nil =>
      refine ⟨zeros, hzeros, rfl, ?_⟩
      rw [length_nil] at hn
      rw [compactLoop, if_pos (by omega)]
      rfl
    | cons e work =>
      rw [length_cons] at hrounds hn
      rw [compactLoop, if_neg (by omega), cons_append, item_append_cons, havail, reduxLoop]
      cases hfind : avail.find? (·.cid = e.cid) with
      | some e' =>
        set kept : Elem := { e with epoch := max e.epoch e'.epoch }
        have hlength : (front ++ [kept]).length = front.length + 1 := by simp
        obtain ⟨zeros', hz, hlen, heq⟩ := ih n (front ++ [kept]) work
          (by simp) (by omega) (by omega) hzeros (by omega)
        refine ⟨zeros', hz, ?_, ?_⟩
        · rw [length_cons, length_cons]
          omega
        · simp only
          rw [set_append_cons]
          rw [hlength, List.append_assoc, List.append_assoc] at heq
          exact heq
      | none =>
        simp only
        rcases eq_nil_or_concat work with rfl | ⟨mid, last, rfl⟩
        · obtain rfl : n = front.length := by simpa using hn
          set emptied : Elem := { e with cid := 0 }
          have hzeros' : ∀ x ∈ emptied :: zeros, x.cid = 0 := forall_mem_cons.mpr ⟨rfl, hzeros⟩
          obtain ⟨zeros', hz, hlen, heq⟩ := ih (front.length - 1) front []
            hfront (Nat.zero_le _) (by simp; omega) hzeros' hpos
          have hnil : reduxLoop avail rounds [] = [] := by cases rounds <;> rfl
          rw [hnil] at hlen heq
          refine ⟨zeros', hz, by simpa [Nat.add_comm] using hlen, ?_⟩
          rw [nil_append, item_append_cons, set_append_cons, set_append_cons]
          exact heq
        · rw [concat_eq_append] at hrounds hn ⊢
          rw [length_append, length_singleton] at hrounds hn
          obtain rfl : n = (front ++ e :: mid).length := by simp; omega
          set emptied : Elem := { last with cid := 0 }
          have hzeros' : ∀ x ∈ emptied :: zeros, x.cid = 0 := forall_mem_cons.mpr ⟨rfl, hzeros⟩
          obtain ⟨zeros', hz, hlen, heq⟩ := ih (front.length + mid.length) front
            (last :: mid) hfront (by simpa using hrounds) (by simp; omega) hzeros' hpos
          refine ⟨zeros', hz, ?_, ?_⟩
          · simp only [getLast?_concat, dropLast_concat]
            simp only [length_cons, length_append, length_nil] at hlen ⊢
            omega
          · have hitem : item (front ++ e :: (mid ++ [last] ++ zeros))
                (front ++ e :: mid).length = last := by
              have hsplit : front ++ e :: (mid ++ [last] ++ zeros) =
                  (front ++ e :: mid) ++ last :: zeros := by simp
              rw [hsplit, item_append_cons]
            have hset : (front ++ last :: (mid ++ [last] ++ zeros)).set
                (front ++ e :: mid).length emptied =
                  front ++ last :: (mid ++ emptied :: zeros) := by
              have hsplit : front ++ last :: (mid ++ [last] ++ zeros) =
                  (front ++ last :: mid) ++ last :: zeros := by simp
              have hlength : (front ++ e :: mid).length = (front ++ last :: mid).length := by
                simp
              rw [hsplit, hlength, set_append_cons]
              simp
            have hpred : (front ++ e :: mid).length - 1 = front.length + mid.length := by
              simp
            rw [hitem, set_append_cons, hset, hpred]
            simp only [getLast?_concat, dropLast_concat]
            exact heq

theorem lastUsed_eq {head : Elem} {avail zeros : List Elem} (havail : ∀ e ∈ avail, e.cid ≠ 0)
    (hzeros : ∀ e ∈ zeros, e.cid = 0) {n : ℕ} (hge : avail.length ≤ n)
    (hle : n ≤ avail.length + zeros.length) :
    lastUsed (head :: (avail ++ zeros)) n = avail.length := by
  induction n with
  | zero => exact (Nat.le_zero.mp hge).symm
  | succ n ih =>
    have hitem : item (head :: (avail ++ zeros)) (n + 1) = item (avail ++ zeros) n := by
      simp [item]
    rw [lastUsed, hitem]
    rcases Nat.lt_or_ge n avail.length with hlt | hge'
    · have hmem : item (avail ++ zeros) n ∈ avail := by
        have hget : item (avail ++ zeros) n = avail[n] := by
          simp [item, getElem?_append_left hlt, getElem?_eq_getElem hlt]
        rw [hget]
        exact getElem_mem hlt
      rw [if_neg (havail _ hmem)]
      omega
    · have hlt : n - avail.length < zeros.length := by omega
      have hmem : item (avail ++ zeros) n ∈ zeros := by
        have hget : item (avail ++ zeros) n = zeros[n - avail.length] := by
          simp [item, getElem?_append_right hge', getElem?_eq_getElem hlt]
        rw [hget]
        exact getElem_mem hlt
      rw [if_pos (hzeros _ hmem), ih hge' (by omega)]

theorem cidReduxArray_eq (hi ho : Elem) {ai ao zi zo : List Elem} (hai : ∀ e ∈ ai, e.cid ≠ 0)
    (hao : ∀ e ∈ ao, e.cid ≠ 0) (hzi : ∀ e ∈ zi, e.cid = 0) (hzo : ∀ e ∈ zo, e.cid = 0) :
    ∃ head zeros, head.cid = max ho.cid hi.cid ∧ (∀ e ∈ zeros, e.cid = 0) ∧
      (reduxLoop ai ao.length ao).length + zeros.length = ao.length + zo.length ∧
      cidReduxArray (hi :: (ai ++ zi)) (ho :: (ao ++ zo)) =
        head :: (reduxLoop ai ao.length ao ++ zeros) := by
  obtain ⟨head, hhead, hmax⟩ : ∃ head : Elem, head.cid = max ho.cid hi.cid ∧
      (if (item (ho :: (ao ++ zo)) 0).cid < (item (hi :: (ai ++ zi)) 0).cid then
        (ho :: (ao ++ zo)).set 0 { item (ho :: (ao ++ zo)) 0 with
          cid := (item (hi :: (ai ++ zi)) 0).cid }
      else ho :: (ao ++ zo)) = head :: (ao ++ zo) := by
    change ∃ head : Elem, _ ∧ (if ho.cid < hi.cid then { ho with cid := hi.cid } :: (ao ++ zo)
      else ho :: (ao ++ zo)) = _
    by_cases hlt : ho.cid < hi.cid
    · exact ⟨{ ho with cid := hi.cid }, (Nat.max_eq_right hlt.le).symm, by rw [if_pos hlt]⟩
    · exact ⟨ho, (Nat.max_eq_left (Nat.not_lt.mp hlt)).symm, by rw [if_neg hlt]⟩
  unfold cidReduxArray
  simp only [hmax]
  have hfirst : ∀ (h : Elem) {avail zeros : List Elem}, (∀ e ∈ avail, e.cid ≠ 0) →
      (∀ e ∈ zeros, e.cid = 0) → ((item (h :: (avail ++ zeros)) 1).cid = 0 ↔ avail = []) := by
    intro h avail zeros havail hzeros
    cases avail with
    | nil =>
      refine iff_of_true ?_ rfl
      cases zeros with
      | nil => rfl
      | cons e zeros => exact hzeros e mem_cons_self
    | cons e avail => exact iff_of_false (havail e mem_cons_self) (by simp)
  rcases eq_or_ne ao [] with rfl | hao'
  · rw [if_pos ((hfirst head hao hzo).mpr rfl)]
    exact ⟨head, zo, hhead, hzo, rfl, rfl⟩
  rw [if_neg ((hfirst head hao hzo).not.mpr hao')]
  rcases eq_or_ne ai [] with rfl | hai'
  · have hnone : reduxLoop [] ao.length ao = [] := by
      refine (perm_nil.mp ((reduxLoop_perm [] le_rfl).trans ?_))
      simp [joint]
    rw [if_pos ((hfirst hi hai hzi).mpr rfl), hnone]
    refine ⟨head, (ao ++ zo).map fun e => { e with cid := 0 }, hhead, ?_, by simp, by simp⟩
    intro e he
    obtain ⟨e', -, rfl⟩ := List.mem_map.mp he
    rfl
  rw [if_neg ((hfirst hi hai hzi).not.mpr hai')]
  have hm : lastUsed (hi :: (ai ++ zi)) ((hi :: (ai ++ zi)).length - 1) = ai.length :=
    lastUsed_eq hai hzi (by simp) (by simp)
  have hn : lastUsed (head :: (ao ++ zo)) ((head :: (ao ++ zo)).length - 1) = ao.length :=
    lastUsed_eq hao hzo (by simp) (by simp)
  have htake : (hi :: (ai ++ zi)).tail.take ai.length = ai := by simp
  rw [hm, hn]
  obtain ⟨zeros, hzeros, hlength, heq⟩ := compactLoop_eq htake ao.length [head] ao
    (by simp) le_rfl (by simp; omega) hzo
  exact ⟨head, zeros, hhead, hzeros, hlength, heq⟩

end Loop

/-- What the candidates of some members say: the largest slot that was looked at, and the
context ids that are free for all of them, each with its epoch. -/
@[ext]
structure Candidates where
  first : ℕ
  epoch : ℕ → Option ℕ

namespace Candidates

/-- The context ids that both have, with the larger epochs. -/
instance : Min Candidates :=
  ⟨fun a b => ⟨max a.first b.first, fun c => map₂ max (a.epoch c) (b.epoch c)⟩⟩

theorem inf_epoch (a b : Candidates) (c : ℕ) :
    (a ⊓ b).epoch c = map₂ max (a.epoch c) (b.epoch c) := rfl

theorem inf_comm' (a b : Candidates) : a ⊓ b = b ⊓ a := by
  refine Candidates.ext (Nat.max_comm _ _) (funext fun c => ?_)
  exact map₂_comm Nat.max_comm

theorem inf_assoc' (a b c : Candidates) : a ⊓ b ⊓ c = a ⊓ (b ⊓ c) := by
  refine Candidates.ext (Nat.max_assoc _ _ _) (funext fun k => ?_)
  exact map₂_assoc Nat.max_assoc

theorem inf_self' (a : Candidates) : a ⊓ a = a := by
  refine Candidates.ext (Nat.max_self _) (funext fun c => ?_)
  rw [inf_epoch]
  cases a.epoch c with
  | none => rfl
  | some x => exact congrArg some (Nat.max_self x)

instance : SemilatticeInf Candidates := SemilatticeInf.mk' inf_comm' inf_assoc' inf_self'

end Candidates

/-- An array of the entry 0, which holds the maximum, and of `slots` entries. The context
ids in these are distinct and the empty entries trail. -/
structure CandArray (slots : ℕ) where
  entries : List Elem
  length_eq : entries.length = slots + 1
  trailing : ∀ e ∈ entries.tail.dropWhile (·.cid ≠ 0), e.cid = 0
  nodup : ((entries.tail.takeWhile (·.cid ≠ 0)).map (·.cid)).Nodup

namespace CandArray

variable {slots : ℕ}

/-- The entries from 1 on up to the first empty one. -/
def candidates (a : CandArray slots) : List Elem := a.entries.tail.takeWhile (·.cid ≠ 0)

def toCidArray (a : CandArray slots) : CidArray := ⟨(item a.entries 0).cid, a.candidates⟩

def toCandidates (a : CandArray slots) : Candidates where
  first := (item a.entries 0).cid
  epoch c := (a.candidates.find? (·.cid = c)).map (·.epoch)

theorem cid_ne_zero {a : CandArray slots} {e : Elem} (he : e ∈ a.candidates) : e.cid ≠ 0 := by
  have h := mem_takeWhile_imp he
  simpa using h

theorem entries_eq (a : CandArray slots) : ∃ head zeros, (∀ e ∈ zeros, e.cid = 0) ∧
    head.cid = (item a.entries 0).cid ∧ a.entries = head :: (a.candidates ++ zeros) := by
  obtain ⟨head, rest, heq⟩ := exists_cons_of_length_eq_add_one a.length_eq
  refine ⟨head, rest.dropWhile (·.cid ≠ 0), ?_, ?_, ?_⟩
  · have htrailing := a.trailing
    rw [heq] at htrailing
    exact htrailing
  · rw [heq]
    rfl
  · rw [candidates, heq, tail_cons, takeWhile_append_dropWhile]

theorem takeWhile_append_zeros {avail zeros : List Elem} (havail : ∀ e ∈ avail, e.cid ≠ 0)
    (hzeros : ∀ e ∈ zeros, e.cid = 0) :
    (avail ++ zeros).takeWhile (·.cid ≠ 0) = avail ∧
      (avail ++ zeros).dropWhile (·.cid ≠ 0) = zeros := by
  have hall : ∀ e ∈ avail, decide (e.cid ≠ 0) = true := fun e he => decide_eq_true (havail e he)
  rw [takeWhile_append_of_pos hall, dropWhile_append_of_pos hall]
  cases zeros with
  | nil => simp
  | cons e zeros =>
    have hzero := hzeros e mem_cons_self
    simp [hzero]

theorem redux_entries (inn out : CandArray slots) : ∃ head zeros,
    head.cid = max (item out.entries 0).cid (item inn.entries 0).cid ∧ (∀ e ∈ zeros, e.cid = 0) ∧
      (cidReduxFn inn.toCidArray out.toCidArray).avail.length + zeros.length = slots ∧
      cidReduxArray inn.entries out.entries =
        head :: ((cidReduxFn inn.toCidArray out.toCidArray).avail ++ zeros) := by
  obtain ⟨hi, zi, hzi, hhi, hinn⟩ := inn.entries_eq
  obtain ⟨ho, zo, hzo, hho, hout⟩ := out.entries_eq
  obtain ⟨head, zeros, hhead, hzeros, hlength, heq⟩ := cidReduxArray_eq hi ho
    (fun e he => inn.cid_ne_zero he) (fun e he => out.cid_ne_zero he) hzi hzo
  refine ⟨head, zeros, by rw [hhead, hho, hhi], hzeros, ?_, ?_⟩
  · have hslots := out.length_eq
    rw [hout, length_cons, length_append] at hslots
    exact hlength.trans (by omega)
  · rw [hinn, hout]
    exact heq

theorem cidReduxFn_ne_zero (inn out : CandArray slots) :
    ∀ e ∈ (cidReduxFn inn.toCidArray out.toCidArray).avail, e.cid ≠ 0 := by
  intro e he
  obtain ⟨o, ho, -, -, hcid, -⟩ := mem_cidReduxFn he
  rw [← hcid]
  exact out.cid_ne_zero ho

/-- `cid_redux_fn` keeps the shape of the array. -/
def redux (inn out : CandArray slots) : CandArray slots where
  entries := cidReduxArray inn.entries out.entries
  length_eq := by
    obtain ⟨head, zeros, -, -, hlength, heq⟩ := redux_entries inn out
    rw [heq, length_cons, length_append, hlength]
  trailing := by
    obtain ⟨head, zeros, -, hzeros, -, heq⟩ := redux_entries inn out
    rw [heq, tail_cons, (takeWhile_append_zeros (cidReduxFn_ne_zero inn out) hzeros).2]
    exact hzeros
  nodup := by
    obtain ⟨head, zeros, -, hzeros, -, heq⟩ := redux_entries inn out
    rw [heq, tail_cons, (takeWhile_append_zeros (cidReduxFn_ne_zero inn out) hzeros).1]
    exact nodup_cidReduxFn out.nodup

theorem toCidArray_redux (inn out : CandArray slots) :
    (inn.redux out).toCidArray = cidReduxFn inn.toCidArray out.toCidArray := by
  obtain ⟨head, zeros, hhead, hzeros, -, heq⟩ := redux_entries inn out
  have hfirst : (item (inn.redux out).entries 0).cid =
      max (item out.entries 0).cid (item inn.entries 0).cid := by
    change (item (cidReduxArray inn.entries out.entries) 0).cid = _
    rw [heq]
    exact hhead
  have hcandidates : (inn.redux out).candidates =
      (cidReduxFn inn.toCidArray out.toCidArray).avail := by
    change (cidReduxArray inn.entries out.entries).tail.takeWhile _ = _
    rw [heq]
    exact (takeWhile_append_zeros (cidReduxFn_ne_zero inn out) hzeros).1
  rw [toCidArray, hfirst, hcandidates]
  rfl

theorem epoch_eq_some_iff {a : CandArray slots} {c k : ℕ} :
    a.toCandidates.epoch c = some k ↔ ⟨c, k⟩ ∈ a.candidates := by
  rw [toCandidates, map_eq_some_iff]
  constructor
  · rintro ⟨e, hfind, rfl⟩
    have hcid : e.cid = c := by simpa using find?_some hfind
    exact hcid ▸ mem_of_find?_eq_some hfind
  · intro hmem
    have hsome : (a.candidates.find? (·.cid = c)).isSome := by
      rw [find?_isSome]
      exact ⟨⟨c, k⟩, hmem, by simp⟩
    obtain ⟨e, hfind⟩ := isSome_iff_exists.mp hsome
    have hcid : e.cid = c := by simpa using find?_some hfind
    refine ⟨e, hfind, ?_⟩
    rw [eq_of_cid_eq (a := a.toCidArray) a.nodup (mem_of_find?_eq_some hfind) hmem hcid]

theorem toCandidates_redux (inn out : CandArray slots) :
    (inn.redux out).toCandidates = inn.toCandidates ⊓ out.toCandidates := by
  have hview := toCidArray_redux inn out
  refine Candidates.ext ?_ (funext fun c => Option.ext fun k => ?_)
  · exact (congrArg CidArray.first hview).trans (Nat.max_comm _ _)
  · rw [epoch_eq_some_iff, Candidates.inf_epoch, map₂_eq_some_iff]
    have hcandidates : (inn.redux out).candidates =
        (cidReduxFn inn.toCidArray out.toCidArray).avail := congrArg CidArray.avail hview
    rw [hcandidates]
    constructor
    · intro hmem
      obtain ⟨o, ho, i, hi, hocid, hicid, hepoch⟩ := mem_cidReduxFn hmem
      have hic : i.cid = c := hicid
      have hoc : o.cid = c := hocid
      refine ⟨i.epoch, o.epoch, epoch_eq_some_iff.mpr ?_, epoch_eq_some_iff.mpr ?_, ?_⟩
      · rw [← hic]
        exact hi
      · rw [← hoc]
        exact ho
      · exact (Nat.max_comm _ _).trans hepoch.symm
    · rintro ⟨x, y, hx, hy, rfl⟩
      have hboth : c ∈ (cidReduxFn inn.toCidArray out.toCidArray).cids :=
        mem_cids_cidReduxFn.mpr ⟨List.mem_map_of_mem (epoch_eq_some_iff.mp hx),
          List.mem_map_of_mem (epoch_eq_some_iff.mp hy)⟩
      obtain ⟨e, he, hcid⟩ := List.mem_map.mp hboth
      obtain ⟨o, ho, i, hi, hocid, hicid, hepoch⟩ := mem_cidReduxFn he
      have hi' := eq_of_cid_eq (a := inn.toCidArray) inn.nodup hi (epoch_eq_some_iff.mp hx)
        (hicid.trans hcid)
      have ho' := eq_of_cid_eq (a := out.toCidArray) out.nodup ho (epoch_eq_some_iff.mp hy)
        (hocid.trans hcid)
      rw [hi', ho', Nat.max_comm] at hepoch
      rw [← hcid, ← hepoch]
      exact he

/-- The same maximum, and the same entries in some order. -/
def Same (a b : CandArray slots) : Prop :=
  (item a.entries 0).cid = (item b.entries 0).cid ∧ a.candidates.Perm b.candidates

theorem same_of_toCandidates_eq {a b : CandArray slots} (h : a.toCandidates = b.toCandidates) :
    Same a b := by
  refine ⟨congrArg Candidates.first h, ?_⟩
  have ha : a.candidates.Nodup := List.Nodup.of_map _ a.nodup
  have hb : b.candidates.Nodup := List.Nodup.of_map _ b.nodup
  refine (perm_ext_iff_of_nodup ha hb).mpr fun e => ?_
  rw [← epoch_eq_some_iff (c := e.cid) (k := e.epoch), h]
  exact epoch_eq_some_iff

end CandArray

open CandArray

section Algebra

variable {P : Type} {slots : ℕ}

def ReduxTree.redux (contribution : P → CandArray slots) : ReduxTree P → CandArray slots
  | .leaf p => contribution p
  | .node inn out => (inn.redux contribution).redux (out.redux contribution)

theorem ReduxTree.le_redux_iff {contribution : P → CandArray slots} {tree : ReduxTree P}
    {x : Candidates} : x ≤ (tree.redux contribution).toCandidates ↔
      ∀ p ∈ tree.leaves, x ≤ (contribution p).toCandidates := by
  induction tree with
  | leaf p => simp [ReduxTree.redux, ReduxTree.leaves]
  | node inn out ihinn ihout =>
    rw [ReduxTree.redux, toCandidates_redux, le_inf_iff, ihinn, ihout]
    exact forall_mem_append.symm

/-- `cid_redux_fn` keeps the shape of the arrays (by its type) and computes the meet of the
two maps. It is commutative, associative and idempotent up to the order of the entries,
and so every order of reducing the same contributions has the same result. -/
theorem cid_redux_algebra (slots : ℕ) :
    (∀ a b : CandArray slots, (a.redux b).toCandidates = a.toCandidates ⊓ b.toCandidates) ∧
    (∀ a b : CandArray slots, (a.redux b).Same (b.redux a)) ∧
    (∀ a b c : CandArray slots, ((a.redux b).redux c).Same (a.redux (b.redux c))) ∧
    (∀ a : CandArray slots, (a.redux a).Same a) ∧
    ∀ (P : Type) (contribution : P → CandArray slots) (tree tree' : ReduxTree P),
      (∀ p, p ∈ tree.leaves ↔ p ∈ tree'.leaves) →
        (tree.redux contribution).Same (tree'.redux contribution) := by
  refine ⟨toCandidates_redux, fun a b => ?_, fun a b c => ?_, fun a => ?_, ?_⟩
  · apply same_of_toCandidates_eq
    rw [toCandidates_redux, toCandidates_redux, inf_comm]
  · apply same_of_toCandidates_eq
    simp only [toCandidates_redux, inf_assoc]
  · apply same_of_toCandidates_eq
    rw [toCandidates_redux, inf_idem]
  · intro P contribution tree tree' hleaves
    apply same_of_toCandidates_eq
    refine eq_of_forall_le_iff fun x => ?_
    rw [ReduxTree.le_redux_iff, ReduxTree.le_redux_iff]
    exact forall_congr' fun p => by rw [hleaves p]

/-- Three members that look at three slots each. -/
def threeMembers : Fin 3 → CandArray 3
  | 0 => ⟨[⟨5, 0⟩, ⟨3, 1⟩, ⟨4, 0⟩, ⟨5, 2⟩], rfl, by decide, by decide⟩
  | 1 => ⟨[⟨7, 0⟩, ⟨4, 3⟩, ⟨3, 0⟩, ⟨0, 9⟩], rfl, by decide, by decide⟩
  | 2 => ⟨[⟨6, 0⟩, ⟨6, 0⟩, ⟨3, 2⟩, ⟨4, 1⟩], rfl, by decide, by decide⟩

theorem cid_redux_algebra_three :
    (ReduxTree.redux threeMembers (.node (.leaf 0) (.node (.leaf 1) (.leaf 2)))).Same
      (ReduxTree.redux threeMembers (.node (.node (.leaf 2) (.leaf 0)) (.leaf 1))) :=
  (cid_redux_algebra 3).2.2.2.2 (Fin 3) threeMembers _ _ (by decide)

end Algebra

end Cid

end Ulfm
