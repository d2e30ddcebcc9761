import Ulfm.Cid.Definitions

/-!
# The reduction of the candidates

`cid_redux_fn` keeps the candidates that both sides have, each with the larger one of
its two epochs, in some order. Therefore every order of combining the contributions
leaves the same candidates, and the members all take the same one.
-/

namespace Ulfm

open List Option

namespace Cid

variable {P : Type} {contribution : P → Option CidArray}

section Loop

/-- An entry with the larger epoch, if the other side has its context id. -/
def joint (inn : List Elem) (e : Elem) : Option Elem :=
  (inn.find? (·.cid = e.cid)).map fun e' => { e with epoch := max e.epoch e'.epoch }

theorem reduxLoop_perm (inn : List Elem) {rounds : ℕ} {out : List Elem}
    (h : out.length ≤ rounds) : (reduxLoop inn rounds out).Perm (out.filterMap (joint inn)) := by
  induction rounds generalizing out with
  | zero =>
    rw [length_eq_zero_iff.mp (Nat.le_zero.mp h)]
    exact List.Perm.refl []
  | succ rounds ih =>
    cases out with
    | nil => exact List.Perm.refl []
    | cons e out =>
      rw [length_cons] at h
      rw [reduxLoop]
      cases hfind : inn.find? (·.cid = e.cid) with
      | some e' =>
        have hjoint : joint inn e = some { e with epoch := max e.epoch e'.epoch } := by
          rw [joint, hfind, map_some]
        rw [filterMap_cons_some hjoint]
        exact (ih (by omega)).cons _
      | none =>
        have hjoint : joint inn e = none := by rw [joint, hfind, map_none]
        rw [filterMap_cons_none hjoint]
        -- the last entry takes the place of the one that is dropped
        rcases eq_nil_or_concat out with rfl | ⟨front, last, rfl⟩
        · exact List.Perm.refl []
        · rw [concat_eq_append] at h ⊢
          simp only [getLast?_concat, dropLast_concat]
          refine (ih ?_).trans ((perm_append_singleton last front).symm.filterMap _)
          rw [length_append, length_singleton] at h
          rw [length_cons]
          omega

end Loop

section Tree

def CidArray.cids (a : CidArray) : List ℕ := a.avail.map (·.cid)

theorem eq_of_cid_eq {a : CidArray} (hnodup : a.cids.Nodup) {e e' : Elem} (he : e ∈ a.avail)
    (he' : e' ∈ a.avail) (h : e.cid = e'.cid) : e = e' :=
  inj_on_of_nodup_map hnodup he he' h

/-- What a reduction over some processes leaves: the candidates of all of them, each
with its largest epoch. -/
structure Reduces (contribution : P → Option CidArray) (procs : List P) (r : CidArray) :
    Prop where
  nodup : r.cids.Nodup
  mem_cids : ∀ c, c ∈ r.cids ↔ ∀ p ∈ procs, ∃ a, contribution p = some a ∧ c ∈ a.cids
  epoch_le : ∀ e ∈ r.avail, ∀ p ∈ procs, ∀ a, contribution p = some a → ∀ e' ∈ a.avail,
    e'.cid = e.cid → e'.epoch ≤ e.epoch
  attained : ∀ e ∈ r.avail, ∃ p ∈ procs, ∃ a, contribution p = some a ∧ e ∈ a.avail

theorem mem_cidReduxFn {a b : CidArray} {e : Elem} (h : e ∈ (cidReduxFn a b).avail) :
    ∃ o ∈ b.avail, ∃ i ∈ a.avail, o.cid = e.cid ∧ i.cid = e.cid ∧
      e.epoch = max o.epoch i.epoch := by
  obtain ⟨o, ho, hjoint⟩ := mem_filterMap.mp ((reduxLoop_perm a.avail le_rfl).mem_iff.mp h)
  rw [joint, map_eq_some_iff] at hjoint
  obtain ⟨i, hfind, rfl⟩ := hjoint
  refine ⟨o, ho, i, mem_of_find?_eq_some hfind, rfl, ?_, rfl⟩
  simpa using find?_some hfind

theorem mem_cids_cidReduxFn {a b : CidArray} {c : ℕ} :
    c ∈ (cidReduxFn a b).cids ↔ c ∈ a.cids ∧ c ∈ b.cids := by
  simp only [CidArray.cids, List.mem_map]
  constructor
  · rintro ⟨e, he, rfl⟩
    obtain ⟨o, ho, i, hi, hocid, hicid, -⟩ := mem_cidReduxFn he
    exact ⟨⟨i, hi, hicid⟩, ⟨o, ho, hocid⟩⟩
  · rintro ⟨⟨i, hi, hcid⟩, ⟨o, ho, rfl⟩⟩
    have hsome : (a.avail.find? (·.cid = o.cid)).isSome := by
      rw [find?_isSome]
      exact ⟨i, hi, by simpa using hcid⟩
    obtain ⟨i', hfind⟩ := isSome_iff_exists.mp hsome
    refine ⟨{ o with epoch := max o.epoch i'.epoch }, ?_, rfl⟩
    refine (reduxLoop_perm a.avail le_rfl).mem_iff.mpr (mem_filterMap.mpr ⟨o, ho, ?_⟩)
    rw [joint, hfind, map_some]

theorem nodup_cidReduxFn {a b : CidArray} (h : b.cids.Nodup) : (cidReduxFn a b).cids.Nodup := by
  have hperm : (cidReduxFn a b).cids.Perm ((b.avail.filterMap (joint a.avail)).map (·.cid)) :=
    (reduxLoop_perm a.avail le_rfl).map _
  rw [hperm.nodup_iff, map_filterMap]
  refine List.Nodup.sublist ?_ h
  -- the entries that are kept keep their context id
  rw [CidArray.cids, ← filterMap_eq_map]
  clear h hperm
  induction b.avail with
  | nil => exact List.Sublist.refl []
  | cons e out ih =>
    rw [filterMap_cons_some (show (some ∘ Elem.cid) e = some e.cid from rfl)]
    cases hjoint : joint a.avail e with
    | none => rw [filterMap_cons_none (by rw [hjoint]; rfl)]; exact ih.cons _
    | some e' =>
      have hcid : e'.cid = e.cid := by
        rw [joint, map_eq_some_iff] at hjoint
        obtain ⟨i, -, rfl⟩ := hjoint
        rfl
      rw [filterMap_cons_some (by rw [hjoint, map_some, hcid])]
      exact ih.cons_cons _

theorem Reduces.node {a b : CidArray} {l₁ l₂ : List P} (ha : Reduces contribution l₁ a)
    (hb : Reduces contribution l₂ b) : Reduces contribution (l₁ ++ l₂) (cidReduxFn a b) where
  nodup := nodup_cidReduxFn hb.nodup
  mem_cids c := by
    rw [mem_cids_cidReduxFn, ha.mem_cids, hb.mem_cids]
    exact forall_mem_append.symm
  epoch_le e he p hp arr harr e' he' hcid := by
    obtain ⟨o, ho, i, hi, hocid, hicid, hepoch⟩ := mem_cidReduxFn he
    rw [hepoch]
    rcases mem_append.mp hp with hp | hp
    · exact (ha.epoch_le i hi p hp arr harr e' he' (hcid.trans hicid.symm)).trans (le_max_right _ _)
    · exact (hb.epoch_le o ho p hp arr harr e' he' (hcid.trans hocid.symm)).trans (le_max_left _ _)
  attained e he := by
    obtain ⟨o, ho, i, hi, hocid, hicid, hepoch⟩ := mem_cidReduxFn he
    rcases max_choice o.epoch i.epoch with hmax | hmax
    · obtain ⟨p, hp, arr, harr, hmem⟩ := hb.attained o ho
      have heq : e = o := by
        cases e
        cases o
        simp_all
      exact ⟨p, mem_append_right l₁ hp, arr, harr, heq ▸ hmem⟩
    · obtain ⟨p, hp, arr, harr, hmem⟩ := ha.attained i hi
      have heq : e = i := by
        cases e
        cases i
        simp_all
      exact ⟨p, mem_append_left l₂ hp, arr, harr, heq ▸ hmem⟩

theorem reduces_eval {tree : ReduxTree P} {r : CidArray}
    (hnodup : ∀ p ∈ tree.leaves, ∀ a, contribution p = some a → a.cids.Nodup)
    (h : tree.eval contribution = some r) : Reduces contribution tree.leaves r := by
  induction tree generalizing r with
  | leaf p =>
    have hp : contribution p = some r := h
    refine ⟨hnodup p (mem_singleton_self p) r hp, fun c => ?_, ?_, ?_⟩
    · simp [ReduxTree.leaves, hp]
    · intro e he q hq a ha e' he' hcid
      obtain rfl := mem_singleton.mp hq
      obtain rfl := Option.some.inj (hp.symm.trans ha)
      rw [eq_of_cid_eq (hnodup q hq r hp) he' he hcid]
    · exact fun e he => ⟨p, mem_singleton_self p, r, hp, he⟩
  | node inn out ihinn ihout =>
    rw [ReduxTree.eval] at h
    cases hinn : inn.eval contribution with
    | none => simp [hinn] at h
    | some a =>
      cases hout : out.eval contribution with
      | none => simp [hinn, hout] at h
      | some b =>
        simp only [hinn, hout, some_inj] at h
        subst h
        exact (ihinn (fun p hp => hnodup p (mem_append_left _ hp)) hinn).node
          (ihout (fun p hp => hnodup p (mem_append_right _ hp)) hout)

end Tree

section Min

theorem takeMin_foldl (entries : List Elem) (best : Elem) :
    entries.foldl (fun best e => if e.cid < best.cid then e else best) best ∈ best :: entries ∧
      ∀ e ∈ best :: entries,
        (entries.foldl (fun best e => if e.cid < best.cid then e else best) best).cid ≤ e.cid := by
  induction entries generalizing best with
  | nil => simp
  | cons x entries ih =>
    rw [foldl_cons]
    split_ifs with hlt
    · obtain ⟨hmem, hmin⟩ := ih x
      refine ⟨mem_cons_of_mem best hmem, fun e he => ?_⟩
      rcases mem_cons.mp he with rfl | he
      · exact (hmin x mem_cons_self).trans hlt.le
      · exact hmin e he
    · obtain ⟨hmem, hmin⟩ := ih best
      refine ⟨?_, fun e he => ?_⟩
      · rcases mem_cons.mp hmem with heq | hmem
        · rw [heq]
          exact mem_cons_self
        · exact mem_cons_of_mem _ (mem_cons_of_mem _ hmem)
      · rcases mem_cons.mp he with rfl | he
        · exact hmin e mem_cons_self
        · rcases mem_cons.mp he with rfl | he
          · exact (hmin best mem_cons_self).trans (Nat.not_lt.mp hlt)
          · exact hmin e (mem_cons_of_mem _ he)

variable {size : ℕ} {r r' : CidArray}

theorem takeMin_entries (hsize : 2 ≤ size) : takeMin (r.entries size) ∈ r.entries size ∧
      ∀ e ∈ r.entries size, (takeMin (r.entries size)).cid ≤ e.cid := by
  cases hentries : r.entries size with
  | nil =>
    have hlen := congrArg List.length hentries
    simp only [CidArray.entries, length_append, length_replicate, length_nil] at hlen
    omega
  | cons e entries => exact takeMin_foldl entries e

theorem le_length_of_takeMin (hsize : 2 ≤ size) (h : (takeMin (r.entries size)).cid ≠ 0) :
    size - 1 ≤ r.avail.length := by
  by_contra hlt
  refine h (Nat.le_zero.mp ((takeMin_entries hsize).2 ⟨0, 0⟩ (mem_append_right _ ?_)))
  rw [mem_replicate]
  exact ⟨by omega, rfl⟩

theorem takeMin_spec (hsize : 2 ≤ size) (hlen : size - 1 ≤ r.avail.length) :
    takeMin (r.entries size) ∈ r.avail ∧ ∀ c ∈ r.cids, (takeMin (r.entries size)).cid ≤ c := by
  obtain ⟨hmem, hmin⟩ := takeMin_entries (r := r) hsize
  rw [CidArray.entries, mem_append, mem_replicate] at hmem
  refine ⟨hmem.resolve_right fun hpad => hpad.1 (by omega), fun c hc => ?_⟩
  obtain ⟨e, he, rfl⟩ := List.mem_map.mp hc
  exact hmin e (mem_append_left _ he)

theorem Reduces.cids_perm {l l' : List P} (h : Reduces contribution l r)
    (h' : Reduces contribution l' r') (hl : ∀ p, p ∈ l ↔ p ∈ l') : r.cids.Perm r'.cids := by
  refine (perm_ext_iff_of_nodup h.nodup h'.nodup).mpr fun c => ?_
  rw [h.mem_cids, h'.mem_cids]
  exact forall_congr' fun p => by rw [hl p]

theorem Reduces.takeMin_eq {l l' : List P} (hsize : 2 ≤ size) (h : Reduces contribution l r)
    (h' : Reduces contribution l' r') (hl : ∀ p, p ∈ l ↔ p ∈ l')
    (hne : (takeMin (r.entries size)).cid ≠ 0) :
    takeMin (r'.entries size) = takeMin (r.entries size) := by
  have hperm := h.cids_perm h' hl
  have hlen := le_length_of_takeMin hsize hne
  have hlen' : size - 1 ≤ r'.avail.length := by
    have heq := hperm.length_eq
    rw [CidArray.cids, CidArray.cids, length_map, length_map] at heq
    omega
  obtain ⟨hmem, hmin⟩ := takeMin_spec hsize hlen
  obtain ⟨hmem', hmin'⟩ := takeMin_spec hsize hlen'
  have hcid : (takeMin (r'.entries size)).cid = (takeMin (r.entries size)).cid :=
    le_antisymm (hmin' _ (hperm.mem_iff.mp (List.mem_map_of_mem hmem)))
      (hmin _ (hperm.mem_iff.mpr (List.mem_map_of_mem hmem')))
  -- each of the two epochs is the largest one of the contributions
  obtain ⟨p, hp, a, ha, hattained⟩ := h.attained _ hmem
  obtain ⟨p', hp', a', ha', hattained'⟩ := h'.attained _ hmem'
  have hepoch : (takeMin (r'.entries size)).epoch = (takeMin (r.entries size)).epoch :=
    le_antisymm (h.epoch_le _ hmem p' ((hl p').mpr hp') a' ha' _ hattained' hcid)
      (h'.epoch_le _ hmem' p ((hl p).mp hp) a ha _ hattained hcid.symm)
  generalize takeMin (r'.entries size) = e' at hcid hepoch ⊢
  generalize takeMin (r.entries size) = e at hcid hepoch ⊢
  cases e
  cases e'
  simp_all

end Min

end Cid

end Ulfm
