import Ulfm.Comm.Definitions
import Ulfm.Group.Equivalence

/-!
# The ranks of a colour

The ranks that `ompi_comm_split` sorts are those with its colour, ordered by their keys and,
where these are equal, by themselves. There is one group of processes in this order.
-/

namespace Ulfm

open List Option ProcGroup

section Ranks

variable {results : List (ℤ × ℤ)} {color : ℤ} {r : ℕ} {k : ℤ}

/-- The order of `rankkeycompare`. -/
def KeyBefore (a b : ℕ × ℤ) : Prop := a.2 < b.2 ∨ a.2 = b.2 ∧ a.1 < b.1

theorem rankkeycompare_nonpos_iff {a b : ℕ × ℤ} :
    rankkeycompare a b ≤ 0 ↔ KeyBefore a b ∨ a = b := by
  obtain ⟨r, k⟩ := a
  obtain ⟨s, l⟩ := b
  rw [Prod.mk.injEq]
  unfold rankkeycompare KeyBefore
  dsimp only
  split_ifs <;> omega

instance : Std.Total fun a b : ℕ × ℤ => rankkeycompare a b ≤ 0 where
  total := by
    rintro ⟨r, k⟩ ⟨s, l⟩
    rw [rankkeycompare_nonpos_iff, rankkeycompare_nonpos_iff, Prod.mk.injEq, Prod.mk.injEq]
    unfold KeyBefore
    dsimp only
    omega

instance : IsTrans (ℕ × ℤ) fun a b => rankkeycompare a b ≤ 0 where
  trans := by
    rintro ⟨r, k⟩ ⟨s, l⟩ ⟨t, m⟩
    rw [rankkeycompare_nonpos_iff, rankkeycompare_nonpos_iff, rankkeycompare_nonpos_iff,
      Prod.mk.injEq, Prod.mk.injEq, Prod.mk.injEq]
    unfold KeyBefore
    dsimp only
    omega

theorem mem_sameColor : (r, k) ∈ sameColor results color ↔ results[r]? = some (color, k) := by
  rw [sameColor, mem_filterMap]
  constructor
  · rintro ⟨⟨⟨c, k'⟩, i⟩, hmem, hi⟩
    dsimp only at hi
    split_ifs at hi with hc
    obtain ⟨rfl, rfl⟩ := Prod.mk.inj (Option.some.inj hi)
    rw [← hc]
    exact mem_zipIdx_iff_getElem?.1 hmem
  · intro hr
    exact ⟨((color, k), r), mem_zipIdx_iff_getElem?.2 hr, if_pos rfl⟩

theorem sameColor_increasing : (sameColor results color).Pairwise fun a b => a.1 < b.1 := by
  have hzip : results.zipIdx.Pairwise fun a b => a.2 < b.2 := by
    rw [← pairwise_map, zipIdx_map_snd]
    exact pairwise_lt_range'
  rw [sameColor, pairwise_filterMap]
  apply hzip.imp
  rintro ⟨⟨c, k⟩, i⟩ ⟨⟨d, l⟩, j⟩ hij a ha b hb
  dsimp only at ha hb
  split_ifs at ha hb
  obtain rfl := some.inj ha
  obtain rfl := some.inj hb
  exact hij

/-- The pairs as they are after `qsort`. -/
def sortedColor (results : List (ℤ × ℤ)) (color : ℤ) : List (ℕ × ℤ) :=
  (sameColor results color).insertionSort fun a b => rankkeycompare a b ≤ 0

theorem splitRanks_eq : splitRanks results color = (sortedColor results color).map (·.1) := by
  have hsort : ∀ l : List (ℕ × ℤ), (if 1 < l.length then
      l.insertionSort fun a b => rankkeycompare a b ≤ 0 else l) =
      l.insertionSort fun a b => rankkeycompare a b ≤ 0 := by
    intro l
    cases l with
    | nil => rfl
    | cons a l =>
      cases l with
      | nil => rfl
      | cons b l => exact if_pos (Nat.succ_lt_succ (Nat.succ_pos l.length))
  exact congrArg _ (hsort _)

theorem mem_sortedColor : (r, k) ∈ sortedColor results color ↔ results[r]? = some (color, k) := by
  rw [sortedColor, mem_insertionSort]
  exact mem_sameColor

theorem sortedColor_perm : (sortedColor results color).Perm (sameColor results color) :=
  perm_insertionSort _ _

theorem sortedColor_ordered : (sortedColor results color).Pairwise KeyBefore := by
  have hsorted := pairwise_insertionSort (fun a b => rankkeycompare a b ≤ 0)
    (sameColor results color)
  have hnodup : (sortedColor results color).Nodup :=
    sortedColor_perm.nodup_iff.2
      (sameColor_increasing.imp fun hlt heq => hlt.ne (congrArg Prod.fst heq))
  exact hsorted.imp₂ (fun a b hle hne => (rankkeycompare_nonpos_iff.1 hle).resolve_right hne) hnodup

theorem mem_splitRanks : r ∈ splitRanks results color ↔ ∃ k, results[r]? = some (color, k) := by
  rw [splitRanks_eq, List.mem_map]
  constructor
  · rintro ⟨⟨r, k⟩, hmem, rfl⟩
    exact ⟨k, mem_sortedColor.1 hmem⟩
  · rintro ⟨k, hr⟩
    exact ⟨(r, k), mem_sortedColor.2 hr, rfl⟩

theorem nodup_splitRanks (results : List (ℤ × ℤ)) (color : ℤ) :
    (splitRanks results color).Nodup := by
  rw [splitRanks_eq, (sortedColor_perm.map _).nodup_iff, List.Nodup, pairwise_map]
  exact sameColor_increasing.imp ne_of_lt

theorem splitRanks_ordered :
    (splitRanks results color).Pairwise fun r s => ∀ k l, results[r]? = some (color, k) →
      results[s]? = some (color, l) → KeyBefore (r, k) (s, l) := by
  rw [splitRanks_eq, pairwise_map]
  apply sortedColor_ordered.imp_of_mem
  rintro ⟨r, k⟩ ⟨s, l⟩ hr hs hbefore k' l' hk hl
  have hk' := (mem_sortedColor.1 hr).symm.trans hk
  have hl' := (mem_sortedColor.1 hs).symm.trans hl
  obtain ⟨-, rfl⟩ := Prod.mk.inj (Option.some.inj hk')
  obtain ⟨-, rfl⟩ := Prod.mk.inj (Option.some.inj hl')
  exact hbefore

example : splitRanks [(1, 5), (0, 2), (1, 3), (1, 3)] 1 = [2, 3, 0] := by decide

end Ranks

section Members

variable {P : Type} {g m m' : ProcGroup P} {color key : P → ℤ} {c : ℤ} {p : P}

/-- The colours and keys of a group, as an allgather gives them. -/
def ProcGroup.infos (g : ProcGroup P) (color key : P → ℤ) : List (ℤ × ℤ) :=
  g.procs.map fun q => (color q, key q)

theorem getElem?_infos {r : ℕ} {k : ℤ} : (g.infos color key)[r]? = some (c, k) ↔
    ∃ q, g.peerLookup r = some q ∧ color q = c ∧ key q = k := by
  rw [infos, getElem?_map, map_eq_some_iff]
  simp only [Prod.mk.injEq]
  rfl

/-- The group of the processes with a colour. -/
def ProcGroup.withColor (g : ProcGroup P) (color key : P → ℤ) (c : ℤ) : ProcGroup P :=
  g.inclPlist (splitRanks (g.infos color key) c) (nodup_splitRanks _ _)

theorem lt_size_of_mem_splitRanks {r : ℕ} (h : r ∈ splitRanks (g.infos color key) c) :
    r < g.size := by
  obtain ⟨k, hk⟩ := mem_splitRanks.1 h
  obtain ⟨q, hq, -⟩ := getElem?_infos.1 hk
  exact lt_size_of_peerLookup hq

theorem mem_withColor : p ∈ g.withColor color key c ↔ p ∈ g ∧ color p = c := by
  rw [withColor, mem_inclPlist, mem_iff_peerLookup]
  constructor
  · rintro ⟨r, hr, hp⟩
    obtain ⟨k, hk⟩ := mem_splitRanks.1 hr
    obtain ⟨q, hq, hcolor, -⟩ := getElem?_infos.1 hk
    obtain rfl := some.inj (hq.symm.trans hp)
    exact ⟨⟨r, hp⟩, hcolor⟩
  · rintro ⟨⟨r, hp⟩, hcolor⟩
    exact ⟨r, mem_splitRanks.2 ⟨key p, getElem?_infos.2 ⟨p, hp, hcolor, rfl⟩⟩, hp⟩

variable [DecidableEq P]

/-- The processes of a colour, in the order of their keys and, where these are equal, of
their old ranks. -/
structure SplitOf (g : ProcGroup P) (color key : P → ℤ) (c : ℤ) (m : ProcGroup P) : Prop where
  mem : ∀ p, p ∈ m ↔ p ∈ g ∧ color p = c
  order : m.procs.Pairwise fun p q =>
    key p < key q ∨ key p = key q ∧ rankOf p g.procs < rankOf q g.procs

theorem SplitOf.unique (h : SplitOf g color key c m) (h' : SplitOf g color key c m') : m = m' := by
  obtain ⟨procs, hnodup⟩ := m
  obtain ⟨procs', hnodup'⟩ := m'
  have hmem : ∀ p, p ∈ procs ↔ p ∈ procs' := fun p => (h.mem p).trans (h'.mem p).symm
  have hprocs : procs = procs' := by
    apply List.Perm.eq_of_pairwise _ h.order h'.order
    · rw [perm_ext_iff_of_nodup hnodup hnodup']
      exact hmem
    · intro p q _ _ hpq hqp
      omega
  subst hprocs
  rfl

theorem splitOf_withColor : SplitOf g color key c (g.withColor color key c) := by
  refine ⟨fun p => mem_withColor, ?_⟩
  change (filterMap g.peerLookup _).Pairwise _
  rw [pairwise_filterMap]
  apply splitRanks_ordered.imp_of_mem
  intro r s hr hs hbefore p hp q hq
  obtain ⟨k, hk⟩ := mem_splitRanks.1 hr
  obtain ⟨l, hl⟩ := mem_splitRanks.1 hs
  obtain ⟨p', hp', -, rfl⟩ := getElem?_infos.1 hk
  obtain ⟨q', hq', -, rfl⟩ := getElem?_infos.1 hl
  obtain rfl := some.inj (hp'.symm.trans hp)
  obtain rfl := some.inj (hq'.symm.trans hq)
  rw [rankOf_eq_of_peerLookup hp, rankOf_eq_of_peerLookup hq, Nat.cast_lt]
  exact hbefore _ _ hk hl

theorem idxOf_withColor : (g.withColor color key c).procs.map g.procs.idxOf =
    splitRanks (g.infos color key) c := by
  change (filterMap g.peerLookup _).map _ = _
  rw [map_filterMap]
  calc filterMap (fun r => (g.peerLookup r).map g.procs.idxOf)
        (splitRanks (g.infos color key) c) =
      filterMap some (splitRanks (g.infos color key) c) := by
        apply filterMap_congr
        intro r hr
        obtain ⟨p, hp⟩ := peerLookup_eq_some_of_lt (lt_size_of_mem_splitRanks hr)
        obtain ⟨hlt, rfl⟩ := List.getElem?_eq_some_iff.1 hp
        rw [hp, map_some, g.nodup.idxOf_getElem]
    _ = splitRanks (g.infos color key) c := filterMap_some

end Members

end Ulfm
