import Mathlib.Data.List.Range
import Mathlib.Data.Finset.Basic

/-!
# Process groups

An `ompi_group_t` in the dense format is the array of its process pointers. The
operations of `group.c` and `group_plist.c` that the failure handling uses work
on ranks, that is on positions of that array, and compare process pointers.

A group never holds a process twice: the field `nodup` says so, and every
operation is built with the proof that it keeps it. The sparse formats are
another encoding of the same array, see `Ulfm.Group.Sparse`.
-/

namespace Ulfm

open List Function

/-- A dense `ompi_group_t`: `grp_proc_pointers`, of length `grp_proc_count`. -/
structure ProcGroup (P : Type) where
  procs : List P
  nodup : procs.Nodup

namespace ProcGroup

variable {P : Type}

instance : Membership P (ProcGroup P) := ⟨fun g p => p ∈ g.procs⟩

theorem mem_def {g : ProcGroup P} {p : P} : p ∈ g ↔ p ∈ g.procs := Iff.rfl

instance [DecidableEq P] (g : ProcGroup P) (p : P) : Decidable (p ∈ g) :=
  inferInstanceAs (Decidable (p ∈ g.procs))

/-- `MPI_GROUP_EMPTY`. -/
def empty : ProcGroup P := ⟨[], nodup_nil⟩

@[simp] theorem not_mem_empty (p : P) : p ∉ (empty : ProcGroup P) := not_mem_nil

/-- `ompi_group_size`. -/
def size (g : ProcGroup P) : Nat := g.procs.length

/-- `ompi_group_peer_lookup`: the process of a rank. -/
def peerLookup (g : ProcGroup P) (rank : Nat) : Option P := g.procs[rank]?

theorem peerLookup_inj {g : ProcGroup P} {r s : Nat} {p : P}
    (hr : g.peerLookup r = some p) (hs : g.peerLookup s = some p) : r = s := by
  have hlt : r < g.procs.length := by
    by_contra hge
    rw [peerLookup, getElem?_eq_none (not_lt.mp hge)] at hr
    cases hr
  exact (getElem?_inj hlt g.nodup).mp (hr.trans hs.symm)

theorem mem_iff_peerLookup {g : ProcGroup P} {p : P} : p ∈ g ↔ ∃ r, g.peerLookup r = some p :=
  mem_iff_getElem?

/-- `ompi_group_peer_lookup_id`: the first rank that holds the process. -/
def peerLookupId [DecidableEq P] (g : ProcGroup P) (p : P) : Option Nat := g.procs.findIdx? (· = p)

theorem peerLookupId_isSome [DecidableEq P] (g : ProcGroup P) (p : P) :
    (g.peerLookupId p).isSome ↔ p ∈ g := by
  simp [peerLookupId, mem_def, findIdx?_isSome]

theorem peerLookupId_eq_none [DecidableEq P] (g : ProcGroup P) (p : P) :
    g.peerLookupId p = none ↔ p ∉ g := by
  rw [← peerLookupId_isSome]
  cases g.peerLookupId p <;> simp

theorem peerLookup_of_peerLookupId [DecidableEq P] {g : ProcGroup P} {p : P} {r : Nat}
    (h : g.peerLookupId p = some r) : g.peerLookup r = some p := by
  rw [peerLookupId, findIdx?_eq_some_iff_getElem] at h
  obtain ⟨hlt, hp, -⟩ := h
  rw [peerLookup, getElem?_eq_getElem hlt]
  simpa using hp

/-- `ompi_group_incl_plist`: the processes of the given ranks, in their order. -/
def inclPlist (g : ProcGroup P) (ranks : List Nat) (h : ranks.Nodup) : ProcGroup P where
  procs := ranks.filterMap g.peerLookup
  nodup := h.filterMap fun _ _ _ hr hs => peerLookup_inj hr hs

theorem mem_inclPlist {g : ProcGroup P} {ranks : List Nat} {h : ranks.Nodup} {p : P} :
    p ∈ g.inclPlist ranks h ↔ ∃ r ∈ ranks, g.peerLookup r = some p := by
  simp [mem_def, inclPlist, mem_filterMap]

/-- One triplet of `ompi_group_range_incl`. -/
structure RankRange where
  first : Nat
  last : Nat
  stride : Int

/-- The ranks of one triplet: upwards from `first` while they are at most
`last`, downwards while they are at least `last`, or `first` alone. -/
def RankRange.ranks (t : RankRange) : List Nat :=
  if t.first < t.last then
    (range ((t.last - t.first) / t.stride.toNat + 1)).map
      fun k => t.first + k * t.stride.toNat
  else if t.last < t.first then
    (range ((t.first - t.last) / (-t.stride).toNat + 1)).map
      fun k => t.first - k * (-t.stride).toNat
  else [t.first]

/-- `ompi_group_range_incl`. The MPI interface rejects triplets that name a rank
twice, which is the hypothesis. -/
def rangeIncl (g : ProcGroup P) (ranges : List RankRange)
    (h : (ranges.flatMap RankRange.ranks).Nodup) : ProcGroup P :=
  g.inclPlist (ranges.flatMap RankRange.ranks) h

/-- The triplet `{0, k - 1, 1}`. -/
def upTo (k : Nat) : RankRange := ⟨0, k - 1, 1⟩

theorem ranks_upTo {k : Nat} (hk : 0 < k) : (upTo k).ranks = range k := by
  rcases Nat.lt_or_ge 1 k with h1 | h1
  · have hsub : k - 1 + 1 = k := by omega
    have hpos : 0 < k - 1 := by omega
    simp [RankRange.ranks, upTo, hpos, hsub]
  · have hone : k = 1 := by omega
    subst hone
    rfl

theorem nodup_ranks_upTo (k : Nat) : ([upTo k].flatMap RankRange.ranks).Nodup := by
  rcases Nat.eq_zero_or_pos k with h0 | hpos
  · subst h0
    simp [RankRange.ranks, upTo]
  · simp [ranks_upTo hpos, nodup_range]

theorem mem_rangeIncl_upTo {g : ProcGroup P} {k : Nat} (hk : 0 < k) {p : P} :
    p ∈ g.rangeIncl [upTo k] (nodup_ranks_upTo k) ↔ p ∈ g.procs.take k := by
  rw [rangeIncl, mem_inclPlist, mem_iff_getElem?]
  simp only [flatMap_cons, flatMap_nil, List.append_nil, ranks_upTo hk,
    mem_range, peerLookup, getElem?_take]
  constructor
  · rintro ⟨r, hr, hp⟩
    exact ⟨r, by rwa [if_pos hr]⟩
  · rintro ⟨r, hp⟩
    split at hp
    · exact ⟨r, ‹_›, hp⟩
    · cases hp

/-- `ompi_group_union`: the first group, then what the second one adds. -/
def union [DecidableEq P] (g h : ProcGroup P) : ProcGroup P where
  procs := g.procs ++ h.procs.filter (· ∉ g.procs)
  nodup := by
    refine List.Nodup.append g.nodup (h.nodup.filter _) ?_
    intro p hp hq
    simp [hp] at hq

theorem procs_union [DecidableEq P] (g h : ProcGroup P) :
    (g.union h).procs = g.procs ++ h.procs.filter (· ∉ g.procs) := rfl

theorem mem_union [DecidableEq P] {g h : ProcGroup P} {p : P} : p ∈ g.union h ↔ p ∈ g ∨ p ∈ h := by
  simp only [mem_def, procs_union, mem_append, mem_filter, decide_eq_true_eq]
  tauto

/-- The ranks of `g` whose process is also in `h` (`ranks_included`). -/
def commonRanks [DecidableEq P] (g h : ProcGroup P) : List Nat :=
  (range g.size).filter fun r => (g.peerLookup r).any (· ∈ h.procs)

theorem nodup_commonRanks [DecidableEq P] (g h : ProcGroup P) : (g.commonRanks h).Nodup :=
  nodup_range.filter _

/-- `ompi_group_intersection`. -/
def intersection [DecidableEq P] (g h : ProcGroup P) : ProcGroup P :=
  g.inclPlist (g.commonRanks h) (nodup_commonRanks g h)

theorem mem_intersection [DecidableEq P] {g h : ProcGroup P} {p : P} :
    p ∈ g.intersection h ↔ p ∈ g ∧ p ∈ h := by
  rw [intersection, mem_inclPlist]
  constructor
  · rintro ⟨r, hr, hp⟩
    rw [commonRanks, mem_filter, hp] at hr
    exact ⟨mem_iff_peerLookup.mpr ⟨r, hp⟩, by simpa [mem_def] using hr.2⟩
  · rintro ⟨hg, hh⟩
    obtain ⟨r, hp⟩ := mem_iff_peerLookup.mp hg
    refine ⟨r, ?_, hp⟩
    have hlt : r < g.size := by
      by_contra hge
      rw [peerLookup, getElem?_eq_none (not_lt.mp hge)] at hp
      cases hp
    rw [commonRanks, mem_filter, mem_range, hp]
    exact ⟨hlt, by simpa [mem_def] using hh⟩

/-- How many processes of the group satisfy a test. -/
def count (g : ProcGroup P) (test : P → Bool) : Nat := g.procs.countP test

theorem count_le_size (g : ProcGroup P) (test : P → Bool) : g.count test ≤ g.size :=
  countP_le_length

theorem count_eq_size_iff {g : ProcGroup P} {test : P → Bool} :
    g.count test = g.size ↔ ∀ p ∈ g, test p :=
  countP_eq_length

theorem count_update_of_not_mem [DecidableEq P] {g : ProcGroup P} {test : P → Bool} {p : P}
    (hp : p ∉ g) : g.count (update test p false) = g.count test := by
  refine countP_congr fun q hq => ?_
  have hne : q ≠ p := fun h => hp (h ▸ hq)
  simp [update_of_ne hne]

theorem count_update_of_mem [DecidableEq P] {g : ProcGroup P} {test : P → Bool} {p : P}
    (hp : p ∈ g) (ht : test p) :
    g.count (Function.update test p false) + 1 = g.count test := by
  obtain ⟨l, hl⟩ := g
  induction l with
  | nil => cases hp
  | cons q l ih =>
    rw [nodup_cons] at hl
    rcases mem_cons.mp hp with rfl | hmem
    · have hrest : (⟨l, hl.2⟩ : ProcGroup P).count (update test p false) =
          (⟨l, hl.2⟩ : ProcGroup P).count test := count_update_of_not_mem hl.1
      simp only [count] at hrest ⊢
      simp [ht, hrest]
    · have hne : q ≠ p := fun h => hl.1 (h ▸ hmem)
      have hrest := ih hl.2 hmem
      simp only [count] at hrest ⊢
      simp only [countP_cons, update_of_ne hne]
      omega

end ProcGroup

end Ulfm
