import Mathlib.Data.List.Sort
import Ulfm.Group.Sparse

/-!
# The cached ranks of the acknowledged failures

A process contributes to an agreement the ranks, in the communicator, of the group
of failed processes that it has acknowledged. `era_agreement_info_set_comm`
translates the group and sorts the result, and it keeps the array with the
information of the communicator: the next call translates again only when its group
has another size. The array goes away with that information, which
`era_ci_get_clean_ags_copy` replaces when it is dirty and an earlier agreement still
refers to it.
-/

namespace Ulfm

open List

variable {P : Type} [DecidableEq P]

/-- `ompi_group_translate_ranks` for all the ranks of a dense group. -/
def translateRanks (g comm : ProcGroup P) : List ℤ := g.procs.map fun p => rankOf p comm.procs

/-- The ranks of a group in a communicator, sorted as by `qsort`. -/
def sortedRanks (g comm : ProcGroup P) : List ℤ := (translateRanks g comm).insertionSort (· ≤ ·)

/-- The part of `era_comm_agreement_specific_t` that concerns the array: `acked_ra`
with its size, whether one of the dirty bits is set, and the number of references.
`source` is history: the group that was translated. -/
structure AckedCache (P : Type) where
  ackedRa : List ℤ
  dirty : Bool
  references : ℕ
  source : List P

namespace AckedCache

/-- A new one, attached to the communicator. -/
def new : AckedCache P where
  ackedRa := []
  dirty := true
  references := 1
  source := []

/-- The array is filled again when the group has another size. -/
def refill (s : AckedCache P) (comm g : ProcGroup P) : AckedCache P :=
  if 0 < g.size ∧ g.size ≠ s.ackedRa.length then
    { s with ackedRa := sortedRanks g comm, source := g.procs }
  else s

/-- `era_ci_get_clean_ags_copy`: a dirty object with another reference is replaced by
one without the array. The agreement takes a reference, which it never gives back. -/
def getCleanAgsCopy (s : AckedCache P) : AckedCache P :=
  let s := if s.dirty ∧ 1 < s.references then { (new : AckedCache P) with dirty := s.dirty } else s
  { s with dirty := false, references := s.references + 1 }

/-- `era_agreement_info_set_comm`: the array that is handed to
`era_update_return_value`, and the information that the communicator then has. -/
def setComm (s : AckedCache P) (comm g : ProcGroup P) : List ℤ × AckedCache P :=
  let s := s.refill comm g
  (s.ackedRa.take g.size, s.getCleanAgsCopy)

end AckedCache

/-- What happens to the information of a communicator: an agreement with a group of
acknowledged failures, and a failure or a decision that marks it dirty. -/
inductive AckedAction (P : Type)
  | agree (g : ProcGroup P)
  | markDirty

namespace AckedCache

def step (comm : ProcGroup P) (s : AckedCache P) : AckedAction P → AckedCache P
  | .agree g => (s.setComm comm g).2
  | .markDirty => { s with dirty := true }

def run (comm : ProcGroup P) (acts : List (AckedAction P)) : AckedCache P :=
  acts.foldl (step comm) new

/-- The array is right for the group that filled it. -/
structure Inv (comm : ProcGroup P) (s : AckedCache P) : Prop where
  sub : ∀ p ∈ s.source, p ∈ comm
  nodup : s.source.Nodup
  ackedRa : s.ackedRa = (s.source.map fun p => rankOf p comm.procs).insertionSort (· ≤ ·)

/-- The group has the size of the one that filled the array only if it has the same
members; an empty group needs no array. -/
def Matches (s : AckedCache P) (g : ProcGroup P) : Prop :=
  g.size = 0 ∨ g.size ≠ s.source.length ∨ g.procs.Perm s.source

variable {comm g : ProcGroup P} {s : AckedCache P}

theorem Inv.new : Inv comm (new : AckedCache P) :=
  ⟨by simp [AckedCache.new], nodup_nil, by simp [AckedCache.new]⟩

theorem Inv.length_ackedRa (h : Inv comm s) : s.ackedRa.length = s.source.length := by
  rw [h.ackedRa, length_insertionSort, length_map]

theorem Inv.refill (h : Inv comm s) (hg : ∀ p ∈ g, p ∈ comm) : Inv comm (s.refill comm g) := by
  unfold AckedCache.refill
  split
  · exact ⟨hg, g.nodup, rfl⟩
  · exact h

theorem Inv.getCleanAgsCopy (h : Inv comm s) : Inv comm s.getCleanAgsCopy := by
  unfold AckedCache.getCleanAgsCopy
  dsimp only
  split
  · have hnew : Inv comm (AckedCache.new : AckedCache P) := Inv.new
    exact ⟨hnew.sub, hnew.nodup, hnew.ackedRa⟩
  · exact ⟨h.sub, h.nodup, h.ackedRa⟩

theorem Inv.step (h : Inv comm s) {a : AckedAction P}
    (ha : ∀ g, a = .agree g → ∀ p ∈ g, p ∈ comm) : Inv comm (s.step comm a) := by
  cases a with
  | agree g => exact (h.refill (ha g rfl)).getCleanAgsCopy
  | markDirty => exact ⟨h.sub, h.nodup, h.ackedRa⟩

theorem Inv.run {acts : List (AckedAction P)}
    (hacts : ∀ g, .agree g ∈ acts → ∀ p ∈ g, p ∈ comm) : Inv comm (AckedCache.run comm acts) := by
  unfold AckedCache.run
  have hnew : Inv comm (AckedCache.new : AckedCache P) := Inv.new
  generalize (AckedCache.new : AckedCache P) = s at hnew
  induction acts generalizing s with
  | nil => exact hnew
  | cons a acts ih =>
    refine ih (fun g hg => hacts g (mem_cons_of_mem _ hg)) _ (hnew.step fun g hg => ?_)
    exact hacts g (hg ▸ mem_cons_self)

/-! ### When the array is the one of the call -/

theorem rankOf_inj {l : List P} {p q : P} (hp : p ∈ l) (hq : q ∈ l)
    (h : rankOf p l = rankOf q l) : p = q := by
  rw [rankOf, if_pos hp, rankOf, if_pos hq] at h
  exact (idxOf_inj hp).1 (by exact_mod_cast h)

theorem insertionSort_ranks_eq_iff {l₁ l₂ : List P} (h₁ : ∀ p ∈ l₁, p ∈ comm)
    (h₂ : ∀ p ∈ l₂, p ∈ comm) (hn₁ : l₁.Nodup) (hn₂ : l₂.Nodup) :
    (l₁.map fun p => rankOf p comm.procs).insertionSort (· ≤ ·) =
        (l₂.map fun p => rankOf p comm.procs).insertionSort (· ≤ ·) ↔ l₁.Perm l₂ := by
  constructor
  · intro heq
    have hperm : (l₁.map fun p => rankOf p comm.procs).Perm
        (l₂.map fun p => rankOf p comm.procs) := by
      refine (perm_insertionSort (· ≤ ·) _).symm.trans ?_
      rw [heq]
      exact perm_insertionSort _ _
    have hsub : ∀ {a b : List P}, (∀ p ∈ a, p ∈ comm) → (∀ p ∈ b, p ∈ comm) →
        (a.map fun p => rankOf p comm.procs).Perm (b.map fun p => rankOf p comm.procs) →
        ∀ p ∈ a, p ∈ b := by
      intro a b ha hb hab p hp
      have hmem : rankOf p comm.procs ∈ b.map fun p => rankOf p comm.procs :=
        hab.mem_iff.1 (mem_map_of_mem hp)
      obtain ⟨q, hq, he⟩ := mem_map.1 hmem
      exact rankOf_inj (hb q hq) (ha p hp) he ▸ hq
    rw [perm_ext_iff_of_nodup hn₁ hn₂]
    exact fun p => ⟨hsub h₁ h₂ hperm p, hsub h₂ h₁ hperm.symm p⟩
  · intro hperm
    exact List.Perm.eq_of_pairwise' (pairwise_insertionSort _ _)
      (pairwise_insertionSort _ _)
      ((perm_insertionSort _ _).trans
        ((hperm.map _).trans (perm_insertionSort _ _).symm))

theorem setComm_eq_iff (h : Inv comm s) (hg : ∀ p ∈ g, p ∈ comm) :
    (s.setComm comm g).1 = sortedRanks g comm ↔ s.Matches g := by
  have hlen : (sortedRanks g comm).length = g.size := by
    rw [sortedRanks, length_insertionSort, translateRanks, length_map]
    rfl
  rw [setComm, refill, h.length_ackedRa]
  dsimp only
  by_cases hzero : g.size = 0
  · have hnil : sortedRanks g comm = [] := length_eq_zero_iff.1 (hlen.trans hzero)
    rw [if_neg (by omega), hzero, hnil]
    simp [Matches, hzero]
  · by_cases hsize : g.size = s.source.length
    · have htake : s.ackedRa.take g.size = s.ackedRa := by
        rw [hsize, ← h.length_ackedRa, take_length]
      rw [if_neg (by omega), htake, h.ackedRa, Matches]
      simp only [hsize, ne_eq, not_true_eq_false, false_or]
      rw [eq_comm, sortedRanks, translateRanks, ← hsize]
      simp only [hzero, false_or]
      exact insertionSort_ranks_eq_iff hg h.sub g.nodup h.nodup
    · rw [if_pos ⟨Nat.pos_of_ne_zero hzero, hsize⟩]
      simp only [← hlen, take_length, true_iff]
      exact .inr (.inl hsize)

end AckedCache

/-- In a sequence of agreements on a communicator, every call hands on the sorted
ranks of the group it is called with if and only if no call comes with a group that
has the size of the one that filled the array but other members. -/
theorem acked_ranks_coherent_iff (comm : ProcGroup P) (acts : List (AckedAction P))
    (hacts : ∀ g, .agree g ∈ acts → ∀ p ∈ g, p ∈ comm) :
    (∀ before g after, acts = before ++ .agree g :: after →
      ((AckedCache.run comm before).setComm comm g).1 = sortedRanks g comm) ↔
    ∀ before g after, acts = before ++ .agree g :: after →
      (AckedCache.run comm before).Matches g := by
  have hcall : ∀ before g after, acts = before ++ .agree g :: after →
      (((AckedCache.run comm before).setComm comm g).1 = sortedRanks g comm ↔
        (AckedCache.run comm before).Matches g) := by
    rintro before g after rfl
    refine AckedCache.setComm_eq_iff (AckedCache.Inv.run fun g' hg' => ?_) ?_
    · exact hacts g' (mem_append_left _ hg')
    · exact hacts g (by simp)
  exact forall_congr' fun before => forall_congr' fun g => forall_congr' fun after =>
    forall_congr' fun h => hcall before g after h

/-- Three processes: the acknowledged group grows from the first call to the second. -/
theorem acked_ranks_coherent_iff_growing :
    ((AckedCache.run (⟨[0, 1, 2], by decide⟩ : ProcGroup ℕ) [.agree ⟨[1], by decide⟩]).setComm
      ⟨[0, 1, 2], by decide⟩ ⟨[2, 1], by decide⟩).1 =
        sortedRanks (⟨[2, 1], by decide⟩ : ProcGroup ℕ) ⟨[0, 1, 2], by decide⟩ := by
  have hacts : ∀ g : ProcGroup ℕ,
      AckedAction.agree g ∈ [.agree ⟨[1], by decide⟩, .agree ⟨[2, 1], by decide⟩] →
        ∀ p ∈ g, p ∈ (⟨[0, 1, 2], by decide⟩ : ProcGroup ℕ) := by
    intro g hg p hp
    rw [ProcGroup.mem_def] at hp ⊢
    rcases mem_cons.1 hg with he | hg
    · cases he
      simp at hp ⊢
      omega
    · cases mem_singleton.1 hg
      simp at hp ⊢
      omega
  refine (acked_ranks_coherent_iff _ _ hacts).2 (fun before g after h => ?_)
    [.agree ⟨[1], by decide⟩] ⟨[2, 1], by decide⟩ [] rfl
  match before, h with
  | [], h =>
    cases h
    exact .inr (.inl (by decide))
  | [_], h =>
    cases h
    exact .inr (.inl (by decide))
  | _ :: _ :: before, h => simp at h

/-- Three processes: the second call comes with the group of process 2, and the rank
of process 1 is handed on. -/
theorem acked_ranks_of_another_group :
    ((AckedCache.run (⟨[0, 1, 2], by decide⟩ : ProcGroup ℕ) [.agree ⟨[1], by decide⟩]).setComm
        ⟨[0, 1, 2], by decide⟩ ⟨[2], by decide⟩).1 = [1] ∧
      sortedRanks (⟨[2], by decide⟩ : ProcGroup ℕ) ⟨[0, 1, 2], by decide⟩ = [2] := by
  decide

end Ulfm
