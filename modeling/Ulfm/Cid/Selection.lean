import Ulfm.Cid.Table

/-!
# Taking the minimum of the candidates

After the reduction the entries of `cid_gCIDs` that lost their candidate hold the
context id 0, and "Take the min" looks at these as well. Unless no member has lost a
candidate, the least context id is therefore 0, and the round is repeated although the
members may have candidates in common.
-/

namespace Ulfm

open List Function

namespace Cid

section Proposal

/-- What a member looks at in a round: its tables, the first slot, and how many slots
are left below `pml_max_contextid`. Slot 0 holds `MPI_COMM_WORLD`, so the first slot is
never that one. -/
structure Proposal where
  comm : ℕ
  epochs : ℕ → ℕ
  table : List (Option ℕ)
  start : ℕ
  rounds : ℕ
  start_pos : 0 < start

/-- The array `cid_lCIDs` that a member hands to the reduction. -/
def Proposal.array (size : ℕ) (m : Proposal) : CidArray :=
  let result := reserve m.comm m.epochs m.rounds m.start (size - 1) m.table
  ⟨result.2.2, result.2.1⟩

theorem length_reserve_le (comm : ℕ) (epochs : ℕ → ℕ) (rounds i need : ℕ)
    (table : List (Option ℕ)) (hneed : 1 ≤ need) :
    (reserve comm epochs rounds i need table).2.1.length ≤ need := by
  induction rounds generalizing i need table with
  | zero => exact Nat.zero_le need
  | succ rounds ih =>
    rw [reserve]
    cases slot table i with
    | some c => exact ih (i + 1) need table hneed
    | none =>
      simp only
      split_ifs with hone
      · exact hneed
      · have hrest := ih (i + 1) (need - 1)
          (FtProcess.setSlot table i (some comm)) (by omega)
        rw [length_cons]
        omega

theorem reserve_sorted (comm : ℕ) (epochs : ℕ → ℕ) (rounds i need : ℕ) (table : List (Option ℕ)) :
    ((reserve comm epochs rounds i need table).2.1.map (·.cid)).Pairwise (· < ·) := by
  induction rounds generalizing i need table with
  | zero => exact List.Pairwise.nil
  | succ rounds ih =>
    rw [reserve]
    cases slot table i with
    | some c => exact ih (i + 1) need table
    | none =>
      simp only
      split_ifs with hone
      · exact pairwise_singleton _ _
      · rw [map_cons, pairwise_cons]
        refine ⟨fun c hc => ?_, ih (i + 1) (need - 1) _⟩
        obtain ⟨e, he, rfl⟩ := mem_map.mp hc
        exact reserve_ge comm epochs rounds (i + 1) (need - 1) _ e he

namespace Proposal

variable {size : ℕ} (m : Proposal)

theorem sorted : (m.array size).cids.Pairwise (· < ·) := by
  apply reserve_sorted

theorem nodup : (m.array size).cids.Nodup := by
  apply List.Pairwise.imp _ m.sorted
  exact fun hlt => hlt.ne

theorem pos {c : ℕ} (hc : c ∈ (m.array size).cids) : 0 < c := by
  obtain ⟨e, he, rfl⟩ := mem_map.mp hc
  exact m.start_pos.trans_le (reserve_ge m.comm m.epochs m.rounds m.start (size - 1) m.table e he)

theorem length_le (hsize : 2 ≤ size) : (m.array size).cids.length ≤ size - 1 := by
  rw [CidArray.cids, length_map]
  apply length_reserve_le
  omega

end Proposal

end Proposal

section Tree

variable {P : Type}

theorem exists_tree {members : List P} (hne : members ≠ []) :
    ∃ tree : ReduxTree P, tree.leaves = members := by
  induction members with
  | nil => exact absurd rfl hne
  | cons p members ih =>
    cases members with
    | nil => exact ⟨.leaf p, rfl⟩
    | cons q members =>
      obtain ⟨tree, htree⟩ := ih (cons_ne_nil q members)
      refine ⟨.node (.leaf p) tree, ?_⟩
      rw [ReduxTree.leaves, htree]
      rfl

theorem ReduxTree.leaves_ne_nil (tree : ReduxTree P) : tree.leaves ≠ [] := by
  induction tree with
  | leaf p => exact cons_ne_nil p []
  | node inn out ihinn ihout => exact append_ne_nil_of_left_ne_nil ihinn _

theorem ReduxTree.eval_isSome (contribution : P → CidArray) (tree : ReduxTree P) :
    ∃ r, tree.eval (fun p => some (contribution p)) = some r := by
  induction tree with
  | leaf p => exact ⟨contribution p, rfl⟩
  | node inn out ihinn ihout =>
    obtain ⟨a, ha⟩ := ihinn
    obtain ⟨b, hb⟩ := ihout
    refine ⟨cidReduxFn a b, ?_⟩
    rw [ReduxTree.eval, ha, hb]

end Tree

section Selection

variable {P G : Type} [DecidableEq G] {size : ℕ} {g : G} {members : List P}
  {proposal : P → Proposal}

theorem Proc.finish_reduced {s : Proc G} {call : Call} {round : ℕ}
    (hcall : s.calls g = .reduced call round true) :
    (s.finish size g).calls g = if (takeMin (s.gCIDs.entries size)).cid = 0 then
        .waiting call s.gCIDs.first (round + 1)
      else
        .done round (some ⟨(takeMin (s.gCIDs.entries size)).cid,
          ((takeMin (s.gCIDs.entries size)).epoch + 1) % 2 ^ 32⟩) := by
  rw [Proc.finish, hcall]
  simp only [Bool.true_eq_false, if_false]
  split_ifs with hzero
  · exact update_self ..
  · exact update_self ..

/-- Whatever order the reduction combines the candidates of the members in, if it
leaves some then the call of every process that reads the result ends with the smallest
one. -/
def TakesSmallest (g : G) (size : ℕ) (members : List P) (proposal : P → Proposal) : Prop :=
  ∀ (tree : ReduxTree P) (r : CidArray) (s : Proc G) (call : Call) (round : ℕ),
    tree.leaves.Perm members →
    tree.eval (fun p => some ((proposal p).array size)) = some r →
    s.calls g = .reduced call round true → s.gCIDs = r → r.avail ≠ [] →
      ∃ next ∈ r.avail, (∀ c ∈ r.cids, next.cid ≤ c) ∧ (s.finish size g).calls g =
          .done round (some ⟨next.cid, (next.epoch + 1) % 2 ^ 32⟩)

theorem reduces_proposal {tree : ReduxTree P} {r : CidArray} (hperm : tree.leaves.Perm members)
    (heval : tree.eval (fun p => some ((proposal p).array size)) = some r) {c : ℕ} :
    r.cids.Nodup ∧ (c ∈ r.cids ↔ ∀ p ∈ members, c ∈ ((proposal p).array size).cids) := by
  have hreduces := reduces_eval (fun p _ a ha => Option.some.inj ha ▸ (proposal p).nodup) heval
  refine ⟨hreduces.nodup, ?_⟩
  rw [hreduces.mem_cids]
  constructor
  · intro h p hp
    obtain ⟨a, ha, hmem⟩ := h p (hperm.mem_iff.mpr hp)
    exact Option.some.inj ha ▸ hmem
  · exact fun h p hp => ⟨_, rfl, h p (hperm.mem_iff.mp hp)⟩

theorem takeMin_ne_zero_iff (hsize : 2 ≤ size) {tree : ReduxTree P} {r : CidArray}
    (hperm : tree.leaves.Perm members)
    (heval : tree.eval (fun p => some ((proposal p).array size)) = some r) :
    (takeMin (r.entries size)).cid ≠ 0 ↔ ∃ cids : List ℕ, cids.length = size - 1 ∧
      ∀ p ∈ members, ((proposal p).array size).cids = cids := by
  obtain ⟨first, hfirst⟩ := exists_mem_of_ne_nil _ tree.leaves_ne_nil
  rw [hperm.mem_iff] at hfirst
  have hnodup : r.cids.Nodup := (reduces_proposal (c := 0) hperm heval).1
  have hmem : ∀ c, c ∈ r.cids ↔ ∀ p ∈ members, c ∈ ((proposal p).array size).cids :=
    fun c => (reduces_proposal hperm heval).2
  have hlength : r.cids.length = r.avail.length := length_map _
  constructor
  · intro hne
    have hlen : size - 1 ≤ r.cids.length := by
      rw [hlength]
      exact le_length_of_takeMin hsize hne
    -- each member has no candidates but those that are left
    have hall : ∀ p ∈ members, r.cids.Perm ((proposal p).array size).cids := by
      intro p hp
      have hsub : r.cids.Subperm ((proposal p).array size).cids :=
        subperm_of_subset hnodup fun c hc => (hmem c).mp hc p hp
      exact hsub.perm_of_length_le (((proposal p).length_le hsize).trans hlen)
    refine ⟨((proposal first).array size).cids, ?_, fun p hp => ?_⟩
    · have hle := (proposal first).length_le hsize
      have heq := (hall first hfirst).length_eq
      omega
    · exact ((hall p hp).symm.trans (hall first hfirst)).eq_of_pairwise
        (fun a b _ _ hab hba => absurd hab hba.asymm) (proposal p).sorted (proposal first).sorted
  · rintro ⟨cids, hlen, halike⟩
    have hrcids : r.cids.Perm cids := by
      rw [← halike first hfirst]
      refine (perm_ext_iff_of_nodup hnodup (proposal first).nodup).mpr fun c => ?_
      rw [hmem]
      constructor
      · exact fun h => h first hfirst
      · intro hc p hp
        rw [halike p hp, ← halike first hfirst]
        exact hc
    have hfull : size - 1 ≤ r.avail.length := by
      have heq := hrcids.length_eq
      omega
    have htaken : (takeMin (r.entries size)).cid ∈ r.cids :=
      mem_map_of_mem (takeMin_spec hsize hfull).1
    exact ((proposal first).pos ((hmem _).mp htaken first hfirst)).ne'

/-- The smallest common candidate is taken exactly if the members have none in common or
all look at the same `cid_redux_size - 1` free slots. -/
theorem takes_smallest_iff (hsize : 2 ≤ size) : TakesSmallest g size members proposal ↔
      (∀ c, ∃ p ∈ members, c ∉ ((proposal p).array size).cids) ∨
        ∃ cids : List ℕ, cids.length = size - 1 ∧
          ∀ p ∈ members, ((proposal p).array size).cids = cids := by
  constructor
  · intro h
    by_cases hcommon : ∃ c, ∀ p ∈ members, c ∈ ((proposal p).array size).cids
    · right
      obtain ⟨c, hc⟩ := hcommon
      cases members with
      | nil => exact ⟨List.replicate (size - 1) 0, length_replicate, by simp⟩
      | cons first members =>
        obtain ⟨tree, htree⟩ := exists_tree (cons_ne_nil first members)
        obtain ⟨r, heval⟩ := tree.eval_isSome fun p => (proposal p).array size
        have hperm : tree.leaves.Perm (first :: members) := List.Perm.of_eq htree
        have hne : r.avail ≠ [] := by
          intro hnil
          have hmem := (reduces_proposal hperm heval).2.mpr hc
          rw [CidArray.cids, hnil] at hmem
          cases hmem
        let s : Proc G := ⟨[], fun _ => 0, fun _ => none, 0, [], r, r,
          fun _ => .reduced ⟨0, 0, 0⟩ 0 true, []⟩
        obtain ⟨next, -, -, hdone⟩ := h tree r s ⟨0, 0, 0⟩ 0 hperm heval rfl rfl hne
        have hcall : s.calls g = .reduced ⟨0, 0, 0⟩ 0 true := rfl
        rw [Proc.finish_reduced hcall] at hdone
        apply (takeMin_ne_zero_iff hsize hperm heval).mp
        intro hzero
        rw [if_pos hzero] at hdone
        cases hdone
    · left
      push Not at hcommon
      exact hcommon
  · rintro (hnone | halike) tree r s call round hperm heval hcall hgCIDs hne
    · obtain ⟨e, he⟩ := exists_mem_of_ne_nil _ hne
      obtain ⟨p, hp, hlost⟩ := hnone e.cid
      exact absurd ((reduces_proposal hperm heval).2.mp (mem_map_of_mem he) p hp) hlost
    · have hpos := (takeMin_ne_zero_iff hsize hperm heval).mpr halike
      obtain ⟨htaken, hmin⟩ := takeMin_spec hsize (le_length_of_takeMin hsize hpos)
      refine ⟨takeMin (r.entries size), htaken, hmin, ?_⟩
      rw [Proc.finish_reduced hcall, hgCIDs, if_neg hpos]

/-- The second and the third process have different tables and look at the slots 5, 6 and 7
both. The first has a communicator less and looks at the slots 4, 5 and 6. -/
def tables : Fin 3 → Proposal
  | 0 => ⟨0, fun _ => 0, [some 0, some 1, some 2, some 3], 4, 65531, by decide⟩
  | 1 => ⟨0, fun _ => 0, [some 0, some 1, some 2, some 3, some 4], 5, 65530, by decide⟩
  | 2 => ⟨0, fun _ => 0, [some 0, some 1, some 2, none, some 3], 5, 65530, by decide⟩

theorem takes_smallest_iff_alike : TakesSmallest () 4 [(1 : Fin 3), 2] tables :=
  (takes_smallest_iff (by decide)).mpr (.inr ⟨[5, 6, 7], rfl, by decide +kernel⟩)

/-- The first two processes have 5 and 6 in common, and try again from slot 7. -/
theorem smallest_not_taken : ¬ TakesSmallest () 4 [(0 : Fin 3), 1] tables := by
  intro h
  let tree : ReduxTree (Fin 3) := .node (.leaf 0) (.leaf 1)
  let r : CidArray := ⟨7, [⟨5, 0⟩, ⟨6, 0⟩]⟩
  let s : Proc Unit := ⟨[some 0, some 1, some 2, some 3], fun _ => 0, fun _ => none, 4, [0],
    (tables 0).array 4, r, fun _ => .reduced ⟨0, 0, 4⟩ 0 true, []⟩
  obtain ⟨next, -, -, hdone⟩ :=
    h tree r s ⟨0, 0, 4⟩ 0 (List.Perm.refl _) rfl rfl rfl (cons_ne_nil _ _)
  have hretry : (s.finish 4 ()).calls () = .waiting ⟨0, 0, 4⟩ 7 1 := rfl
  rw [hretry] at hdone
  cases hdone

end Selection

end Cid

end Ulfm
