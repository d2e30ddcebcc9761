import Ulfm.Rbcast.Definitions
import Ulfm.Foundation.BinomialGraph

/-!
# The graph of the reliable broadcast

The processes of a communicator stand in one order, which both sides of an
inter-communicator compute alike. In this order the peers of a process are its
neighbours in the binomial graph.
-/

namespace Ulfm

open List ProcGroup Nat

/-- The groups of a communicator as the processes of the remote group have them. -/
def CommGroups.swap {P : Type} (groups : CommGroups P) : CommGroups P where
  localGroup := groups.remoteGroup
  remoteGroup := groups.localGroup
  isInter := groups.isInter
  remote_eq_local h := (groups.remote_eq_local h).symm
  disjoint h p hp hp' := groups.disjoint h p hp' hp

namespace Rbcast

section Order

variable {groups : CommGroups ProcName} {idx : ℕ} {p : ProcName}

theorem compareNameFields_swap (a b : ProcName) :
    (compareNameFields a b).swap = compareNameFields b a := by
  rw [compareNameFields, compareNameFields, Ordering.swap_then, Nat.compare_swap, Nat.compare_swap]

theorem eq_of_compareNameFields {a b : ProcName} (h : compareNameFields a b = .eq) : a = b := by
  rw [compareNameFields, Ordering.then_eq_eq, Nat.compare_eq_eq, Nat.compare_eq_eq] at h
  cases a
  cases b
  simpa using h

/-- The processes of a communicator in the order in which the broadcast numbers
them. -/
def members (groups : CommGroups ProcName) : List ProcName :=
  (lgrp groups).procs ++ (hgrp groups).procs

theorem mem_members : p ∈ members groups ↔ p ∈ groups.localGroup ∨ p ∈ groups.remoteGroup := by
  rw [members, mem_append, lgrp, hgrp]
  split_ifs with hinter hfirst
  · rfl
  · exact or_comm
  · rw [groups.remote_eq_local (by simpa using hinter)]
    simp [empty, mem_def]

theorem nodup_members (groups : CommGroups ProcName) : (members groups).Nodup := by
  rw [members, lgrp, hgrp]
  split_ifs with hinter hfirst
  · exact List.Nodup.append groups.localGroup.nodup groups.remoteGroup.nodup
      fun p hp hp' => groups.disjoint hinter p hp hp'
  · exact List.Nodup.append groups.remoteGroup.nodup groups.localGroup.nodup
      fun p hp hp' => groups.disjoint hinter p hp' hp
  · simpa [empty] using groups.localGroup.nodup

theorem size_eq_length (groups : CommGroups ProcName) : size groups = (members groups).length := by
  rw [size, members, length_append, lgrp, hgrp]
  split_ifs
  · rfl
  · exact Nat.add_comm _ _
  · rfl

theorem procOfIndex_eq (groups : CommGroups ProcName) (idx : ℕ) :
    procOfIndex groups idx = (members groups)[idx]? := by
  rw [procOfIndex, members, getElem?_append]
  rfl

theorem determineFirstAuto_swap (hinter : groups.isInter = true)
    (hlocal : groups.localGroup.procs ≠ []) (hremote : groups.remoteGroup.procs ≠ []) :
    determineFirstAuto groups.swap = !determineFirstAuto groups := by
  obtain ⟨a, l, hl⟩ := exists_cons_of_ne_nil hlocal
  obtain ⟨b, r, hr⟩ := exists_cons_of_ne_nil hremote
  have ha : groups.localGroup.peerLookup 0 = some a := by rw [peerLookup, hl]; rfl
  have hb : groups.remoteGroup.peerLookup 0 = some b := by rw [peerLookup, hr]; rfl
  -- the groups are disjoint, so that their first processes have different names
  have hne : compareNameFields a b ≠ .eq := by
    intro heq
    have hmem : a ∈ groups.localGroup := by simp [mem_def, hl]
    refine groups.disjoint hinter a hmem ?_
    rw [eq_of_compareNameFields heq]
    simp [mem_def, hr]
  have hswap := compareNameFields_swap a b
  simp only [determineFirstAuto, CommGroups.swap, ha, hb]
  rw [← hswap]
  cases h : compareNameFields a b with
  | lt => rfl
  | eq => exact absurd h hne
  | gt => rfl

theorem members_swap (hlocal : groups.localGroup.procs ≠ [])
    (hremote : groups.remoteGroup.procs ≠ []) : members groups.swap = members groups := by
  by_cases hinter : groups.isInter = true
  · have hswap := determineFirstAuto_swap hinter hlocal hremote
    have hinter' : groups.swap.isInter = true := hinter
    simp only [members, lgrp, hgrp, hinter, hinter', hswap]
    cases determineFirstAuto groups <;> rfl
  · have hinter' : ¬ groups.swap.isInter = true := hinter
    simp only [members, lgrp, hgrp, if_neg hinter, if_neg hinter']
    exact congrArg (fun g : ProcGroup ProcName => g.procs ++ empty.procs)
      (groups.remote_eq_local (by simpa using hinter))

theorem getElem?_me {comm : Comm} (h : comm.localGroup.peerLookup comm.rank = some p) :
    (members comm.toCommGroups)[comm.me]? = some p := by
  have hlt : comm.rank < comm.localGroup.procs.length := (List.getElem?_eq_some_iff.mp h).1
  simp only [members, lgrp, hgrp, Comm.me]
  split_ifs
  · rw [getElem?_append_left hlt]
    exact h
  · rw [ProcGroup.size, getElem?_append_right (Nat.le_add_left _ _), Nat.add_sub_cancel]
    exact h
  · rw [getElem?_append_left hlt]
    exact h

end Order

section Indices

variable {np me : ℕ}

theorem mem_bmgIndices {rounds i j : ℕ} :
    j ∈ bmgIndices np me rounds i ↔ ∃ k < rounds, i * 2 ^ k ≤ np / 2 ∧
      (j = (np + me + i * 2 ^ k) % np ∨ j = (np + me - i * 2 ^ k) % np) := by
  induction rounds generalizing i with
  | zero => simp [bmgIndices]
  | succ rounds ih =>
    rw [bmgIndices]
    split_ifs with h
    · rw [mem_cons, mem_cons, ih]
      constructor
      · rintro (rfl | rfl | ⟨k, hk, hle, hj⟩)
        · exact ⟨0, by omega, by simpa using h, .inl (by simp)⟩
        · exact ⟨0, by omega, by simpa using h, .inr (by simp)⟩
        · refine ⟨k + 1, by omega, ?_⟩
          rw [Nat.pow_succ', ← Nat.mul_assoc]
          exact ⟨hle, hj⟩
      · rintro ⟨k, hk, hle, hj⟩
        cases k with
        | zero =>
          rw [Nat.pow_zero, Nat.mul_one] at hj
          exact hj.imp_right .inl
        | succ k =>
          rw [Nat.pow_succ', ← Nat.mul_assoc] at hle hj
          exact .inr (.inr ⟨k, by omega, hle, hj⟩)
    · -- the later distances are larger still
      refine ⟨fun hj => absurd hj not_mem_nil, ?_⟩
      rintro ⟨k, -, hle, -⟩
      exact absurd ((Nat.le_mul_of_pos_right i (Nat.two_pow_pos k)).trans hle) h

theorem length_bmgIndices (np me rounds i : ℕ) :
    (bmgIndices np me rounds i).length = (bmgIndices np 0 rounds i).length := by
  induction rounds generalizing i with
  | zero => rfl
  | succ rounds ih =>
    rw [bmgIndices, bmgIndices]
    split_ifs
    · simp [ih]
    · rfl

theorem mem_bmgIndices_iff_offset {j : ℕ} :
    j ∈ bmgIndices np me np 1 ↔ ∃ o ∈ binomialOffsets np, j = (me + o) % np := by
  have hpow : ∀ k, 2 ^ k ≤ np / 2 ↔ k < log 2 np := by
    intro k
    rw [← succ_le_iff]
    rcases Nat.eq_zero_or_pos np with rfl | hpos
    · simp
    · rw [le_log_iff_pow_le (by decide) hpos.ne', Nat.pow_succ]
      omega
  have hback : ∀ k, 2 ^ k ≤ np / 2 → np + me - 2 ^ k = me + (np - 2 ^ k) := by
    intro k hk
    omega
  rw [mem_bmgIndices]
  simp only [Nat.one_mul]
  constructor
  · rintro ⟨k, -, hle, rfl | rfl⟩
    · refine ⟨2 ^ k, mem_binomialOffsets.mpr ⟨k, (hpow k).mp hle, .inl rfl⟩, ?_⟩
      rw [Nat.add_assoc, add_mod_left]
    · exact ⟨np - 2 ^ k, mem_binomialOffsets.mpr ⟨k, (hpow k).mp hle, .inr rfl⟩,
        by rw [hback k hle]⟩
  · rintro ⟨o, ho, rfl⟩
    obtain ⟨k, hk, rfl | rfl⟩ := mem_binomialOffsets.mp ho
    all_goals
      have hle := (hpow k).mpr hk
      have hlt : k < 2 ^ k := Nat.lt_two_pow_self
      refine ⟨k, by omega, hle, ?_⟩
    · exact .inl (by rw [Nat.add_assoc, add_mod_left])
    · exact .inr (by rw [hback k hle])

theorem card_bmgIndices (np me : ℕ) :
    (bmgIndices np me np 1).toFinset.card = (binomialOffsets np).card := by
  have himage : (bmgIndices np me np 1).toFinset =
      (binomialOffsets np).image fun o => (me + o) % np := by
    ext j
    rw [mem_toFinset, mem_bmgIndices_iff_offset, Finset.mem_image]
    exact exists_congr fun o => and_congr_right fun _ => eq_comm
  rw [himage, Finset.card_image_of_injOn]
  intro o ho o' ho' heq
  have hmod := Nat.ModEq.add_left_cancel' me (show me + o ≡ me + o' [MOD np] from heq)
  exact hmod.eq_of_lt_of_lt (binomialOffsets_lt ho) (binomialOffsets_lt ho')

end Indices

end Rbcast

end Ulfm
