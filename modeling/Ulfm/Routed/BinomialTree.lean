import Ulfm.Foundation.HighBit
import Ulfm.Foundation.Outcome
import Ulfm.Routed.Binomial

/-!
# What the search in the binomial tree finds

The search from the root finds the nearest live daemon above `me`. The children that it gives are
the live daemons below `me` with no other one in between, and the bits that it sets are those of all
the live daemons below.
-/

namespace Ulfm

open List Nat InSubtree

namespace Routed

namespace Binomial

variable {n rank parent me c i : ℕ} {k : Procs} {live : ℕ → Prop} {mine : Bool}

/-- The daemons that are not live have been started and are known to be dead. -/
structure Knows (n : ℕ) (k : Procs) (live : ℕ → Prop) : Prop where
  live_zero : live 0
  live_lt : ∀ {v : ℕ}, live v → v < n
  running : ∀ {v : ℕ}, v < n → (k.isRunning v = true ↔ live v)
  epoch : ∀ {v : ℕ}, v < n → ¬live v → 0 < k.epoch v ∧ k.epoch v ≠ invalid

theorem Knows.dead_iff (h : Knows n k live) (hc : c < n) : k.dead c = true ↔ ¬live c := by
  rw [Procs.dead, Bool.and_eq_true, Bool.not_eq_true', ← Bool.not_eq_true, h.running hc,
    decide_eq_true_eq]
  exact ⟨And.left, fun hdead => ⟨hdead, (h.epoch hc hdead).1⟩⟩

theorem Knows.dead_cond (h : Knows n k live) (hc : c < n) :
    (k.dead c = true ∧ k.epoch c ≠ invalid) ↔ ¬live c := by
  rw [h.dead_iff hc]
  exact ⟨And.left, fun hdead => ⟨hdead, (h.epoch hc hdead).2⟩⟩

section Peers

theorem le_two_pow_cubeDim (n : ℕ) : n ≤ 2 ^ cubeDim n := by
  rw [cubeDim]
  split_ifs with h
  · exact h
  · have := lt_size_self (n - 1)
    omega

theorem size_le_cubeDim (hc : c < n) : c.size ≤ cubeDim n :=
  size_le.2 (hc.trans_le (le_two_pow_cubeDim n))

theorem peersOf_eq (hrank : rank < n) :
    peersOf n rank = ((range' rank.size (cubeDim n - rank.size)).map fun i =>
      rank + 2 ^ i).filter (· < n) := by
  have hmask : rank &&& ((1 <<< cubeDim n) - 1) = rank := by
    rw [one_shiftLeft, and_two_pow_sub_one_eq_mod,
      mod_eq_of_lt (hrank.trans_le (le_two_pow_cubeDim n))]
  have hmap : ∀ i ∈ List.range' rank.size (cubeDim n - rank.size),
      rank ||| (1 <<< i) = rank + 2 ^ i := by
    intro i hi
    have hlt : rank < 2 ^ i := size_le.1 (mem_range'_1.1 hi).1
    have hor := two_pow_add_eq_or_of_lt hlt 1
    rw [mul_one] at hor
    rw [one_shiftLeft, Nat.or_comm, ← hor, Nat.add_comm]
  simp only [peersOf, hibitSucc, hmask]
  rw [map_congr_left hmap]

theorem mem_peersOf (hrank : rank < n) :
    c ∈ peersOf n rank ↔ c ≠ 0 ∧ c < n ∧ binParent c = rank := by
  rw [peersOf_eq hrank, mem_filter, mem_map]
  simp only [mem_range'_1, decide_eq_true_eq]
  constructor
  · rintro ⟨⟨i, hi, rfl⟩, hc⟩
    have hpos := Nat.two_pow_pos i
    exact ⟨by omega, hc, binParent_add_two_pow hi.1⟩
  · rintro ⟨hne, hc, rfl⟩
    obtain ⟨i, hi, hsize, heq⟩ := exists_bit hne
    have hdim := size_le_cubeDim hc
    exact ⟨⟨i, ⟨hi, by omega⟩, heq.symm⟩, hc⟩

theorem nodup_peersOf (hrank : rank < n) : (peersOf n rank).Nodup := by
  rw [peersOf_eq hrank]
  refine List.Nodup.filter _ (List.Nodup.map (fun i j hij => ?_) (nodup_range' 1))
  exact Nat.pow_right_injective (le_refl 2) (Nat.add_left_cancel hij)

theorem size_lt_of_mem (hrank : rank < n) (hc : c ∈ peersOf n rank) : rank.size < c.size := by
  obtain ⟨hne, -, rfl⟩ := (mem_peersOf hrank).1 hc
  exact size_binParent_lt hne

theorem inSubtree_of_mem (hrank : rank < n) (hc : c ∈ peersOf n rank) : InSubtree rank c := by
  obtain ⟨-, -, rfl⟩ := (mem_peersOf hrank).1 hc
  exact .parent_self c

end Peers

section Search

variable {visit : ℕ → Option Output}

theorem searchLoop_notFound {l : List ℕ} (h : ∀ c ∈ l, visit c = some ⟨-1, [], []⟩) :
    searchLoop k parent visit l = some ⟨-1, [], []⟩ := by
  induction l with
  | nil => rfl
  | cons c l ih =>
    rw [searchLoop, h c mem_cons_self]
    simp only [Option.bind_eq_bind, Option.bind_some]
    rw [if_neg (by decide), ih fun c' hc' => h c' (mem_cons_of_mem _ hc')]
    rfl

theorem searchLoop_found {l : List ℕ} (hc : c ∈ l) (hnodup : l.Nodup)
    (h : ∀ c' ∈ l, c' ≠ c → visit c' = some ⟨-1, [], []⟩)
    (hfound : ∀ out, visit c = some out → 0 ≤ out.found) :
    searchLoop k parent visit l = (visit c).map fun out =>
      if k.dead out.found.toNat then { out with found := parent } else out := by
  induction l with
  | nil => exact absurd hc not_mem_nil
  | cons c' l ih =>
    rw [nodup_cons] at hnodup
    rw [searchLoop]
    by_cases heq : c' = c
    · subst heq
      cases hvisit : visit c' with
      | none => rfl
      | some out =>
        simp only [Option.bind_eq_bind, Option.bind_some, Option.map_some]
        rw [if_pos (hfound out hvisit)]
        split_ifs <;> rfl
    · have hmem : c ∈ l := (mem_cons.1 hc).resolve_left (Ne.symm heq)
      rw [h c' mem_cons_self heq]
      simp only [Option.bind_eq_bind, Option.bind_some]
      rw [if_neg (by decide), ih hmem hnodup.2 fun c'' hc'' => h c'' (mem_cons_of_mem _ hc'')]
      cases visit c <;> rfl

theorem binomialTree_notFound (fuel : ℕ) (hrank : rank < n) (hsub : ¬InSubtree rank me)
    (hfuel : cubeDim n < rank.size + fuel) :
    binomialTree n k fuel rank parent me mine = some ⟨-1, [], []⟩ := by
  induction fuel generalizing rank parent with
  | zero =>
    have := size_le_cubeDim hrank
    omega
  | succ fuel ih =>
    have hne : me ≠ rank := by
      rintro rfl
      exact hsub (.refl me)
    rw [binomialTree, if_neg hne]
    refine searchLoop_notFound fun c hc => ?_
    have hsize := size_lt_of_mem hrank hc
    refine ih ((mem_peersOf hrank).1 hc).2.1 (fun h => hsub ?_) (by omega)
    exact (inSubtree_of_mem hrank hc).trans h

end Search

section Own

/-- What the loop at `me` does for a peer. -/
def peerOutput (n : ℕ) (k : Procs) (fuel : ℕ) (mine : Bool) (peer : ℕ) :
    Option (List Child × List ℕ) := do
  if k.dead peer ∧ k.epoch peer ≠ invalid then
    let inherited ← binomialTree n k fuel 0 0 peer mine
    let out ← binomialTree n k fuel 0 0 peer false
    some (inherited.children ++ out.children, inherited.bits ++ out.bits)
  else
    let out ← binomialTree n k fuel 0 0 peer false
    if mine then some (⟨peer, out.bits⟩ :: out.children, [])
    else some (out.children, peer :: out.bits)

/-- What the search does at `me`. -/
def ownTree (n : ℕ) (k : Procs) (fuel me : ℕ) (mine : Bool) : Option (List Child × List ℕ) :=
  ((peersOf n me).mapM (peerOutput n k fuel mine)).map fun outs =>
    (outs.flatMap (·.1), outs.flatMap (·.2))

theorem binomialTree_self (fuel : ℕ) : binomialTree n k (fuel + 1) me parent me mine =
    (ownTree n k fuel me mine).map fun x => ⟨parent, x.1, x.2⟩ := by
  rw [binomialTree, if_pos rfl, ownTree, Option.map_map]
  change ((peersOf n me).mapM (peerOutput n k fuel mine)).bind _ = _
  cases (peersOf n me).mapM (peerOutput n k fuel mine) <;> rfl

variable [DecidablePred live]

/-- The search from a daemon above `me` ends at `me`, and finds the nearest live daemon above `me`
if that is not above the start of the search. -/
theorem Knows.binomialTree_search (h : Knows n k live) (fuel : ℕ) (hrank : rank < n) (hme : me < n)
    (hsub : InSubtree rank me) (hfuel : cubeDim n < rank.size + fuel) :
    ∃ f, fuel ≤ f + 1 + (me.size - rank.size) ∧ binomialTree n k fuel rank parent me mine =
      (ownTree n k f me mine).map fun x => ⟨if me ≠ 0 ∧ InSubtree rank (liveParent live me) then
        liveParent live me else parent, x.1, x.2⟩ := by
  induction fuel generalizing rank parent with
  | zero =>
    have := size_le_cubeDim hrank
    omega
  | succ fuel ih =>
    by_cases heq : me = rank
    · subst heq
      refine ⟨fuel, by omega, ?_⟩
      have hnot : ¬(me ≠ 0 ∧ InSubtree me (liveParent live me)) := by
        rintro ⟨hne, hle⟩
        exact absurd hle.le (not_le.2 (liveParent_lt h.live_zero hne))
      rw [binomialTree_self, if_neg hnot]
    · have hme0 : me ≠ 0 := by
        rintro rfl
        exact heq (le_zero.1 hsub.le).symm
      obtain ⟨hlive, -, hnear⟩ := liveParent_spec h.live_zero hme0
      have hlp := liveParent_inSubtree h.live_zero hme0
      set lp := liveParent live me with hlpdef
      obtain ⟨c, hc0, hcr, hcm⟩ := hsub.exists_child (Ne.symm heq)
      have hcn : c < n := hcm.le.trans_lt hme
      have hc : c ∈ peersOf n rank := (mem_peersOf hrank).2 ⟨hc0, hcn, hcr⟩
      have hsize := size_lt_of_mem hrank hc
      have hcsize := hcm.size_le
      -- the other children are not above `me`
      have hothers : ∀ c' ∈ peersOf n rank, c' ≠ c →
          binomialTree n k fuel c' rank me mine = some ⟨-1, [], []⟩ := by
        intro c' hc' hne
        obtain ⟨hc0', hcn', hcr'⟩ := (mem_peersOf hrank).1 hc'
        have hsize' := size_lt_of_mem hrank hc'
        refine binomialTree_notFound fuel hcn' (fun hcm' => hne ?_) (by omega)
        exact child_unique hc0' hc0 (hcr'.trans hcr.symm) hcm' hcm
      obtain ⟨f, hf, hvisit⟩ : ∃ f, _ ∧ binomialTree n k fuel c rank me mine = _ :=
        ih hcn hcm (by omega)
      have hbelow : InSubtree rank lp → lp ≠ rank → InSubtree c lp := by
        intro hrl hne
        obtain ⟨c', hc0', hcr', hcl⟩ := hrl.exists_child hne.symm
        rwa [child_unique hc0 hc0' (hcr.trans hcr'.symm) hcm (hcl.trans hlp)]
      refine ⟨f, by omega, ?_⟩
      rw [binomialTree, if_neg heq, searchLoop_found hc (nodup_peersOf hrank) hothers]
      · rw [hvisit, Option.map_map]
        refine congrArg (fun g => (ownTree n k f me mine).map g) (funext fun x => ?_)
        simp only [Function.comp_apply, hme0, ne_eq, not_false_eq_true, true_and]
        by_cases hcl : InSubtree c lp
        · have hrl : InSubtree rank lp := (inSubtree_of_mem hrank hc).trans hcl
          have hlpn : lp < n := h.live_lt hlive
          rw [if_pos hcl, if_pos hrl, Int.toNat_natCast, if_neg]
          rw [h.dead_iff hlpn]
          exact not_not.2 hlive
        · rw [if_neg hcl, Int.toNat_natCast]
          by_cases hr : live rank
          · have hrl : InSubtree rank lp := hnear rank hr hsub (Ne.symm heq)
            have hlr : lp = rank := by
              by_contra hne
              exact hcl (hbelow hrl hne)
            rw [if_neg (by rw [h.dead_iff hrank]; exact not_not.2 hr), if_pos hrl, hlr]
          · have hrl : ¬InSubtree rank lp := by
              intro hrl
              refine hcl (hbelow hrl ?_)
              rintro heq'
              exact hr (heq' ▸ hlive)
            rw [if_pos ((h.dead_iff hrank).2 hr), if_neg hrl]
      · intro out hout
        rw [hvisit] at hout
        obtain ⟨x, -, rfl⟩ := Option.map_eq_some_iff.1 hout
        simp only
        split_ifs <;> exact Int.natCast_nonneg _

/-- The fuel that is needed below a daemon. -/
def belowFuel (n me : ℕ) : ℕ := (cubeDim n + 1) * (cubeDim n - me.size)

theorem Knows.binomialTree_peer (h : Knows n k live) {fuel : ℕ} (hme : me < n)
    (hc : c ∈ peersOf n me) (hfuel : belowFuel n me ≤ fuel) (mine : Bool) :
    ∃ f, belowFuel n c ≤ f ∧ binomialTree n k fuel 0 0 c mine =
      (ownTree n k f c mine).map fun x => ⟨liveParent live c, x.1, x.2⟩ := by
  obtain ⟨hc0, hcn, -⟩ := (mem_peersOf hme).1 hc
  have hsize := size_lt_of_mem hme hc
  have hdim := size_le_cubeDim hcn
  have hmul : (cubeDim n + 1) * (cubeDim n - c.size + 1) ≤ belowFuel n me :=
    Nat.mul_le_mul_left _ (by omega)
  rw [mul_add, mul_one] at hmul
  change belowFuel n c + (cubeDim n + 1) ≤ belowFuel n me at hmul
  obtain ⟨f, hf, hsearch⟩ : ∃ f, _ ∧ binomialTree n k fuel 0 0 c mine = _ :=
    h.binomialTree_search fuel (h.live_lt h.live_zero) hcn (.zero c)
      (by rw [size_zero]; omega)
  rw [size_zero] at hf
  refine ⟨f, by omega, ?_⟩
  simp only [hc0, ne_eq, not_false_eq_true, InSubtree.zero, and_self, if_true] at hsearch
  exact hsearch

theorem exists_peer_iff {j : ℕ} (hme : me < n) (hj : j < n) :
    (∃ c ∈ peersOf n me, InSubtree c j) ↔ j ≠ me ∧ InSubtree me j := by
  constructor
  · rintro ⟨c, hc, hcj⟩
    have hsub := inSubtree_of_mem hme hc
    have hlt := size_lt_of_mem hme hc
    refine ⟨?_, hsub.trans hcj⟩
    rintro rfl
    exact absurd hcj.size_le (not_le.2 hlt)
  · rintro ⟨hne, hsub⟩
    obtain ⟨c, hc0, hcm, hcj⟩ := hsub.exists_child hne.symm
    exact ⟨c, (mem_peersOf hme).2 ⟨hc0, hcj.le.trans_lt hj, hcm⟩, hcj⟩

theorem Knows.ownTree_false (h : Knows n k live) (fuel : ℕ) (hme : me < n)
    (hfuel : belowFuel n me ≤ fuel) : ∃ bits, ownTree n k fuel me false = some ([], bits) ∧
      ∀ j, j ∈ bits ↔ live j ∧ j ≠ me ∧ InSubtree me j := by
  induction hm : n - me using Nat.strong_induction_on generalizing me fuel with
  | _ m ih =>
    have hpeer : ∀ c ∈ peersOf n me, ∃ bits, peerOutput n k fuel false c = some ([], bits) ∧
        ∀ j, j ∈ bits ↔ live j ∧ InSubtree c j := by
      intro c hc
      obtain ⟨hc0, hcn, hcm⟩ := (mem_peersOf hme).1 hc
      have hlt : me < c := hcm ▸ binParent_lt hc0
      obtain ⟨f, hf, hsearch⟩ := h.binomialTree_peer hme hc hfuel false
      obtain ⟨bits, hown, hbits⟩ := ih (n - c) (by omega) f hcn hf rfl
      rw [hown, Option.map_some] at hsearch
      by_cases hlive : live c
      · refine ⟨c :: bits, ?_, fun j => ?_⟩
        · rw [peerOutput, if_neg (fun hd => (h.dead_cond hcn).1 hd hlive), hsearch]
          rfl
        · rw [mem_cons, hbits]
          constructor
          · rintro (rfl | ⟨hj, -, hcj⟩)
            · exact ⟨hlive, .refl j⟩
            · exact ⟨hj, hcj⟩
          · rintro ⟨hj, hcj⟩
            by_cases hjc : j = c
            · exact .inl hjc
            · exact .inr ⟨hj, hjc, hcj⟩
      · refine ⟨bits ++ bits, ?_, fun j => ?_⟩
        · rw [peerOutput, if_pos ((h.dead_cond hcn).2 hlive), hsearch]
          rfl
        · rw [mem_append, or_self, hbits]
          refine ⟨fun hj => ⟨hj.1, hj.2.2⟩, fun hj => ⟨hj.1, ?_, hj.2⟩⟩
          rintro rfl
          exact hlive hj.1
    choose! bits hout hmem using hpeer
    refine ⟨(peersOf n me).flatMap bits, ?_, fun j => ?_⟩
    · rw [ownTree, mapM_eq_some_map hout, Option.map_some, flatMap_map, flatMap_map]
      have hnil : (peersOf n me).flatMap (fun _ => ([] : List Child)) = [] := by
        rw [flatMap_eq_nil_iff]
        exact fun _ _ => rfl
      rw [hnil]
    · rw [mem_flatMap]
      constructor
      · rintro ⟨c, hc, hj⟩
        obtain ⟨hlive, hcj⟩ := (hmem c hc j).1 hj
        exact ⟨hlive, (exists_peer_iff hme (h.live_lt hlive)).1 ⟨c, hc, hcj⟩⟩
      · rintro ⟨hlive, hsub⟩
        obtain ⟨c, hc, hcj⟩ := (exists_peer_iff hme (h.live_lt hlive)).2 hsub
        exact ⟨c, hc, (hmem c hc j).2 ⟨hlive, hcj⟩⟩

/-- What the children of a daemon are: the next live daemons, each with the live daemons below. -/
structure IsChildren (live : ℕ → Prop) (me : ℕ) (cs : List Child) : Prop where
  mem : ∀ c, c ∈ cs.map (·.vpid) ↔ Next live me c
  nodup : (cs.map (·.vpid)).Nodup
  relatives : ∀ x ∈ cs, ∀ j, j ∈ x.relatives ↔ live j ∧ j ≠ x.vpid ∧ InSubtree x.vpid j

theorem next_iff_peer (hlt : ∀ {v : ℕ}, live v → v < n) (hme : me < n) {j : ℕ} :
    Next live me j ↔ ∃ c ∈ peersOf n me, if live c then j = c else Next live c j := by
  have hunique {c b : ℕ} (hc : c ∈ peersOf n me) (hcj : InSubtree c j) (hmb : InSubtree me b)
      (hne : b ≠ me) (hbj : InSubtree b j) : InSubtree c b := by
    obtain ⟨hc0, -, hcm⟩ := (mem_peersOf hme).1 hc
    obtain ⟨c', hc0', hcm', hcb⟩ := hmb.exists_child hne.symm
    rwa [child_unique hc0 hc0' (hcm.trans hcm'.symm) hcj (hcb.trans hbj)]
  constructor
  · rintro ⟨hj, hne, hmj, hnone⟩
    obtain ⟨c, hc, hcj⟩ := (exists_peer_iff hme (hlt hj)).2 ⟨hne, hmj⟩
    have hmc := inSubtree_of_mem hme hc
    have hcne : c ≠ me := by
      rintro rfl
      exact absurd (size_lt_of_mem hme hc) (lt_irrefl _)
    refine ⟨c, hc, ?_⟩
    split_ifs with hlive
    · exact (hnone c hlive hmc hcne hcj).symm
    · refine ⟨hj, ?_, hcj, fun b hb hcb hbne hbj => ?_⟩
      · rintro rfl
        exact hlive hj
      · refine hnone b hb (hmc.trans hcb) ?_ hbj
        rintro rfl
        exact hcne (hcb.antisymm hmc)
  · rintro ⟨c, hc, hcase⟩
    have hmc := inSubtree_of_mem hme hc
    split_ifs at hcase with hlive
    · subst hcase
      refine ⟨hlive, ?_, hmc, fun b hb hmb hbne hbj => ?_⟩
      · rintro rfl
        exact absurd (size_lt_of_mem hme hc) (lt_irrefl _)
      · by_contra hne
        have hbm := hbj.parent hne
        rw [((mem_peersOf hme).1 hc).2.2] at hbm
        exact hbne (hbm.antisymm hmb)
    · obtain ⟨hj, hne, hcj, hnone⟩ := hcase
      refine ⟨hj, ((exists_peer_iff hme (hlt hj)).1 ⟨c, hc, hcj⟩).1, hmc.trans hcj,
        fun b hb hmb hbne hbj => ?_⟩
      refine hnone b hb (hunique hc hcj hmb hbne hbj) ?_ hbj
      rintro rfl
      exact hlive hb

theorem Next.inSubtree_peer {c j : ℕ} (h : if live c then j = c else Next live c j) :
    InSubtree c j := by
  split_ifs at h
  · subst h
    exact .refl j
  · exact h.2.2.1

theorem Knows.ownTree_true (h : Knows n k live) (fuel : ℕ) (hme : me < n)
    (hfuel : belowFuel n me ≤ fuel) :
    ∃ cs bits, ownTree n k fuel me true = some (cs, bits) ∧ IsChildren live me cs := by
  induction hm : n - me using Nat.strong_induction_on generalizing me fuel with
  | _ m ih =>
    have hpeer : ∀ c ∈ peersOf n me, ∃ out : List Child × List ℕ,
        peerOutput n k fuel true c = some out ∧
        (∀ j, j ∈ out.1.map (·.vpid) ↔ if live c then j = c else Next live c j) ∧
        (out.1.map (·.vpid)).Nodup ∧
        ∀ x ∈ out.1, ∀ j, j ∈ x.relatives ↔ live j ∧ j ≠ x.vpid ∧ InSubtree x.vpid j := by
      intro c hc
      obtain ⟨hc0, hcn, hcm⟩ := (mem_peersOf hme).1 hc
      have hlt : me < c := hcm ▸ binParent_lt hc0
      obtain ⟨f, hf, hsearch⟩ := h.binomialTree_peer hme hc hfuel false
      obtain ⟨bits, hown, hbits⟩ := h.ownTree_false f hcn hf
      rw [hown, Option.map_some] at hsearch
      by_cases hlive : live c
      · refine ⟨([⟨c, bits⟩], []), ?_, fun j => ?_, nodup_singleton c, fun x hx => ?_⟩
        · rw [peerOutput, if_neg (fun hd => (h.dead_cond hcn).1 hd hlive), hsearch]
          rfl
        · rw [if_pos hlive]
          exact mem_singleton
        · obtain rfl := mem_singleton.1 hx
          exact hbits
      · obtain ⟨f', hf', hsearch'⟩ := h.binomialTree_peer hme hc hfuel true
        obtain ⟨cs, bits', hown', hcs⟩ := ih (n - c) (by omega) f' hcn hf' rfl
        rw [hown', Option.map_some] at hsearch'
        refine ⟨(cs, bits' ++ bits), ?_, fun j => ?_, hcs.nodup, hcs.relatives⟩
        · rw [peerOutput, if_pos ((h.dead_cond hcn).2 hlive), hsearch', hsearch]
          simp only [Option.bind_eq_bind, Option.bind_some, append_nil]
        · rw [if_neg hlive, hcs.mem]
    choose! out hout hmem hnodup hrel using hpeer
    refine ⟨(peersOf n me).flatMap fun c => (out c).1, (peersOf n me).flatMap fun c => (out c).2,
      ?_, ?_⟩
    · rw [ownTree, mapM_eq_some_map hout, Option.map_some, flatMap_map, flatMap_map]
    · refine ⟨fun j => ?_, ?_, fun x hx => ?_⟩
      · rw [map_flatMap, mem_flatMap, next_iff_peer h.live_lt hme]
        exact exists_congr fun c => and_congr_right fun hc => hmem c hc j
      · rw [map_flatMap, nodup_flatMap]
        refine ⟨hnodup, (nodup_peersOf hme).imp_of_mem fun {c c'} hc hc' hne => ?_⟩
        refine disjoint_left.2 fun j hj hj' => ?_
        obtain ⟨hc0, -, hcm⟩ := (mem_peersOf hme).1 hc
        obtain ⟨hc0', -, hcm'⟩ := (mem_peersOf hme).1 hc'
        exact hne (child_unique hc0 hc0' (hcm.trans hcm'.symm)
          (Next.inSubtree_peer ((hmem c hc j).1 hj)) (Next.inSubtree_peer ((hmem c' hc' j).1 hj')))
      · obtain ⟨c, hc, hx'⟩ := mem_flatMap.1 hx
        exact hrel c hc x hx'

theorem Knows.update_eq (h : Knows n k live) (hme : me < n) : ∃ cs, updateRoutingTree n k me =
      some ⟨if me = 0 then 0 else (liveParent live me : ℕ), cs⟩ ∧ IsChildren live me cs := by
  have hdim := size_le_cubeDim hme
  have hfuel : treeFuel n = belowFuel n 0 + (cubeDim n + 1) := by
    rw [treeFuel, belowFuel, size_zero, Nat.sub_zero, mul_add, mul_one]
  have hle : belowFuel n me ≤ belowFuel n 0 := by
    refine Nat.mul_le_mul_left _ ?_
    rw [size_zero]
    omega
  obtain ⟨f, hf, hsearch⟩ : ∃ f, _ ∧ binomialTree n k (treeFuel n) 0 0 me true = _ :=
    h.binomialTree_search (treeFuel n) (h.live_lt h.live_zero) hme (.zero me)
      (by rw [size_zero]; omega)
  rw [size_zero] at hf
  obtain ⟨cs, bits, hown, hcs⟩ := h.ownTree_true f hme (by omega)
  refine ⟨cs, ?_, hcs⟩
  rw [updateRoutingTree, hsearch, hown]
  simp only [Option.map_some, InSubtree.zero, and_true, cast_zero]
  by_cases hzero : me = 0
  · rw [if_neg (not_not.2 hzero), if_pos hzero]
  · rw [if_pos hzero, if_neg hzero]

end Own

end Binomial

end Routed

end Ulfm
