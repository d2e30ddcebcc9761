import Ulfm.Cid.Selection

/-!
# Running out of context ids

The loop of `ompi_comm_nextcid` over its rounds, when the call is the only one in
progress. The first round looks at the slots behind `highest_taken`, each later one
starts at the largest slot that some member has looked at. No branch of the loop is
left when there is no slot below `pml_max_contextid`: the members then reduce empty
arrays for ever.
-/

namespace Ulfm

open List Function

namespace Cid

section Reserve

theorem slot_of_highestTaken_lt {table : List (Option ℕ)} {j : ℕ}
    (h : highestTaken table < j) : slot table j = none := by
  induction table generalizing j with
  | nil => rfl
  | cons item table ih =>
    rw [highestTaken] at h
    cases j with
    | zero => omega
    | succ j =>
      have hslot : slot (item :: table) (j + 1) = slot table j := rfl
      rw [hslot]
      split_ifs at h with hany
      · exact ih (by omega)
      · rw [slot]
        cases hitem : table[j]? with
        | none => rfl
        | some v =>
          have hv := any_eq_false.mp (eq_false_of_ne_true hany) v
            (mem_of_getElem? hitem)
          simpa using hv

theorem reserve_free (comm : ℕ) (epochs : ℕ → ℕ) (rounds i need : ℕ)
    {table : List (Option ℕ)} (hneed : 1 ≤ need) (hfree : ∀ j, i ≤ j → slot table j = none) :
    (reserve comm epochs rounds i need table).2.1.map (·.cid) = range' i (min need rounds) ∧
      (reserve comm epochs rounds i need table).2.2 =
        if need ≤ rounds then i + need - 1 else i + rounds := by
  induction rounds generalizing i need table with
  | zero =>
    refine ⟨?_, ?_⟩
    · rw [Nat.min_zero]
      rfl
    · rw [if_neg (by omega)]
      rfl
  | succ rounds ih =>
    rw [reserve, hfree i le_rfl]
    simp only
    split_ifs with hone hle hle
    · subst hone
      rw [Nat.min_eq_left hle]
      exact ⟨rfl, rfl⟩
    · omega
    all_goals
      have hfree' : ∀ j, i + 1 ≤ j → slot (FtProcess.setSlot table i (some comm)) j = none := by
        intro j hj
        rw [slot_setSlot, if_neg (by omega)]
        exact hfree j (by omega)
      obtain ⟨hcids, hlast⟩ := ih (i + 1) (need - 1) (by omega) hfree'
      have hmin : min need (rounds + 1) = min (need - 1) rounds + 1 := by omega
      rw [map_cons, hcids, hmin, range'_succ]
      refine ⟨rfl, ?_⟩
      rw [hlast]
      split_ifs
      all_goals omega

end Reserve

section Round

variable {P G : Type} [DecidableEq G] {size limit : ℕ} {g : G} {members : List P}

/-- One round of a call at all its members: they reserve their candidates, the reduction
combines these, in an order of its own for each member, and the members go on. -/
def allocRound (size limit : ℕ) (g : G) (ok : Bool) (tree : P → ReduxTree P)
    (procs : P → Proc G) : P → Proc G := fun p =>
  let entered := fun q => (procs q).enter size limit g
  match (entered p).calls g, (tree p).eval fun q => some (entered q).lCIDs with
  | .entered call round, some result =>
    ({ entered p with gCIDs := result }.setCall g (.reduced call round ok)).finish size g
  | _, _ => entered p

def allocRun (size limit : ℕ) (g : G) (outcome : ℕ → Bool) (trees : ℕ → P → ReduxTree P)
    (procs : P → Proc G) : ℕ → P → Proc G
  | 0 => procs
  | n + 1 => allocRound size limit g (outcome n) (trees n)
      (allocRun size limit g outcome trees procs n)

/-- `ompi_comm_nextcid` has returned. -/
def Ended (s : Proc G) (g : G) : Prop := ∃ round result, s.calls g = .done round result

/-- A process is about to begin a round, at a slot from which on all are free. -/
structure Ready (s : Proc G) (g : G) (start : ℕ) : Prop where
  waiting : ∃ call round, s.calls g = .waiting call start round ∧
    lowestCid s.registered = some call.commCid
  start_pos : 0 < start
  free : ∀ j, start ≤ j → slot s.table j = none

def lastLooked (size limit start : ℕ) : ℕ :=
  if size - 1 ≤ limit - start then start + (size - 1) - 1 else start + (limit - start)

theorem start_le_lastLooked (size limit start : ℕ) (hsize : 2 ≤ size) :
    start ≤ lastLooked size limit start := by
  rw [lastLooked]
  split_ifs
  all_goals omega

theorem Proc.finish_failed {s : Proc G} {call : Call} {round : ℕ}
    (hcall : s.calls g = .reduced call round false) : Ended (s.finish size g) g := by
  refine ⟨round, none, ?_⟩
  rw [Proc.finish, hcall]
  exact update_self ..

theorem Proc.finish_retry {s : Proc G} {call : Call} {round : ℕ}
    (hcall : s.calls g = .reduced call round true)
    (hzero : (takeMin (s.gCIDs.entries size)).cid = 0) :
    s.finish size g = { s with table := release s.table s.lCIDs.avail }.setCall g
      (.waiting call s.gCIDs.first (round + 1)) := by
  rw [Proc.finish, hcall]
  simp only [Bool.true_eq_false, if_false]
  rw [if_pos hzero]

theorem ReduxTree.eval_congr {contribution contribution' : P → Option CidArray}
    {tree : ReduxTree P} (h : ∀ p ∈ tree.leaves, contribution p = contribution' p) :
    tree.eval contribution = tree.eval contribution' := by
  induction tree with
  | leaf p => exact h p (mem_singleton_self p)
  | node inn out ihinn ihout =>
    rw [ReduxTree.eval, ReduxTree.eval, ihinn fun p hp => h p (mem_append_left _ hp),
      ihout fun p hp => h p (mem_append_right _ hp)]

theorem ReduxTree.first_le_iff {contribution : P → CidArray} {tree : ReduxTree P}
    {r : CidArray} (heval : tree.eval (fun p => some (contribution p)) = some r) {b : ℕ} :
    r.first ≤ b ↔ ∀ p ∈ tree.leaves, (contribution p).first ≤ b := by
  induction tree generalizing r with
  | leaf p =>
    rw [← Option.some.inj heval]
    exact ⟨fun h q hq => mem_singleton.mp hq ▸ h, fun h => h p (mem_singleton_self p)⟩
  | node inn out ihinn ihout =>
    obtain ⟨a, ha⟩ := inn.eval_isSome contribution
    obtain ⟨c, hc⟩ := out.eval_isSome contribution
    rw [ReduxTree.eval, ha, hc] at heval
    rw [← Option.some.inj heval]
    have hmax : (cidReduxFn a c).first ≤ b ↔ a.first ≤ b ∧ c.first ≤ b := max_le_iff.trans and_comm
    rw [hmax, ihinn ha, ihout hc]
    exact forall_mem_append.symm

theorem Ready.enter {s : Proc G} {start : ℕ} (h : Ready s g start) (hsize : 2 ≤ size) (limit : ℕ) :
    (∃ call round, (s.enter size limit g).calls g = .entered call round ∧
      lowestCid (s.enter size limit g).registered = some call.commCid) ∧
    (∃ m : Proposal, (s.enter size limit g).lCIDs = m.array size) ∧
    (s.enter size limit g).lCIDs.cids = range' start (min (size - 1) (limit - start)) ∧
    (s.enter size limit g).lCIDs.first = lastLooked size limit start ∧
    ∀ j, start ≤ j →
      slot (release (s.enter size limit g).table (s.enter size limit g).lCIDs.avail) j = none := by
  obtain ⟨call, round, hcall, hlowest⟩ := h.waiting
  rw [Proc.enter, hcall]
  simp only
  rw [if_pos hlowest]
  obtain ⟨hcids, hlast⟩ := reserve_free call.comm s.epochs (limit - start) start (size - 1)
    (by omega) h.free
  refine ⟨⟨call, round, update_self .., hlowest⟩,
    ⟨⟨call.comm, s.epochs, s.table, start, limit - start, h.start_pos⟩, rfl⟩, hcids, hlast, ?_⟩
  intro j hj
  have hreserved := reserved_reserve call.comm s.epochs (limit - start) start (size - 1) s.table
  exact (slot_release _ _ j).trans (ite_eq_left_iff.mpr fun hother =>
    (hreserved.other j hother).trans (h.free j hj))

variable {procs : P → Proc G} {start : P → ℕ} {tree : P → ReduxTree P}

theorem exists_result (limit : ℕ) (hsize : 2 ≤ size)
    (hready : ∀ p ∈ members, Ready (procs p) g (start p))
    {t : ReduxTree P} (htree : t.leaves.Perm members) :
    ∃ result, (t.eval fun q => some ((procs q).enter size limit g).lCIDs) = some result ∧
      (∀ b, result.first ≤ b ↔ ∀ p ∈ members, lastLooked size limit (start p) ≤ b) ∧
      ((takeMin (result.entries size)).cid ≠ 0 ↔
        ∃ s, s + (size - 1) ≤ limit ∧ ∀ p ∈ members, start p = s) := by
  obtain ⟨result, hresult⟩ := t.eval_isSome fun q => ((procs q).enter size limit g).lCIDs
  refine ⟨result, hresult, fun b => ?_, ?_⟩
  · rw [ReduxTree.first_le_iff hresult]
    constructor
    · intro h p hp
      rw [← ((hready p hp).enter hsize limit).2.2.2.1]
      exact h p (htree.mem_iff.mpr hp)
    · intro h p hp
      have hp' := htree.mem_iff.mp hp
      rw [((hready p hp').enter hsize limit).2.2.2.1]
      exact h p hp'
  · obtain ⟨first, hfirst⟩ := exists_mem_of_ne_nil _ t.leaves_ne_nil
    rw [htree.mem_iff] at hfirst
    have hproposal : ∀ p, ∃ m : Proposal, p ∈ members →
        ((procs p).enter size limit g).lCIDs = m.array size := by
      intro p
      by_cases hp : p ∈ members
      · obtain ⟨m, hm⟩ := ((hready p hp).enter hsize limit).2.1
        exact ⟨m, fun _ => hm⟩
      · exact ⟨⟨0, fun _ => 0, [], 1, 0, Nat.one_pos⟩, fun hp' => absurd hp' hp⟩
    choose proposal hproposal using hproposal
    have heval : t.eval (fun p => some ((proposal p).array size)) = some result := by
      rw [← hresult]
      apply ReduxTree.eval_congr
      intro p hp
      rw [hproposal p (htree.mem_iff.mp hp)]
    rw [takeMin_ne_zero_iff hsize htree heval]
    have hcids : ∀ p ∈ members, ((proposal p).array size).cids =
        range' (start p) (min (size - 1) (limit - start p)) := by
      intro p hp
      rw [← hproposal p hp]
      exact ((hready p hp).enter hsize limit).2.2.1
    constructor
    · rintro ⟨cids, hlen, halike⟩
      have hfull : ∀ p ∈ members, start p + (size - 1) ≤ limit ∧
          cids = range' (start p) (size - 1) := by
        intro p hp
        have hp' := (hcids p hp).symm.trans (halike p hp)
        have hlength := congrArg length hp'
        rw [length_range', hlen] at hlength
        rw [hlength] at hp'
        exact ⟨by omega, hp'.symm⟩
      refine ⟨start first, (hfull first hfirst).1, fun p hp => ?_⟩
      have heq := (hfull p hp).2.symm.trans (hfull first hfirst).2
      obtain ⟨k, hk⟩ : ∃ k, size - 1 = k + 1 := ⟨size - 2, by omega⟩
      rw [hk, range'_succ, range'_succ] at heq
      exact (cons.inj heq).1
    · rintro ⟨s, hs, hstart⟩
      refine ⟨range' s (size - 1), length_range', fun p hp => ?_⟩
      rw [hcids p hp, hstart p hp, Nat.min_eq_left (by omega)]

theorem allocRound_ready (hsize : 2 ≤ size) (ok : Bool)
    (hready : ∀ p ∈ members, Ready (procs p) g (start p)) {p : P} (hp : p ∈ members)
    (htree : (tree p).leaves.Perm members) :
    ((ok = false ∨ ∃ s, s + (size - 1) ≤ limit ∧ ∀ p ∈ members, start p = s) →
      Ended (allocRound size limit g ok tree procs p) g) ∧
    ((ok = true ∧ ¬ ∃ s, s + (size - 1) ≤ limit ∧ ∀ p ∈ members, start p = s) →
      ∃ next, (∀ b, next ≤ b ↔ ∀ p ∈ members, lastLooked size limit (start p) ≤ b) ∧
        Ready (allocRound size limit g ok tree procs p) g next) := by
  obtain ⟨result, hresult, hfirst, htaken⟩ := exists_result limit hsize hready htree
  obtain ⟨⟨call, round, hcall, hlowest⟩, -, -, -, hfree⟩ := (hready p hp).enter hsize limit
  have hround : allocRound size limit g ok tree procs p =
      ({ (procs p).enter size limit g with gCIDs := result }.setCall g
        (.reduced call round ok)).finish size g := by
    rw [allocRound]
    simp only [hcall, hresult]
  set s := { (procs p).enter size limit g with gCIDs := result }.setCall g
    (.reduced call round ok) with hs
  have hreduced : s.calls g = .reduced call round ok := update_self ..
  rw [hround]
  cases ok with
  | false => exact ⟨fun _ => Proc.finish_failed hreduced, fun h => absurd h.1 (by decide)⟩
  | true =>
    refine ⟨fun h => ?_, fun h => ?_⟩
    · have hne := htaken.mpr (h.resolve_left (by decide))
      refine ⟨round, some ⟨(takeMin (result.entries size)).cid,
        ((takeMin (result.entries size)).epoch + 1) % 2 ^ 32⟩, ?_⟩
      rw [Proc.finish_reduced hreduced]
      exact if_neg hne
    · have hzero : (takeMin (s.gCIDs.entries size)).cid = 0 :=
        not_not.mp (htaken.not.mpr h.2)
      refine ⟨result.first, hfirst, ?_⟩
      have hle : start p ≤ result.first :=
        (start_le_lastLooked size limit (start p) hsize).trans ((hfirst _).mp le_rfl p hp)
      rw [Proc.finish_retry hreduced hzero]
      exact ⟨⟨call, round + 1, update_self .., hlowest⟩,
        (hready p hp).start_pos.trans_le hle, fun j hj => hfree j (hle.trans hj)⟩

theorem allocRound_retry (hsize : 2 ≤ size) {p₀ : P} (hp₀ : p₀ ∈ members)
    (hready : ∀ p ∈ members, Ready (procs p) g (start p))
    (htree : ∀ p ∈ members, (tree p).leaves.Perm members)
    (hapart : ¬ ∃ s, s + (size - 1) ≤ limit ∧ ∀ p ∈ members, start p = s) :
    ∃ next, (∀ b, next ≤ b ↔ ∀ p ∈ members, lastLooked size limit (start p) ≤ b) ∧
      ∀ p ∈ members, Ready (allocRound size limit g true tree procs p) g next := by
  obtain ⟨next, hnext, -⟩ := (allocRound_ready hsize true hready hp₀ (htree p₀ hp₀)).2 ⟨rfl, hapart⟩
  refine ⟨next, hnext, fun p hp => ?_⟩
  obtain ⟨next', hnext', hready'⟩ :=
    (allocRound_ready hsize true hready hp (htree p hp)).2 ⟨rfl, hapart⟩
  have heq : next' = next := eq_of_forall_ge_iff fun b => (hnext' b).trans (hnext b).symm
  rw [← heq]
  exact hready'

theorem allocRound_ended (ok : Bool) {p : P} (h : Ended (procs p) g) :
    Ended (allocRound size limit g ok tree procs p) g := by
  obtain ⟨round, result, hdone⟩ := h
  have henter : (procs p).enter size limit g = procs p := by rw [Proc.enter, hdone]
  refine ⟨round, result, ?_⟩
  rw [allocRound]
  simp only [henter, hdone]

end Round

section Run

variable {P G : Type} [DecidableEq G] {size limit : ℕ} {g : G} {members : List P} {p₀ : P}
  {procs : P → Proc G} {start : P → ℕ} {trees : ℕ → P → ReduxTree P} {outcome : ℕ → Bool}

theorem allocRun_ready (limit : ℕ) (outcome : ℕ → Bool) (hsize : 2 ≤ size) (hp₀ : p₀ ∈ members)
    (hready : ∀ p ∈ members, Ready (procs p) g (start p))
    (htrees : ∀ n, ∀ p ∈ members, (trees n p).leaves.Perm members) (n : ℕ) :
    (∀ p ∈ members, Ended (allocRun size limit g outcome trees procs n p) g) ∨
      ∃ start' : P → ℕ, ∀ p ∈ members,
        Ready (allocRun size limit g outcome trees procs n p) g (start' p) := by
  induction n with
  | zero => exact .inr ⟨start, hready⟩
  | succ n ih =>
    rcases ih with hended | ⟨start', hready'⟩
    · exact .inl fun p hp => allocRound_ended (outcome n) (hended p hp)
    · by_cases hend : outcome n = false ∨ ∃ s, s + (size - 1) ≤ limit ∧ ∀ p ∈ members, start' p = s
      · exact .inl fun p hp =>
          (allocRound_ready hsize (outcome n) hready' hp (htrees n p hp)).1 hend
      · rw [not_or, Bool.not_eq_false] at hend
        obtain ⟨next, -, hnext⟩ := allocRound_retry hsize hp₀ hready' (htrees n) hend.2
        right
        refine ⟨fun _ => next, ?_⟩
        rw [allocRun, hend.1]
        exact hnext

theorem allocRun_stuck (limit : ℕ) (hsize : 2 ≤ size) (hp₀ : p₀ ∈ members)
    (hready : ∀ p ∈ members, Ready (procs p) g (start p))
    (htrees : ∀ n, ∀ p ∈ members, (trees n p).leaves.Perm members)
    (hsuccess : ∀ n, outcome n = true)
    (hapart : ¬ ∃ s, s + (size - 1) ≤ limit ∧ ∀ p ∈ members, start p = s)
    {p₁ : P} (hp₁ : p₁ ∈ members) (hclose : limit < start p₁ + (size - 2) + (size - 1)) (n : ℕ) :
    ∃ next, limit < next + (size - 1) ∧
      ∀ p ∈ members, Ready (allocRun size limit g outcome trees procs (n + 1) p) g next := by
  induction n with
  | zero =>
    obtain ⟨next, hnext, hready'⟩ := allocRound_retry hsize hp₀ hready (htrees 0) hapart
    refine ⟨next, ?_, ?_⟩
    · have hle := (hnext next).mp le_rfl p₁ hp₁
      rw [lastLooked] at hle
      split_ifs at hle
      all_goals omega
    · rw [allocRun, hsuccess 0]
      exact hready'
  | succ n ih =>
    obtain ⟨next, hlimit, hnext⟩ := ih
    have hapart' : ¬ ∃ s, s + (size - 1) ≤ limit ∧ ∀ p ∈ members, next = s := by
      rintro ⟨s, hs, heq⟩
      rw [← heq p₀ hp₀] at hs
      omega
    obtain ⟨next', hnext', hready'⟩ := allocRound_retry hsize hp₀ hnext (htrees (n + 1)) hapart'
    refine ⟨next', ?_, ?_⟩
    · have hle := (hnext' next').mp le_rfl p₀ hp₀
      rw [lastLooked] at hle
      split_ifs at hle
      all_goals omega
    · rw [allocRun, hsuccess (n + 1)]
      exact hready'

/-- A process without a call in progress, and a live communicator of it. -/
structure Solo (s : Proc G) (g : G) (comm : ℕ) : Prop where
  idle : s.calls g = .idle
  registered : s.registered = []
  live : ∃ cid, s.contextId comm = some cid

theorem Solo.ready {s : Proc G} {comm : ℕ} (h : Solo s g comm) :
    Ready (s.beginCall g comm) g (highestTaken s.table + 1) := by
  obtain ⟨cid, hcid⟩ := h.live
  rw [Proc.beginCall, h.idle, hcid, h.registered]
  refine ⟨⟨⟨comm, cid, s.nextAddress⟩, 0, update_self .., rfl⟩, Nat.succ_pos _, ?_⟩
  intro j hj
  apply slot_of_highestTaken_lt
  exact hj

/-- The members of a call all return from `ompi_comm_nextcid`. -/
def NextcidEnds (size limit : ℕ) (g : G) (members : List P) (outcome : ℕ → Bool)
    (trees : ℕ → P → ReduxTree P) (comm : P → ℕ) (procs : P → Proc G) : Prop :=
  ∃ n, ∀ p ∈ members,
    Ended (allocRun size limit g outcome trees (fun p => (procs p).beginCall g (comm p)) n p) g

/-- `ompi_comm_nextcid` ends exactly if a reduction fails, or if the first or the second round
finds room: the first when the highest slot in use is the same at all the members, the
second when there are `2 * cid_redux_size - 3` slots behind every one of them. -/
theorem nextcid_ends_iff (hsize : 2 ≤ size) {comm : P → ℕ} (hmembers : members ≠ [])
    (hsolo : ∀ p ∈ members, Solo (procs p) g (comm p))
    (htrees : ∀ n, ∀ p ∈ members, (trees n p).leaves.Perm members) :
    NextcidEnds size limit g members outcome trees comm procs ↔ (∃ n, outcome n = false) ∨
      (∃ top, top + size ≤ limit ∧ ∀ p ∈ members, highestTaken (procs p).table = top) ∨
      ∀ p ∈ members, highestTaken (procs p).table + (2 * size - 2) ≤ limit := by
  obtain ⟨p₀, hp₀⟩ := exists_mem_of_ne_nil _ hmembers
  have hready : ∀ p ∈ members, Ready ((procs p).beginCall g (comm p)) g
      (highestTaken (procs p).table + 1) := fun p hp => (hsolo p hp).ready
  have halike : (∃ s, s + (size - 1) ≤ limit ∧
        ∀ p ∈ members, highestTaken (procs p).table + 1 = s) ↔
      ∃ top, top + size ≤ limit ∧ ∀ p ∈ members, highestTaken (procs p).table = top := by
    constructor
    · rintro ⟨s, hs, heq⟩
      have hp := heq p₀ hp₀
      exact ⟨s - 1, by omega, fun p hp => by have := heq p hp; omega⟩
    · rintro ⟨top, htop, heq⟩
      exact ⟨top + 1, by omega, fun p hp => by rw [heq p hp]⟩
  constructor
  · intro ⟨n, hended⟩
    by_contra hnone
    rw [not_or, not_or, ← halike] at hnone
    obtain ⟨hsuccess, hapart, hclose⟩ := hnone
    push Not at hsuccess hclose
    obtain ⟨p₁, hp₁, hclose⟩ := hclose
    obtain ⟨next, -, hnext⟩ := allocRun_stuck limit hsize hp₀ hready htrees
      (fun k => eq_true_of_ne_false (hsuccess k)) hapart hp₁ (by omega) n
    obtain ⟨call, round, hwaiting, -⟩ := (hnext p₀ hp₀).waiting
    obtain ⟨round', result, hdone⟩ := allocRound_ended (outcome n) (hended p₀ hp₀)
    rw [allocRun, hdone] at hwaiting
    cases hwaiting
  · rintro (⟨n, hfailed⟩ | hfirst | hsecond)
    · rcases allocRun_ready limit outcome hsize hp₀ hready htrees n with
        hended | ⟨start', hready'⟩
      · exact ⟨n, hended⟩
      · exact ⟨n + 1, fun p hp => (allocRound_ready hsize (outcome n) hready' hp
          (htrees n p hp)).1 (.inl hfailed)⟩
    · exact ⟨1, fun p hp => (allocRound_ready hsize (outcome 0) hready hp (htrees 0 p hp)).1
        (.inr (halike.mpr hfirst))⟩
    · by_cases hend : outcome 0 = false ∨ ∃ s, s + (size - 1) ≤ limit ∧
          ∀ p ∈ members, highestTaken (procs p).table + 1 = s
      · exact ⟨1, fun p hp =>
          (allocRound_ready hsize (outcome 0) hready hp (htrees 0 p hp)).1 hend⟩
      · rw [not_or, Bool.not_eq_false] at hend
        obtain ⟨next, hnext, hready'⟩ := allocRound_retry hsize hp₀ hready (htrees 0) hend.2
        -- the second round has room for all the candidates
        have hroom : next + (size - 1) ≤ limit := by
          have hle : next ≤ limit - (size - 1) := by
            refine (hnext _).mpr fun p hp => ?_
            have hp' := hsecond p hp
            rw [lastLooked, if_pos (by omega)]
            omega
          have hp' := hsecond p₀ hp₀
          omega
        rw [← hend.1] at hready'
        exact ⟨2, fun p hp => (allocRound_ready hsize (outcome 1) hready' hp (htrees 1 p hp)).1
          (.inr ⟨next, hroom, fun _ _ => rfl⟩)⟩

/-- A process whose communicators have the context ids below `count`. -/
def fullProc (count : ℕ) : Proc Unit where
  table := (range count).map some
  epochs := fun _ => 0
  contextId := fun c => if c < count then some c else none
  nextAddress := count
  registered := []
  lCIDs := ⟨0, []⟩
  gCIDs := ⟨0, []⟩
  calls := fun _ => .idle
  granted := []

/-- Two processes, of which the second one has a communicator more. -/
theorem nextcid_ends_iff_two : NextcidEnds 4 65535 () [(0 : Fin 2), 1] (fun _ => true)
        (fun _ _ => .node (.leaf 0) (.leaf 1)) (fun _ => 0) (fun p => fullProc (3 + p.val)) ↔
      (∃ _ : ℕ, true = false) ∨
      (∃ top, top + 4 ≤ 65535 ∧
        ∀ p ∈ [(0 : Fin 2), 1], highestTaken (fullProc (3 + p.val)).table = top) ∨
      ∀ p ∈ [(0 : Fin 2), 1], highestTaken (fullProc (3 + p.val)).table + (2 * 4 - 2) ≤ 65535 :=
  nextcid_ends_iff (by decide) (cons_ne_nil _ _)
    (fun p _ => ⟨rfl, rfl, 0, if_pos (by omega)⟩) (fun _ _ _ => List.Perm.refl _)

/-- With `pml_max_contextid` 4 and the context ids 0 to 3 in use, the loop never ends. -/
theorem nextcid_spins : ¬ NextcidEnds 4 4 () [()] (fun _ => true) (fun _ _ => .leaf ())
    (fun _ => 0) (fun _ => fullProc 4) := by
  rintro ⟨n, hended⟩
  have hsolo : Solo (fullProc 4) () 0 := ⟨rfl, rfl, 0, rfl⟩
  have hmem : () ∈ [()] := mem_singleton_self ()
  have hapart : ¬ ∃ s, s + (4 - 1) ≤ 4 ∧ ∀ p ∈ [()], highestTaken (fullProc 4).table + 1 = s := by
    rintro ⟨s, hs, heq⟩
    have hs' : 4 = s := heq () hmem
    omega
  have htrees : ∀ n : ℕ, ∀ p ∈ [()], (ReduxTree.leaf p).leaves.Perm [()] :=
    fun _ _ _ => List.Perm.refl _
  obtain ⟨next, -, hnext⟩ := allocRun_stuck 4 (by decide) hmem (fun _ _ => hsolo.ready) htrees
    (fun _ => rfl) hapart hmem (by decide) n
  obtain ⟨call, round, hwaiting, -⟩ := (hnext () hmem).waiting
  obtain ⟨round', result, hdone⟩ := allocRound_ended true (hended () hmem)
  rw [allocRun, hdone] at hwaiting
  cases hwaiting

end Run

end Cid

end Ulfm
