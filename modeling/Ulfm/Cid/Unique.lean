import Ulfm.Cid.Rounds

/-!
# Context ids are agreed on and unique

In the runs in which the calls of a process take their turns one at a time,
`ompi_comm_nextcid` does what it is for. The registration of the calls does not make
them do so: a call on a communicator with a lower context id takes its turn while
another call of the process is in its reduction, and overwrites its candidates.
-/

namespace Ulfm

namespace Cid

variable {P G : Type} [DecidableEq P] [DecidableEq G] {cfg : Config P G} {w w₀ : World P G}

/-- The processes before any call, with arbitrary tables: a slot that is taken holds a
live communicator with this context id. -/
structure Fresh (w : World P G) : Prop where
  live : ∀ p c i, (w.procs p).contextId c = some i ↔ slot (w.procs p).table i = some c
  address : ∀ p c i, (w.procs p).contextId c = some i → c < (w.procs p).nextAddress
  idle : ∀ p g, (w.procs p).calls g = .idle
  granted : ∀ p, (w.procs p).granted = []
  contribs : ∀ g round p, w.contribs g round p = none
  outcome : ∀ g round, w.outcome g round = none

omit [DecidableEq P] [DecidableEq G] in
theorem Fresh.inv (h : Fresh w) : Inv cfg w := by
  have hidle : ∀ p g, ((w.procs p).calls g).midRound = false := by
    intro p g
    rw [h.idle]
    rfl
  refine ⟨fun p => ?_, fun p => ?_, ?_, ?_, ?_, ?_⟩
  · refine ⟨fun c i => (h.live p c i).mp, fun i c hslot => .inl ((h.live p c i).mpr hslot), ?_, ?_,
      ?_, ?_, h.address p, ?_, ?_⟩
    · intro g hg
      rw [hidle] at hg
      cases hg
    · intro g g' hg
      rw [hidle] at hg
      cases hg
    · intro g call hg
      rw [h.idle] at hg
      cases hg
    · intro g g' call call' hg
      rw [h.idle] at hg
      cases hg
    · simp [h.granted]
    · simp [h.granted]
  · refine ⟨?_, ?_, ?_, ?_, ?_, ?_, ?_, ?_⟩
    · exact fun g hg => absurd (h.idle p g) hg
    · simp [h.contribs]
    · simp [h.idle]
    · simp [h.idle, Phase.inReduction]
    · simp [h.idle]
    · simp [h.idle, Phase.round]
    · simp [h.idle]
    · simp [h.idle]
  · simp [h.contribs]
  · simp [h.contribs]
  · simp [h.contribs]
  · simp [h.outcome]

omit [DecidableEq P] [DecidableEq G] in
theorem Inv.result_eq (h : Inv cfg w) {p q : P} {g : G} {round round' : ℕ} {e : Elem}
    {result : Option Elem} (hp : (w.procs p).calls g = .done round (some e))
    (hq : (w.procs q).calls g = .done round' result) : round' = round ∧ result = some e := by
  obtain ⟨hok, next, ⟨r, hr, hnext⟩, hne, he⟩ := (h.loc p).granted g round e hp
  -- a round that is settled by a candidate is not left by a retry
  have hnot : ∀ next' , Settles cfg w g round next' → next' = next := by
    rintro next' ⟨r', hr', hnext'⟩
    rw [← hnext', ← hnext]
    exact hr.takeMin_eq cfg.two_le hr' (fun _ => Iff.rfl) (hnext ▸ hne)
  rcases Nat.lt_trichotomy round' round with hlt | heq | hgt
  · -- `p` has left the round in which `q` is done
    obtain ⟨hok', next', ⟨r', hr', hnext'⟩, hzero⟩ :=
      (h.loc p).left g round' (by rw [hp]; exact hlt)
    exfalso
    cases result with
    | none =>
      rw [(h.loc q).failed g round' hq] at hok'
      cases hok'
    | some e' =>
      obtain ⟨-, next'', ⟨r'', hr'', hnext''⟩, hne', -⟩ := (h.loc q).granted g round' e' hq
      refine hne' ?_
      rw [← hzero, ← hnext'']
      refine congrArg Elem.cid ?_
      rw [← hnext', hr''.takeMin_eq cfg.two_le hr' (fun _ => Iff.rfl) (hnext'' ▸ hne')]
  · subst heq
    refine ⟨rfl, ?_⟩
    cases result with
    | none =>
      rw [(h.loc q).failed g round' hq] at hok
      cases hok
    | some e' =>
      obtain ⟨-, next', hsettles, -, he'⟩ := (h.loc q).granted g round' e' hq
      rw [he', he, hnot next' hsettles]
  · obtain ⟨-, next', hsettles, hzero⟩ := (h.loc q).left g round (by rw [hq]; exact hgt)
    exact absurd ((hnot next' hsettles) ▸ hzero) hne

/-- In every run in which the calls of each process take their turns one at a time and
no epoch is at its maximum:

* the members of a collective call that are done have the same result;
* the context id was free at each member before the round in which it was taken;
* no two live communicators of a process have the same context id;
* the epochs that a process gives to a context id increase;
* a slot that is taken belongs to a live communicator, or it is a candidate of a call
  that is in a round: nothing stays reserved after a round. -/
theorem nextcid_unique (h₀ : Fresh w₀) {events : List (Event P G)}
    (hrun : Along (World.step cfg) (fun w e => e.OneAtATime w) w₀ events) :
    (∀ p q g round round' e result,
      ((events.foldl (World.step cfg) w₀).procs p).calls g = .done round (some e) →
      ((events.foldl (World.step cfg) w₀).procs q).calls g = .done round' result →
      round' = round ∧ result = some e) ∧
    (∀ p g round e, ((events.foldl (World.step cfg) w₀).procs p).calls g = .done round (some e) →
      ∀ q ∈ cfg.members g, ∃ table,
        (events.foldl (World.step cfg) w₀).before g round q = some table ∧
          slot table e.cid = none) ∧
    (∀ p c c' cid, ((events.foldl (World.step cfg) w₀).procs p).contextId c = some cid →
      ((events.foldl (World.step cfg) w₀).procs p).contextId c' = some cid → c = c') ∧
    (∀ p, ((events.foldl (World.step cfg) w₀).procs p).granted.Pairwise fun later earlier =>
      later.cid = earlier.cid → earlier.epoch < later.epoch) ∧
    (∀ p i c, slot ((events.foldl (World.step cfg) w₀).procs p).table i = some c →
      ((events.foldl (World.step cfg) w₀).procs p).contextId c = some i ∨
        i ∈ ((events.foldl (World.step cfg) w₀).procs p).lCIDs.cids ∧
          ∃ g, (((events.foldl (World.step cfg) w₀).procs p).calls g).midRound) := by
  have hinv : Inv cfg (events.foldl (World.step cfg) w₀) :=
    Along.invariant (fun _ e h he => h.step e he) h₀.inv hrun
  generalize events.foldl (World.step cfg) w₀ = w at hinv ⊢
  refine ⟨fun p q g round round' e result hp hq => hinv.result_eq hp hq, ?_, ?_,
    fun p => (hinv.proc p).increasing, fun p => (hinv.proc p).taken⟩
  · intro p g round e hp q hq
    obtain ⟨-, next, ⟨r, hr, hnext⟩, hne, he⟩ := (hinv.loc p).granted g round e hp
    obtain ⟨-, hall⟩ := hinv.settles_spec hr hnext hne
    obtain ⟨a, ha, e', he', hcid, -⟩ := hall q hq
    obtain ⟨table, hbefore, hfree⟩ := hinv.free g round q a ha
    refine ⟨table, hbefore, ?_⟩
    rw [he, ← hcid]
    exact hfree _ (List.mem_map_of_mem he')
  · intro p c c' cid hc hc'
    have hslot := (hinv.proc p).live c cid hc
    rw [(hinv.proc p).live c' cid hc'] at hslot
    exact (Option.some.inj hslot).symm

section Runs

/-- A process with the communicators `0` to `n - 1`, each at the address of its context
id. -/
def procWith (G : Type) (n : ℕ) : Proc G where
  table := (List.range n).map some
  epochs _ := 0
  contextId c := if c < n then some c else none
  nextAddress := n
  registered := []
  lCIDs := ⟨0, []⟩
  gCIDs := ⟨0, []⟩
  calls _ := .idle
  granted := []

def worldWith (G : Type) {P : Type} (sizes : P → ℕ) : World P G where
  procs p := procWith G (sizes p)
  contribs _ _ _ := none
  outcome _ _ := none
  before _ _ _ := none

theorem fresh_worldWith (G : Type) {P : Type} (sizes : P → ℕ) : Fresh (worldWith G sizes) := by
  have hslot : ∀ n i c, slot ((List.range n).map some) i = some c ↔ i < n ∧ i = c := by
    intro n i c
    by_cases hi : i < n
    · simp [slot, hi]
    · simp [slot, hi]
  refine ⟨fun p c i => ?_, fun p c i hc => ?_, fun _ _ => rfl, fun _ => rfl, fun _ _ _ => rfl,
    fun _ _ => rfl⟩
  · simp only [worldWith, procWith, hslot]
    split_ifs with hlt
    · rw [Option.some_inj]
      exact ⟨fun h => ⟨h ▸ hlt, h.symm⟩, fun h => h.2.symm⟩
    · exact ⟨fun h => (nomatch h), fun h => absurd (h.2 ▸ h.1) hlt⟩
  · simp only [worldWith, procWith] at hc ⊢
    split_ifs at hc with hlt
    exact hlt

theorem two_le_four : 2 ≤ 4 := by decide

local instance twoNeZero : NeZero 2 := ⟨by decide⟩

/-- Two processes that duplicate `MPI_COMM_WORLD`; one of them has a communicator more. -/
def pairConfig : Config (Fin 2) Unit := ⟨fun _ => [0, 1], 4, two_le_four, 32⟩

/-- In the first round the candidates of the two processes are not the same. -/
def pairEvents : List (Event (Fin 2) Unit) :=
  [.call 0 () 0, .call 1 () 0, .enter 0 (), .enter 1 (), .contribute 1 (), .contribute 0 (),
    .reduce () 0 true, .complete 0 () (.node (.leaf 0) (.leaf 1)),
    .complete 1 () (.node (.leaf 1) (.leaf 0)), .finish 0 (), .finish 1 (),
    .enter 1 (), .enter 0 (), .contribute 1 (), .contribute 0 (), .reduce () 1 true,
    .complete 0 () (.node (.leaf 0) (.leaf 1)), .complete 1 () (.node (.leaf 1) (.leaf 0)),
    .finish 1 (), .finish 0 ()]

/-- In the second round they take the context id 6, which is free at both of them. -/
theorem nextcid_unique_pair :
    ((pairEvents.foldl (World.step pairConfig) (worldWith Unit fun p => 3 + p.val)).procs
      0).calls () = .done 1 (some ⟨6, 1⟩) ∧
    ∃ table, (pairEvents.foldl (World.step pairConfig)
      (worldWith Unit fun p => 3 + p.val)).before () 1 1 = some table ∧ slot table 6 = none := by
  have hturn : ∀ w : World (Fin 2) Unit, ∀ p, ((w.procs p).calls ()).midRound = false →
      (w.procs p).epochs = (fun _ => 0) → (Event.enter p ()).OneAtATime w := by
    intro w p hmid hepochs
    refine ⟨fun g => ?_, fun i => ?_⟩
    · rw [hmid]
      decide
    · rw [hepochs]
      exact Nat.succ_pos _
  have hrun : Along (World.step pairConfig) (fun w e => e.OneAtATime w)
      (worldWith Unit fun p => 3 + p.val) pairEvents :=
    ⟨trivial, trivial, hturn _ _ rfl rfl, hturn _ _ rfl rfl, trivial, trivial, trivial, trivial,
      trivial, trivial, trivial, hturn _ _ rfl rfl, hturn _ _ rfl rfl, trivial, trivial, trivial,
      trivial, trivial, trivial, trivial, trivial⟩
  have hdone : ((pairEvents.foldl (World.step pairConfig)
      (worldWith Unit fun p => 3 + p.val)).procs 0).calls () = .done 1 (some ⟨6, 1⟩) := by
    decide +kernel
  obtain ⟨-, hfree, -⟩ := nextcid_unique (fresh_worldWith Unit _) hrun
  exact ⟨hdone, hfree 0 () 1 ⟨6, 1⟩ hdone 1 (by decide)⟩

/-- Three threads of one process that each duplicate a communicator of this process
alone. The context ids of the communicators are 5, 4 and 3; each call begins while the
one before it is in its reduction. -/
def threadConfig : Config Unit ℕ := ⟨fun _ => [()], 4, two_le_four, 32⟩

@[inherit_doc threadConfig]
def threadEvents : List (Event Unit ℕ) :=
  [.call () 5 5, .enter () 5, .contribute () 5, .call () 4 4, .enter () 4, .contribute () 4,
    .reduce 5 0 true, .complete () 5 (.leaf ()), .finish () 5,
    .call () 3 3, .enter () 3, .contribute () 3,
    .reduce 3 0 true, .complete () 3 (.leaf ()), .finish () 3,
    .reduce 4 0 true, .complete () 4 (.leaf ()), .finish () 4]

/-- The second and the third call give the context id 9 to two communicators, and the
slots 7 and 8 stay reserved. -/
theorem concurrent_calls_share_cid : Fresh (worldWith ℕ fun _ : Unit => 6) ∧
    ((threadEvents.foldl (World.step threadConfig) (worldWith ℕ fun _ => 6)).procs
      ()).contextId 7 = some 9 ∧
    ((threadEvents.foldl (World.step threadConfig) (worldWith ℕ fun _ => 6)).procs
      ()).contextId 8 = some 9 ∧
    slot ((threadEvents.foldl (World.step threadConfig) (worldWith ℕ fun _ => 6)).procs
      ()).table 7 = some 5 ∧
    ((threadEvents.foldl (World.step threadConfig) (worldWith ℕ fun _ => 6)).procs
      ()).contextId 5 = some 5 :=
  ⟨fresh_worldWith ℕ _, by decide +kernel, by decide +kernel, by decide +kernel, by decide +kernel⟩

end Runs

end Cid

end Ulfm
