import Ulfm.Era.Agreement.Definitions
import Ulfm.Era.Tree.Repair
import Ulfm.Foundation.Outcome
import Ulfm.Foundation.TreeConsensus

/-!
# The handlers simulate the tree consensus

`InfoRel` relates the record that a process keeps of an agreement to the state of
`ConsensusState`, and `JobRel` does the same for a handler that is under way:
every handler is a sequence of moves of the process that runs it. The
specifications are parametric in what is known of a combined value (`Tr`) and in
whether the return code counts as a part of the decision (`keepRet`).
-/

namespace Ulfm

open List Option Relation Job Function AgreementInfo Bool

/-- The decision without its return code, unless `keepRet` is set. -/
def EraValue.view (keepRet : Bool) (v : EraValue) : EraValue :=
  if keepRet then v else { v with ret := mpiSuccess }

namespace EraValue

variable (k : Bool) (v : EraValue)

@[simp] theorem view_bytes : (v.view k).bytes = v.bytes := by
  cases k <;> rfl

@[simp] theorem view_newDeadArray : (v.view k).newDeadArray = v.newDeadArray := by
  cases k <;> rfl

@[simp] theorem view_true : v.view true = v := rfl

end EraValue

/-- The parameters of the simulation. `Tr v S` says what is known of a value into
which exactly the contributions of `S` have gone. -/
structure Sim where
  T : RankTree
  strict : Prop
  keepRet : Bool
  Tr : EraValue → Finset ℕ → Prop

namespace Sim

variable (σ : Sim)

/-- The only value that is made up is `successValue`, for an agreement without
data. -/
def void (v : EraValue) : Prop := ¬ σ.strict ∧ v = successValue ∧ ∃ u S, σ.Tr u S ∧ u.dtCount = 0

abbrev Move : ConsensusState EraValue → ConsensusState EraValue → Prop :=
  ConsensusState.Move σ.T σ.void σ.strict

/-- `Tr` does not look at the return code and the newly dead, and combining values
unites their contributors. -/
structure Tracks (reduce : ℤ → ℤ → List UInt8 → List UInt8 → List UInt8) : Prop where
  forget : ∀ {v : EraValue} {S : Finset ℕ} (r : ℤ) (l : List ℕ), σ.Tr v S →
    σ.Tr { v with ret := r, newDeadArray := l } S
  combine : ∀ {cur v : EraValue} {S S' : Finset ℕ}, σ.Tr cur S → σ.Tr v S' → σ.Tr { cur with
        bytes := if 0 < cur.dtCount then reduce cur.operand cur.datatype v.bytes cur.bytes
          else cur.bytes
        minAid := if cur.minAid < v.minAid then v.minAid else cur.minAid
        maxAid := if v.maxAid < cur.maxAid then v.maxAid else cur.maxAid }
      (S' ∪ S)

end Sim

/-! ### Relations -/

section Relations

variable (σ : Sim) (s : ConsensusState EraValue) (p : ℕ) (posted gone : Bool)

def Recorded (m : EraMsg) : Prop :=
  match m.type with
  | .up => ∃ S, s.up m.src m.dst S ∧ σ.Tr m.value S
  | .down => s.down m.src m.dst (m.value.view σ.keepRet)
  | .resultRequest => s.ask m.src m.dst ∧ ∃ S, σ.Tr m.value S

/-- An agreement that the process `p` has not completed yet. -/
structure InfoRel (passed : Option Passed) (ci : AgreementInfo) : Prop where
  op : ci.opNotDefined = false
  comm : ci.comm = posted
  status : ci.status = .notContributed ↔ posted = false
  own : posted = true → p ∈ s.acc p
  gathered : ∀ c ∈ ci.gatheredInfo, c ∈ s.heard p
  tracks : σ.Tr ci.currentValue (s.acc p)
  early : ∀ y ∈ ci.earlyRequesters, ∃ S, s.up y p S
  undecided : ci.status ≠ .completed → s.dec p = none ∧ passed = none
  completed : ci.status = .completed → passed ≠ none
  record : ∀ d, passed = some d → s.dec p = some ((d.value ci.currentValue).view σ.keepRet)
  sentUp : ci.status = .broadcasting → ∃ w S, s.up p w S
  waiting : ci.waitingResFrom ≠ [] → σ.T.IsRoot (s.failed p) p ∧ ci.status ≠ .broadcasting

/-- What the process `p` stores for the agreement. After the record of a completed
agreement has been collected (`gone`), a late message may open the agreement again
(`ghost`); nobody contributes to it any more. -/
inductive SlotRel : Slot → Prop
  | fresh (hp : posted = false) (hg : gone = false) (hacc : s.acc p = ∅) (hheard : s.heard p = ∅)
      (hdec : s.dec p = none) : SlotRel { ci := none, passed := none }
  | ongoing {ci : AgreementInfo} {passed : Option Passed} (hg : gone = false)
      (h : InfoRel σ s p posted passed ci) : SlotRel { ci := some ci, passed }
  | done {v : EraValue} (hp : posted = true) (hg : gone = false)
      (hdec : s.dec p = some (v.view σ.keepRet)) : SlotRel { ci := none, passed := some (.own v) }
  | collected (hp : posted = true) (hg : gone = true) : SlotRel { ci := none, passed := none }
  | ghost {ci : AgreementInfo} (hp : posted = true) (hg : gone = true)
      (hop : ci.opNotDefined = false) (hstatus : ci.status = .notContributed)
      (hcomm : ci.comm = false) : SlotRel { ci := some ci, passed := none }

end Relations

/-- A call of the status machine as it should be: `eraCheckStatus` before the
decision, `restartAgreementFromMe` at the root with nothing asked for. -/
def CallOk (T : RankTree) (p : ℕ) : EraCall → Prop
  | .checkStatus status op => op = false ∧ (status = .notContributed ∨ status = .gathering)
  | .restart waiting failed => waiting = [] ∧ T.IsRoot {q | q ∈ failed} p

/-- The moves from `s` to `s'` are those of `p`. -/
structure Advance (σ : Sim) (p : ℕ) (s s' : ConsensusState EraValue) : Prop where
  moves : ReflTransGen σ.Move s s'
  dead : s'.dead = s.dead
  failed : s'.failed = s.failed
  acc : ∀ q ≠ p, s'.acc q = s.acc q
  heard : ∀ q ≠ p, s'.heard q = s.heard q
  dec : ∀ q ≠ p, s'.dec q = s.dec q
  up : ∀ c w S, s.up c w S → s'.up c w S
  ask : ∀ x h, s.ask x h → s'.ask x h
  down : ∀ h y v, s.down h y v → s'.down h y v

/-- The process that runs a handler is alive and knows its failures. -/
structure Situation (T : RankTree) (env : EraEnv) (s : ConsensusState EraValue) : Prop where
  mem : env.me ∈ T.mem
  alive : env.me ∉ s.dead
  failed : s.failed env.me = {q | q ∈ env.failed}
  self : env.me ∉ env.failed

/-- A handler that started at `s₀` and has come to `s`. -/
structure JobRel (σ : Sim) (env : EraEnv) (posted : Bool) (s₀ s : ConsensusState EraValue)
    (j : Job) : Prop where
  adv : Advance σ env.me s₀ s
  info : InfoRel σ s env.me posted j.passed j.ci
  tree : TreeInv σ.T {q | q ∈ env.failed} j.tree
  sent : ∀ m ∈ j.sent, m.src = env.me ∧ Recorded σ s m
  decided : ∀ v, j.decided = some v → s.dec env.me = some (v.view σ.keepRet)
  settled : ∀ u A S, s.settled u A S → s₀.settled u A S ∨
    ∃ v, j.decided = some v ∧ j.passed = some .current ∧ u = v.view σ.keepRet ∧
      A = {q | q ∈ σ.T.mem ∧ q ∉ s.dead} ∧ σ.Tr v S
  calls : ∀ c ∈ j.calls, CallOk σ.T env.me c

/-! ### Moves that only send -/

/-- Only messages are sent between `s` and `s'`. -/
structure Sends (σ : Sim) (s s' : ConsensusState EraValue) : Prop where
  moves : ReflTransGen σ.Move s s'
  dead : s'.dead = s.dead
  failed : s'.failed = s.failed
  acc : s'.acc = s.acc
  heard : s'.heard = s.heard
  dec : s'.dec = s.dec
  settled : s'.settled = s.settled
  up : ∀ c w S, s.up c w S → s'.up c w S
  ask : ∀ x h, s.ask x h → s'.ask x h
  down : ∀ h y v, s.down h y v → s'.down h y v

variable {σ : Sim} {env : EraEnv} {posted : Bool} {s₀ s s' s'' : ConsensusState EraValue}
  {p : ℕ} {j : Job}

theorem Sends.refl : Sends σ s s :=
  ⟨.refl, rfl, rfl, rfl, rfl, rfl, rfl, fun _ _ _ h => h, fun _ _ h => h, fun _ _ _ h => h⟩

theorem Sends.trans (h : Sends σ s s') (h' : Sends σ s' s'') : Sends σ s s'' where
  moves := h.moves.trans h'.moves
  dead := h'.dead.trans h.dead
  failed := h'.failed.trans h.failed
  acc := h'.acc.trans h.acc
  heard := h'.heard.trans h.heard
  dec := h'.dec.trans h.dec
  settled := h'.settled.trans h.settled
  up c w S hup := h'.up c w S (h.up c w S hup)
  ask x y hask := h'.ask x y (h.ask x y hask)
  down x y v hd := h'.down x y v (h.down x y v hd)

theorem Advance.refl : Advance σ p s s :=
  ⟨.refl, rfl, rfl, fun _ _ => rfl, fun _ _ => rfl, fun _ _ => rfl, fun _ _ _ h => h,
    fun _ _ h => h, fun _ _ _ h => h⟩

theorem Advance.trans (h : Advance σ p s s') (h' : Advance σ p s' s'') : Advance σ p s s'' where
  moves := h.moves.trans h'.moves
  dead := h'.dead.trans h.dead
  failed := h'.failed.trans h.failed
  acc q hq := (h'.acc q hq).trans (h.acc q hq)
  heard q hq := (h'.heard q hq).trans (h.heard q hq)
  dec q hq := (h'.dec q hq).trans (h.dec q hq)
  up c w S hup := h'.up c w S (h.up c w S hup)
  ask x y hask := h'.ask x y (h.ask x y hask)
  down x y v hd := h'.down x y v (h.down x y v hd)

theorem Sends.advance (h : Sends σ s s') : Advance σ p s s' :=
  ⟨h.moves, h.dead, h.failed, fun _ _ => by rw [h.acc], fun _ _ => by rw [h.heard],
    fun _ _ => by rw [h.dec], h.up, h.ask, h.down⟩

theorem Recorded.mono {m : EraMsg} (h : Recorded σ s m)
    (hup : ∀ c w S, s.up c w S → s'.up c w S) (hask : ∀ x h, s.ask x h → s'.ask x h)
    (hdown : ∀ h y v, s.down h y v → s'.down h y v) : Recorded σ s' m := by
  unfold Recorded at h ⊢
  cases hm : m.type with
  | up =>
    rw [hm] at h
    obtain ⟨S, hS, hT⟩ := h
    exact ⟨S, hup _ _ _ hS, hT⟩
  | down =>
    rw [hm] at h
    exact hdown _ _ _ h
  | resultRequest =>
    rw [hm] at h
    exact ⟨hask _ _ h.1, h.2⟩

/-- The state moves on around the process `p`. -/
structure Around (σ : Sim) (p : ℕ) (s s' : ConsensusState EraValue) : Prop where
  acc : s'.acc p = s.acc p
  heard : s'.heard p = s.heard p
  dec : s'.dec p = s.dec p
  up : ∀ c w S, s.up c w S → s'.up c w S
  root : σ.T.IsRoot (s.failed p) p → σ.T.IsRoot (s'.failed p) p

theorem InfoRel.around {passed : Option Passed} {ci : AgreementInfo}
    (h : InfoRel σ s p posted passed ci) (hs : Around σ p s s') :
    InfoRel σ s' p posted passed ci where
  op := h.op
  comm := h.comm
  status := h.status
  own := by
    rw [hs.acc]
    exact h.own
  gathered := by
    rw [hs.heard]
    exact h.gathered
  tracks := by
    rw [hs.acc]
    exact h.tracks
  early y hy := (h.early y hy).imp fun S hS => hs.up _ _ _ hS
  undecided := by
    rw [hs.dec]
    exact h.undecided
  completed := h.completed
  record := by
    rw [hs.dec]
    exact h.record
  sentUp hst := by
    obtain ⟨w, S, hS⟩ := h.sentUp hst
    exact ⟨w, S, hs.up _ _ _ hS⟩
  waiting hw := ⟨hs.root (h.waiting hw).1, (h.waiting hw).2⟩

theorem Sends.around (h : Sends σ s s') : Around σ p s s' :=
  ⟨by rw [h.acc], by rw [h.heard], by rw [h.dec], h.up, by rw [h.failed]; exact id⟩

theorem JobRel.sends (h : JobRel σ env posted s₀ s j) (hs : Sends σ s s') :
    JobRel σ env posted s₀ s' j where
  adv := h.adv.trans hs.advance
  info := h.info.around hs.around
  tree := h.tree
  sent m hm := ⟨(h.sent m hm).1, (h.sent m hm).2.mono hs.up hs.ask hs.down⟩
  decided := by
    rw [hs.dec]
    exact h.decided
  settled := by
    rw [hs.settled, hs.dead]
    exact h.settled
  calls := h.calls

theorem Situation.advance (h : Situation σ.T env s) (ha : Advance σ p s s') :
    Situation σ.T env s' where
  mem := h.mem
  alive := ha.dead ▸ h.alive
  failed := ha.failed ▸ h.failed
  self := h.self

theorem Sends.batch {P : ConsensusState EraValue → ℕ → Prop}
    {R : ℕ → ConsensusState EraValue → Prop}
    (hstep : ∀ s d, P s d → ∃ s', Sends σ s s' ∧ R d s')
    (hP : ∀ s s' d, Sends σ s s' → P s d → P s' d)
    (hR : ∀ s s' d, Sends σ s s' → R d s → R d s')
    (l : List ℕ) (h : ∀ d ∈ l, P s d) : ∃ s', Sends σ s s' ∧ ∀ d ∈ l, R d s' := by
  induction l generalizing s with
  | nil => exact ⟨s, Sends.refl, by simp⟩
  | cons d l ih =>
    obtain ⟨s₁, h₁, hd⟩ := hstep s d (h d (by simp))
    obtain ⟨s₂, h₂, hl⟩ := ih fun e he => hP s s₁ e h₁ (h e (by simp [he]))
    refine ⟨s₂, h₁.trans h₂, fun e he => ?_⟩
    rcases mem_cons.1 he with rfl | he
    · exact hR s₁ s₂ e h₂ hd
    · exact hl e he

theorem InfoRel.posted_eq_true {passed : Option Passed} {ci : AgreementInfo}
    (h : InfoRel σ s p posted passed ci) (hst : ci.status ≠ .notContributed) :
    posted = true := by
  cases posted with
  | true => rfl
  | false => exact absurd (h.status.2 rfl) hst

theorem Sends.passUp (hsit : Situation σ.T env s) (hdec : s.dec env.me = none)
    (hacc : env.me ∈ s.acc env.me) {r : ℕ}
    (hpar : σ.T.IsParent {q | q ∈ env.failed} env.me r) (hr : r ≠ env.me)
    (hkids : (∃ w S, s.up env.me w S) ∨
      ∀ c, σ.T.IsChild {q | q ∈ env.failed} env.me c → c ∈ s.heard env.me) :
    ∃ s', Sends σ s s' ∧ s'.up env.me r (s.acc env.me) := by
  rw [← hsit.failed] at hpar hkids
  refine ⟨{ s with up := _ },
    ⟨.single (.sendUp env.me r hsit.alive hsit.mem hdec hacc hpar hr hkids), rfl, rfl, rfl, rfl,
      rfl, rfl, fun _ _ _ h => .inl h, fun _ _ h => h, fun _ _ _ h => h⟩,
    .inr ⟨rfl, rfl, rfl⟩⟩

theorem Sends.downs {v : EraValue} (hp : p ∉ s.dead) (hv : s.dec p = some v) (l : List ℕ)
    (hl : ∀ y ∈ l, σ.T.IsChild (s.failed p) p y ∨ (∃ S, s.up y p S) ∨ s.ask y p) :
    ∃ s', Sends σ s s' ∧ ∀ y ∈ l, s'.down p y v := by
  refine Sends.batch
    (P := fun s y => (p ∉ s.dead ∧ s.dec p = some v) ∧
      (σ.T.IsChild (s.failed p) p y ∨ (∃ S, s.up y p S) ∨ s.ask y p))
    (R := fun y s => s.down p y v) ?_ ?_ ?_ l (fun y hy => ⟨⟨hp, hv⟩, hl y hy⟩)
  · rintro s y ⟨⟨hp, hv⟩, hy⟩
    refine ⟨{ s with down := _ }, ⟨.single (.sendDown p y v hp hv hy), rfl, rfl, rfl, rfl, rfl,
      rfl, fun _ _ _ h => h, fun _ _ h => h, fun _ _ _ h => .inl h⟩, .inr ⟨rfl, rfl, rfl⟩⟩
  · rintro s s' y hs ⟨⟨hp, hv⟩, hy⟩
    refine ⟨⟨hs.dead ▸ hp, hs.dec ▸ hv⟩, ?_⟩
    rw [hs.failed]
    rcases hy with hy | ⟨S, hy⟩ | hy
    · exact .inl hy
    · exact .inr (.inl ⟨S, hs.up _ _ _ hy⟩)
    · exact .inr (.inr (hs.ask _ _ hy))
  · intro s s' y hs h
    exact hs.down _ _ _ h

theorem Sends.asks (hp : p ∉ s.dead) (hm : p ∈ σ.T.mem) (hroot : σ.T.IsRoot (s.failed p) p)
    (l : List ℕ) (hl : ∀ y ∈ l, σ.T.IsChild (s.failed p) p y) :
    ∃ s', Sends σ s s' ∧ ∀ y ∈ l, s'.ask p y := by
  refine Sends.batch
    (P := fun s y => p ∉ s.dead ∧ σ.T.IsRoot (s.failed p) p ∧ σ.T.IsChild (s.failed p) p y)
    (R := fun y s => s.ask p y) ?_ ?_ ?_ l (fun y hy => ⟨hp, hroot, hl y hy⟩)
  · rintro s y ⟨hp, hroot, hy⟩
    refine ⟨{ s with ask := _ }, ⟨.single (.sendAsk p y hp hm hroot hy), rfl, rfl, rfl, rfl, rfl,
      rfl, fun _ _ _ h => h, fun _ _ h => .inl h, fun _ _ _ h => h⟩, .inr ⟨rfl, rfl⟩⟩
  · rintro s s' y hs ⟨hp, hroot, hy⟩
    rw [hs.failed]
    exact ⟨hs.dead ▸ hp, hroot, hy⟩
  · intro s s' y hs h
    exact hs.ask _ _ h

/-! ### The tree -/

theorem Job.parent_spec (hsit : Situation σ.T env s)
    (ht : TreeInv σ.T {q | q ∈ env.failed} j.tree) :
    ∃ r t, j.parent env = .ok (r, { j with tree := t }) ∧
      σ.T.IsParent {q | q ∈ env.failed} env.me r ∧
      Repaired σ.T {q | q ∈ env.failed} env.me t := by
  obtain ⟨r, t, h1, h2, h3⟩ := eraParent_spec ht hsit.mem hsit.self
  refine ⟨r, t, ?_, h2, h3⟩
  rw [parent, h1]
  rfl

theorem Job.childrenWhile_spec (ok : ℕ → Bool) (hsit : Situation σ.T env s)
    (ht : TreeInv σ.T {q | q ∈ env.failed} j.tree) :
    ∃ rs all t, j.childrenWhile env ok = .ok (rs, all, { j with tree := t }) ∧
      Children σ.T env.failed env.me j.tree t rs all ∧ (all = true → ∀ r ∈ rs, ok r) := by
  obtain ⟨rs, all, t, h1, h2, h3, -⟩ := eraChildrenWhile_spec ok ht hsit.mem hsit.self
  refine ⟨rs, all, t, ?_, h2, h3⟩
  rw [childrenWhile, h1]
  rfl

theorem Job.children_spec (hsit : Situation σ.T env s)
    (ht : TreeInv σ.T {q | q ∈ env.failed} j.tree) :
    ∃ rs t, j.children env = .ok (rs, { j with tree := t }) ∧
      Children σ.T env.failed env.me j.tree t rs true := by
  obtain ⟨rs, t, h1, h2⟩ := eraChildren_spec ht hsit.mem hsit.self
  refine ⟨rs, t, ?_, h2⟩
  rw [children, h1]
  rfl

theorem JobRel.setTree (h : JobRel σ env posted s₀ s j) {t : EraTree}
    (ht : TreeInv σ.T {q | q ∈ env.failed} t) :
    JobRel σ env posted s₀ s { j with tree := t } :=
  { h with tree := ht }

theorem JobRel.send (h : JobRel σ env posted s₀ s j) (type : MsgType) (dsts : List ℕ)
    (value : EraValue) (ack : List ℕ)
    (hrec : ∀ d ∈ dsts, Recorded σ s { type, src := env.me, dst := d, value, ack }) :
    JobRel σ env posted s₀ s (j.send env type dsts value ack) :=
  { h with
    sent := fun m hm => by
      rcases mem_append.1 hm with hm | hm
      · exact h.sent m hm
      · obtain ⟨d, hd, rfl⟩ := List.mem_map.1 hm
        exact ⟨rfl, hrec d hd⟩ }

theorem JobRel.call (h : JobRel σ env posted s₀ s j) {c : EraCall} (hc : CallOk σ.T env.me c) :
    JobRel σ env posted s₀ s (j.call c) :=
  { h with
    calls := fun d hd => by
      rcases mem_append.1 hd with hd | hd
      · exact h.calls d hd
      · exact mem_singleton.1 hd ▸ hc }

/-! ### Deciding -/

theorem foldl_erase_subset (rs l : List ℕ) : rs.foldl List.erase l ⊆ l := by
  induction rs generalizing l with
  | nil => exact fun _ h => h
  | cons r rs ih => exact fun x hx => mem_of_mem_erase (ih (l.erase r) hx)

theorem sendDecision_spec {value : EraValue} (h : JobRel σ env posted s₀ s j)
    (hsit : Situation σ.T env s) (hdec : s.dec env.me = some (value.view σ.keepRet)) :
    ∃ s' j', sendDecision env value j = .ok j' ∧ JobRel σ env posted s₀ s' j' := by
  obtain ⟨rs, t, hch, hkids⟩ := children_spec hsit h.tree
  obtain ⟨s₁, hs₁, hd₁⟩ := Sends.downs hsit.alive hdec rs
    fun y hy => .inl (hsit.failed ▸ hkids.child y hy)
  obtain ⟨s₂, hs₂, hd₂⟩ := Sends.downs (σ := σ) (hs₁.dead ▸ hsit.alive) (hs₁.dec ▸ hdec)
    (rs.foldl List.erase j.ci.earlyRequesters) fun y hy => .inr (.inl (by
      obtain ⟨S, hS⟩ := h.info.early y (foldl_erase_subset _ _ hy)
      exact ⟨S, hs₁.up _ _ _ hS⟩))
  have h₂ := (h.setTree hkids.inv).sends (hs₁.trans hs₂)
  have h₃ : JobRel σ env posted s₀ s₂
      { j with
        tree := t
        ci := { j.ci with earlyRequesters := rs.foldl List.erase j.ci.earlyRequesters } } :=
    { h₂ with
      info :=
        { h₂.info with
          early := fun y hy => h₂.info.early y (foldl_erase_subset _ _ hy) } }
  have h₄ := h₃.send .down rs value [] fun d hd => hs₂.down _ _ _ (hd₁ d hd)
  refine ⟨s₂, _, ?_, h₄.send .down (rs.foldl List.erase j.ci.earlyRequesters) value [] hd₂⟩
  rw [sendDecision, hch]
  rfl

theorem JobRel.settled_of_undecided (h : JobRel σ env posted s₀ s j)
    (hdec : s.dec env.me = none) {u : EraValue} {A : Set ℕ} {S : Finset ℕ}
    (hs : s.settled u A S) : s₀.settled u A S := by
  rcases h.settled u A S hs with hs | ⟨v, hv, -⟩
  · exact hs
  · have := h.decided v hv
    simp [hdec] at this

/-- A decision that is allowed to come is recorded and sent on. -/
theorem eraDecide_open (decision : Passed) {settled : EraValue → Set ℕ → Finset ℕ → Prop}
    (h : JobRel σ env true s₀ s j) (hsit : Situation σ.T env s) (hstatus : j.ci.status ≠ .completed)
    (hmove : σ.Move s { s with
      dec := update s.dec env.me (some ((decision.value j.ci.currentValue).view σ.keepRet))
      settled := settled })
    (hsettled : ∀ u A S, settled u A S → s₀.settled u A S ∨ decision = .current ∧
      u = j.ci.currentValue.view σ.keepRet ∧ A = {q | q ∈ σ.T.mem ∧ q ∉ s.dead} ∧
        S = s.acc env.me) :
    ∃ s' j', eraDecide env decision j = .ok j' ∧ JobRel σ env true s₀ s' j' := by
  have hopen := h.info.undecided hstatus
  have hcomm : j.ci.comm = true := h.info.comm
  set v := (decision.value j.ci.currentValue).view σ.keepRet
  set s₁ : ConsensusState EraValue :=
    { s with dec := update s.dec env.me (some v), settled := settled }
  have hadv : Advance σ env.me s s₁ :=
    ⟨.single hmove, rfl, rfl, fun _ _ => rfl, fun _ _ => rfl,
      fun q hq => update_of_ne hq _ _, fun _ _ _ h => h, fun _ _ h => h, fun _ _ _ h => h⟩
  have hdec : s₁.dec env.me = some v := update_self ..
  have h₁ : JobRel σ env true s₀ s₁
      { j with
        ci := { j.ci with status := .completed, opNotDefined := false }
        passed := some decision
        decided := some (decision.value j.ci.currentValue) } :=
    { adv := h.adv.trans hadv
      info :=
        { h.info with
          op := rfl
          status := by simp
          undecided := by simp
          completed := by simp
          record := by
            rintro d hd
            obtain rfl := Option.some.inj hd
            exact hdec
          sentUp := by simp
          waiting := fun hw => ⟨(h.info.waiting hw).1, by simp⟩ }
      tree := h.tree
      sent := fun m hm => ⟨(h.sent m hm).1,
        (h.sent m hm).2.mono (fun _ _ _ h => h) (fun _ _ h => h) (fun _ _ _ h => h)⟩
      decided := fun u hu => by
        obtain rfl := Option.some.inj hu
        exact hdec
      settled := fun u A S hu => by
        rcases hsettled u A S hu with hu | ⟨rfl, rfl, rfl, rfl⟩
        · exact .inl hu
        · exact .inr ⟨_, rfl, rfl, rfl, rfl, h.info.tracks⟩
      calls := h.calls }
  obtain ⟨s', j', hsend, h'⟩ := sendDecision_spec h₁ (hsit.advance hadv) hdec
  refine ⟨s', j', ?_, h'⟩
  rw [← hsend]
  unfold eraDecide
  simp [hopen.2, hasStatus, hstatus, hcomm]

theorem eraDecide_root (h : JobRel σ env true s₀ s j) (hsit : Situation σ.T env s)
    (hstatus : j.ci.status = .gathering)
    (hroot : σ.T.IsRoot {q | q ∈ env.failed} env.me)
    (hkids : ∀ c, σ.T.IsChild {q | q ∈ env.failed} env.me c → c ∈ s.heard env.me) :
    ∃ s' j', eraDecide env .current j = .ok j' ∧ JobRel σ env true s₀ s' j' := by
  have hopen := h.info.undecided (by simp [hstatus])
  apply eraDecide_open .current h hsit (by simp [hstatus])
  · exact .settle env.me _ hsit.alive hsit.mem hopen.1 (h.info.own rfl) (hsit.failed ▸ hroot)
      (by rw [hsit.failed]; exact hkids)
  · rintro u A S (hu | ⟨rfl, rfl, rfl⟩)
    · exact .inl (h.settled_of_undecided hopen.1 hu)
    · exact .inr ⟨rfl, rfl, rfl, rfl⟩

theorem eraDecide_completed {decision d : Passed} (hd : j.passed = some d)
    (hstatus : j.ci.status = .completed) (hop : j.ci.opNotDefined = false) :
    eraDecide env decision j =
      if (d.value j.ci.currentValue).ret = (decision.value j.ci.currentValue).ret ∧
          (d.value j.ci.currentValue).newDeadArray.length =
            (decision.value j.ci.currentValue).newDeadArray.length then .ok j
      else .error .decideMismatch := by
  unfold eraDecide
  by_cases heq : (d.value j.ci.currentValue).ret = (decision.value j.ci.currentValue).ret ∧
      (d.value j.ci.currentValue).newDeadArray.length =
        (decision.value j.ci.currentValue).newDeadArray.length
  · simp [hd, hasStatus, hstatus, hop, heq]
    rfl
  · simp only [hd, map_some, any_some, heq, not_false_eq_true, decide_true, if_true, if_false]
    rfl

theorem eraDecide_own {value : EraValue} {r : ℕ} (h : JobRel σ env true s₀ s j)
    (hsit : Situation σ.T env s) (hdown : s.down r env.me (value.view σ.keepRet))
    (hlate : σ.strict → r ∉ env.failed) :
    Outcome (fun e => e = .decideMismatch ∧ ∃ d, j.passed = some d ∧
        ¬ ((d.value j.ci.currentValue).ret = value.ret ∧
          (d.value j.ci.currentValue).newDeadArray.length = value.newDeadArray.length))
      (fun j' => ∃ s', JobRel σ env true s₀ s' j') (eraDecide env (.own value) j) := by
  have hcomm : j.ci.comm = true := h.info.comm
  by_cases hstatus : j.ci.status = .completed
  · obtain ⟨d, hd⟩ := ne_none_iff_exists'.1 (h.info.completed hstatus)
    rw [eraDecide_completed hd hstatus h.info.op]
    split
    · exact ⟨s, h⟩
    · next heq => exact ⟨rfl, d, hd, heq⟩
  · have hopen := h.info.undecided hstatus
    obtain ⟨s', j', heq, h'⟩ := eraDecide_open (.own value) h hsit hstatus
      (.accept env.me r _ hsit.alive hopen.1 hdown (by rw [hsit.failed]; exact hlate))
      fun u A S hu => .inl (h.settled_of_undecided hopen.1 hu)
    rw [heq]
    exact ⟨s', h'⟩

/-! ### The status machine -/

theorem eraUpdateReturnValue_fields (env : EraEnv) (ci : AgreementInfo) (acked : Option (List ℕ)) :
    ∃ r l, eraUpdateReturnValue env ci acked = { ci.setRet r with acked := l } := by
  unfold eraUpdateReturnValue
  split
  · exact ⟨ci.currentValue.ret, ci.acked, rfl⟩
  · cases acked with
    | some acked =>
      dsimp only
      split
      · exact ⟨ci.currentValue.ret, acked, rfl⟩
      · split
        · exact ⟨_, _, rfl⟩
        · split
          · exact ⟨_, _, rfl⟩
          · exact ⟨ci.currentValue.ret, ci.acked, rfl⟩
    | none =>
      dsimp only
      split
      · split
        · exact ⟨_, _, rfl⟩
        · exact ⟨ci.currentValue.ret, ci.acked, rfl⟩
      · exact ⟨ci.currentValue.ret, ci.acked, rfl⟩

variable (htr : σ.Tracks env.reduce)

include htr

theorem InfoRel.setRet {passed : Option Passed} {ci : AgreementInfo} {r : ℤ} {l : List ℕ}
    (h : InfoRel σ s p posted passed ci)
    (hp : σ.keepRet = true → passed = some .current → ci.currentValue.ret = r) :
    InfoRel σ s p posted passed { ci.setRet r with acked := l } :=
  { h with
    tracks := htr.forget r ci.currentValue.newDeadArray h.tracks
    record := fun d hd => by
      rw [h.record d hd]
      cases d with
      | own v => rfl
      | current =>
        cases hk : σ.keepRet with
        | true =>
          obtain rfl := hp hk hd
          rfl
        | false => rfl }

theorem eraCheckStatus_spec (h : JobRel σ env posted s₀ s j) (hsit : Situation σ.T env s)
    (hstatus : j.ci.status = .notContributed ∨ j.ci.status = .gathering) :
    ∃ s' j', eraCheckStatus env j = .ok j' ∧ JobRel σ env posted s₀ s' j' := by
  have hop := h.info.op
  set c := EraCall.checkStatus j.ci.status j.ci.opNotDefined with hc
  have hcall : JobRel σ env posted s₀ s (j.call c) := h.call ⟨hop, hstatus⟩
  unfold eraCheckStatus
  rcases hstatus with hstatus | hstatus
  · refine ⟨s, _, ?_, hcall⟩
    have h1 : (j.call c).ci.hasStatus .notContributed = true := by
      simp [call, hasStatus, hstatus, hop]
    simp only [← hc, h1, if_true]
    rfl
  · have h1 : (j.call c).ci.hasStatus .notContributed = false := by
      simp [call, hasStatus, hstatus]
    have h2 : (j.call c).ci.hasStatus .gathering = true := by
      simp [call, hasStatus, hstatus, hop]
    obtain ⟨r₁, t₁, hpar₁, -, hrep₁⟩ := parent_spec hsit hcall.tree
    obtain ⟨rs, all, t₂, hch, hkids, hall⟩ := childrenWhile_spec
      (j := { j.call c with tree := t₁ }) (fun r => decide (r ∈ j.ci.gatheredInfo)) hsit
      hrep₁.treeInv
    have h₂ := hcall.setTree hkids.inv
    have hch' : ({ j.call c with tree := t₁ } : Job).childrenWhile env
        (fun r => decide (r ∈ (j.call c).ci.gatheredInfo)) =
          .ok (rs, all, { j.call c with tree := t₂ }) := hch
    simp only [← hc, h1, h2, if_true, false_eq_true, if_false, hpar₁, ok_bind, hch']
    cases all with
    | false => exact ⟨s, _, rfl, h₂⟩
    | true =>
      simp only [Bool.not_true, false_eq_true, if_false]
      obtain rfl : posted = true := h.info.posted_eq_true (by simp [hstatus])
      have hopen := h.info.undecided (by simp [hstatus])
      have hheard : ∀ d, σ.T.IsChild {q | q ∈ env.failed} env.me d → d ∈ s.heard env.me := by
        intro d hd
        have hmem := hall rfl d (hkids.complete hrep₁ rfl d hd)
        exact h.info.gathered d (of_decide_eq_true hmem)
      obtain ⟨r, l, hret⟩ := eraUpdateReturnValue_fields env j.ci none
      have h₃ : JobRel σ env true s₀ s
          { j.call c with tree := t₂, ci := eraUpdateReturnValue env j.ci none } :=
        { h₂ with
          info := by
            rw [hret]
            exact h.info.setRet htr fun _ hp => by simp [hopen.2] at hp }
      obtain ⟨r₂, t₃, hpar₂, hisp, hrep₃⟩ := parent_spec hsit h₃.tree
      have h₄ := h₃.setTree hrep₃.treeInv
      have hpar₂' : parent env
          { j.call c with tree := t₂, ci := eraUpdateReturnValue env (j.call c).ci none } =
            .ok (r₂, { j.call c with tree := t₃, ci := eraUpdateReturnValue env j.ci none }) :=
        hpar₂
      simp only [hpar₂', ok_bind]
      have hst : (eraUpdateReturnValue env j.ci none).status = .gathering := by
        rw [hret]
        exact hstatus
      by_cases hr₂ : r₂ = env.me
      · subst hr₂
        rw [if_pos rfl]
        exact eraDecide_root h₄ hsit hst hisp hheard
      · rw [if_neg hr₂]
        obtain ⟨s₁, hs₁, hup⟩ := Sends.passUp hsit hopen.1 (h.info.own rfl) hisp hr₂ (.inr hheard)
        have hacc : s₁.acc = s.acc := hs₁.acc
        have h₅ := h₄.sends hs₁
        have h₆ := h₅.send .up [r₂] (eraUpdateReturnValue env j.ci none).currentValue
          (eraUpdateReturnValue env j.ci none).acked fun d hd => by
            obtain rfl := mem_singleton.1 hd
            exact ⟨_, hup, by simpa only [hacc] using h₅.info.tracks⟩
        refine ⟨s₁, _, rfl, { h₆ with info := { h₆.info with
          status := ?_, undecided := ?_, completed := ?_, sentUp := ?_, waiting := ?_ } }⟩
        · simp
        · exact fun _ => h₆.info.undecided (by rw [send]; simp [hst])
        · simp
        · exact fun _ => ⟨r₂, _, hup⟩
        · intro hw
          have hroot := (h₆.info.waiting hw).1
          rw [hs₁.failed, hsit.failed] at hroot
          exact absurd (hisp.unique hroot) hr₂

omit htr in
theorem requestResult_spec (h : JobRel σ env posted s₀ s j) (hsit : Situation σ.T env s)
    (hroot : σ.T.IsRoot {q | q ∈ env.failed} env.me) (hst : j.ci.status = .gathering) {r : ℕ}
    (hr : σ.T.IsChild {q | q ∈ env.failed} env.me r) :
    ∃ s', Sends σ s s' ∧ JobRel σ env posted s₀ s' (requestResult env j r) := by
  rw [← hsit.failed] at hroot hr
  obtain ⟨s₁, hs₁, hask⟩ := Sends.asks hsit.alive hsit.mem hroot [r] (by simpa using hr)
  have h₁ := h.sends hs₁
  have h₂ := h₁.send .resultRequest [r] j.ci.currentValue [] fun d hd =>
    ⟨hask d hd, _, h₁.info.tracks⟩
  have hst' : j.ci.status ≠ .broadcasting := by simp [hst]
  refine ⟨s₁, hs₁, { h₂ with info := { h₂.info with waiting := fun _ => ⟨?_, hst'⟩ } }⟩
  rw [hs₁.failed]
  exact hroot

omit htr in
theorem requests_spec {f : Job → ℕ → Job}
    (hf : ∀ j r, f j r = j ∨ f j r = requestResult env j r) (rs : List ℕ)
    (h : JobRel σ env posted s₀ s j) (hsit : Situation σ.T env s)
    (hroot : σ.T.IsRoot {q | q ∈ env.failed} env.me) (hst : j.ci.status = .gathering)
    (hrs : ∀ r ∈ rs, σ.T.IsChild {q | q ∈ env.failed} env.me r) :
    ∃ s', Situation σ.T env s' ∧ JobRel σ env posted s₀ s' (rs.foldl f j) ∧
      (rs.foldl f j).ci.status = .gathering := by
  induction rs generalizing s j with
  | nil => exact ⟨s, hsit, h, hst⟩
  | cons r rs ih =>
    have hrs' : ∀ r ∈ rs, σ.T.IsChild {q | q ∈ env.failed} env.me r :=
      fun d hd => hrs d (by simp [hd])
    rw [foldl_cons]
    rcases hf j r with hjr | hjr
    · rw [hjr]
      exact ih h hsit hst hrs'
    · rw [hjr]
      obtain ⟨s₁, hs₁, h₁⟩ := requestResult_spec h hsit hroot hst (hrs r (by simp))
      exact ih h₁ (hsit.advance (hs₁.advance (p := env.me))) hst hrs'

theorem restartAgreementFromMe_spec (h : JobRel σ env posted s₀ s j)
    (hsit : Situation σ.T env s) (hst : j.ci.status = .broadcasting)
    (hroot : σ.T.IsRoot {q | q ∈ env.failed} env.me) :
    ∃ s' j', restartAgreementFromMe env j = .ok j' ∧ JobRel σ env posted s₀ s' j' := by
  obtain rfl : posted = true := h.info.posted_eq_true (by simp [hst])
  have hwait : j.ci.waitingResFrom = [] := by
    by_contra hw
    exact (h.info.waiting hw).2 hst
  have hopen := h.info.undecided (by simp [hst])
  set c := EraCall.restart j.ci.waitingResFrom env.failed with hc
  have hcall : JobRel σ env true s₀ s (j.call c) := h.call ⟨hwait, hroot⟩
  have h₁ : JobRel σ env true s₀ s
      { j.call c with ci := { j.ci with status := .gathering, opNotDefined := false } } :=
    { hcall with
      info :=
        { hcall.info with
          op := rfl
          status := by simp
          undecided := fun _ => hopen
          completed := by simp
          sentUp := by simp
          waiting := fun hw => absurd hwait hw } }
  obtain ⟨rs, t, hch, hkids⟩ := children_spec hsit h₁.tree
  obtain ⟨s₂, hsit₂, h₂, hst₂⟩ := requests_spec (fun j r => .inr rfl) rs
    (h₁.setTree hkids.inv) hsit hroot rfl hkids.child
  obtain ⟨s₃, j₃, hcheck, h₃⟩ := eraCheckStatus_spec htr h₂ hsit₂ (.inr hst₂)
  refine ⟨s₃, j₃, ?_, h₃⟩
  have hch' : children env
      { j.call c with
        ci := { (j.call c).ci with status := .gathering, opNotDefined := false } } = _ := hch
  have hcomm : (!(j.call c).ci.comm) = false := by
    have : (j.call c).ci.comm = true := h.info.comm
    simp [this]
  have hwait' : ((j.call c).ci.waitingResFrom ≠ []) = False := by
    have : (j.call c).ci.waitingResFrom = [] := hwait
    simp [this]
  unfold restartAgreementFromMe
  simp only [← hc, hcomm, hwait', false_eq_true, if_false, hch', ok_bind]
  exact hcheck

theorem eraMarkProcessFailed_spec {rank : ℕ} (h : JobRel σ env posted s₀ s j)
    (hsit : Situation σ.T env s) (hne : env.me ≠ rank)
    (hp : σ.keepRet = true → j.passed = some .current → j.ci.currentValue.ret = mpiErrProcFailed) :
    ∃ s' j', eraMarkProcessFailed env rank j = .ok j' ∧ JobRel σ env posted s₀ s' j' := by
  have hself : (j.ci.comm && decide (env.me = rank)) = false := by simp [hne]
  set j₁ : Job := if j.ci.contributed then { j with ci := j.ci.setRet mpiErrProcFailed } else j
    with hj₁
  have h₁ : JobRel σ env posted s₀ s j₁ := by
    rw [hj₁]
    split
    · exact { h with info := h.info.setRet htr hp }
    · exact h
  unfold eraMarkProcessFailed
  simp only [hself, false_eq_true, if_false, ← hj₁]
  clear_value j₁
  clear h hp hself hj₁
  have hop := h₁.info.op
  have hhas : ∀ st, j₁.ci.hasStatus st = decide (j₁.ci.status = st) := by
    intro st
    simp [hasStatus, hop]
  simp only [hhas, decide_eq_true_eq]
  by_cases hb : j₁.ci.status = .broadcasting
  · rw [if_pos hb]
    obtain rfl : posted = true := h₁.info.posted_eq_true (by simp [hb])
    by_cases hw : j₁.ci.waitingDownFrom = some rank
    · obtain ⟨r, t, hpar, hisp, hrep⟩ := parent_spec hsit h₁.tree
      have h₂ := h₁.setTree hrep.treeInv
      simp only [hw, if_true, hpar, ok_bind]
      by_cases hr : r = env.me
      · subst hr
        rw [if_pos rfl]
        exact restartAgreementFromMe_spec htr h₂ hsit hb hisp
      · rw [if_neg hr]
        obtain ⟨s₁, hs₁, hup⟩ := Sends.passUp hsit (h₁.info.undecided (by simp [hb])).1
          (h₁.info.own rfl) hisp hr (.inl (h₁.info.sentUp hb))
        have h₃ := h₂.sends hs₁
        have hacc : s₁.acc = s.acc := hs₁.acc
        have h₄ : JobRel σ env true s₀ s₁
            { j₁ with tree := t, ci := { j₁.ci with waitingDownFrom := some r } } :=
          { h₃ with info := { h₃.info with } }
        refine ⟨s₁, _, rfl, h₄.send .up [r] j₁.ci.currentValue j₁.ci.acked fun d hd => ?_⟩
        obtain rfl := mem_singleton.1 hd
        exact ⟨_, hup, by simpa only [hacc] using h₃.info.tracks⟩
    · simp only [hw, if_false]
      exact ⟨s, j₁, rfl, h₁⟩
  · simp only [hb, if_false]
    by_cases hg : j₁.ci.status = .gathering
    · rw [if_pos hg]
      by_cases hw : rank ∈ j₁.ci.waitingResFrom
      · have hroot := (h₁.info.waiting (ne_nil_of_mem hw)).1
        rw [hsit.failed] at hroot
        have h₂ : JobRel σ env posted s₀ s
            { j₁ with ci := { j₁.ci with waitingResFrom := j₁.ci.waitingResFrom.erase rank } } :=
          { h₁ with
            info :=
              { h₁.info with
                waiting := fun _ => h₁.info.waiting (ne_nil_of_mem hw) } }
        obtain ⟨rs, t, hch, hkids⟩ := children_spec hsit h₂.tree
        have hf : ∀ j r, requestNewResult env j r = j ∨
            requestNewResult env j r = requestResult env j r := by
          intro j r
          rw [requestNewResult]
          split
          · exact .inl rfl
          · exact .inr rfl
        obtain ⟨s₃, hsit₃, h₃, hst₃⟩ := requests_spec hf rs (h₂.setTree hkids.inv) hsit hroot hg
          hkids.child
        simp only [hw, if_true, hch, ok_bind]
        exact eraCheckStatus_spec htr h₃ hsit₃ (.inr hst₃)
      · simp only [hw, if_false]
        exact eraCheckStatus_spec htr h₁ hsit (.inr hg)
    · simp only [hg, if_false]
      exact ⟨s, j₁, rfl, h₁⟩

/-! ### Combining contributions -/

omit htr in
theorem eraMergeNewDeadList_fields (ci : AgreementInfo) (l : List ℕ) :
    ∃ l', eraMergeNewDeadList ci l = ci.setNewDead l' := by
  unfold eraMergeNewDeadList
  dsimp only
  split
  · exact ⟨_, rfl⟩
  · exact ⟨ci.currentValue.newDeadArray, rfl⟩

theorem eraCombineAgreementValues_fields {ci : AgreementInfo} {value : EraValue}
    {S S' : Finset ℕ} (hv : σ.Tr value S')
    (hcur : ci.opNotDefined = true ∧ S = ∅ ∨ ci.opNotDefined = false ∧ σ.Tr ci.currentValue S) :
    ∃ v, eraCombineAgreementValues env ci value =
      { ci with opNotDefined := false, currentValue := v } ∧ σ.Tr v (S' ∪ S) := by
  unfold eraCombineAgreementValues
  rcases hcur with ⟨hop, rfl⟩ | ⟨hop, hcur⟩
  · simp only [hop, if_true]
    obtain ⟨l, hl⟩ := eraMergeNewDeadList_fields
      { ci with
        opNotDefined := false
        currentValue :=
          { ci.currentValue with
            operand := value.operand, dtCount := value.dtCount, datatype := value.datatype
            bytes := value.bytes, ret := value.ret, minAid := value.minAid
            maxAid := value.maxAid } } value.newDeadArray
    refine ⟨{ value with newDeadArray := l }, hl, ?_⟩
    rw [Finset.union_empty]
    exact htr.forget value.ret l hv
  · simp only [hop, false_eq_true, if_false]
    obtain ⟨l, hl⟩ := eraMergeNewDeadList_fields
      { ci with
        currentValue :=
          { ci.currentValue with
            bytes :=
              if 0 < ci.currentValue.dtCount then
                env.reduce ci.currentValue.operand ci.currentValue.datatype value.bytes
                  ci.currentValue.bytes
              else ci.currentValue.bytes
            ret := if ci.currentValue.ret < value.ret then value.ret else ci.currentValue.ret
            minAid :=
              if ci.currentValue.minAid < value.minAid then value.minAid
              else ci.currentValue.minAid
            maxAid :=
              if value.maxAid < ci.currentValue.maxAid then value.maxAid
              else ci.currentValue.maxAid } } value.newDeadArray
    rw [hop] at hl
    have hT := htr.forget
      (if ci.currentValue.ret < value.ret then value.ret else ci.currentValue.ret) l
      (htr.combine hcur hv)
    exact ⟨_, hl, hT⟩

end Ulfm
