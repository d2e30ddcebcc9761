import Mathlib.Data.Finset.Sort
import Ulfm.Era.Agreement.Protocol

/-!
# Agreement, validity and the status machine

The three results that hold of the agreement as it is: survivors that complete it
obtain the same bytes and the same newly dead ranks when no process handles a
message of a process it knows to have failed; what is decided is the reduction of
contributions that include those of all survivors; and the status machine is
entered only in the states it is made for.
-/

namespace Ulfm

open List Option Finset World WorldRel EraValue EraConfig

/-- No process handles a message of a process whose failure it has been notified
of. -/
def World.Timely (w : World) : Action → Prop
  | .deliver i => ∀ m ∈ w.net[i]?, m.src ∉ (w.proc m.dst).failed
  | _ => True

instance (w : World) (a : Action) : Decidable (w.Timely a) :=
  match a with
  | .deliver i => inferInstanceAs (Decidable (∀ m ∈ w.net[i]?, m.src ∉ (w.proc m.dst).failed))
  | .post .. | .crash _ | .notify .. | .complete _ | .failElsewhere _ | .parentElsewhere _
  | .childrenElsewhere .. | .collect _ => isTrue trivial

/-! ### A communicator for examples -/

/-- One integer from each of `n` processes, on a flat binary tree. -/
def flatConfig (n : ℕ) (contrib : ℕ → UInt8) : EraConfig where
  size := n
  agreedFailedRanks := []
  tree := eraBuildTreeStructure (-1) (fun _ => none) n []
  reduce := bandBytes
  operand := opBandIndex
  dtCount := 1
  datatype := mpiIntIndex
  contrib p := [contrib p, 0, 0, 0]
  acked _ := []
  gcRange _ := (65535, 0)
  contrib_nil h := absurd h (by decide)

theorem flatConfig_built (n : ℕ) (contrib : ℕ → UInt8) : (flatConfig n contrib).Built :=
  ⟨List.Pairwise.nil, by simp [flatConfig], -1, fun _ => none, rfl⟩

/-! ### Agreement -/

theorem Sim.allowed_of_lax {σ : Sim} (hk : σ.keepRet ≠ true) (hs : ¬ σ.strict) (w : World)
    (a : Action) : σ.Allowed w a := by
  cases a with
  | notify p q => exact fun h => absurd h hk
  | deliver i => exact fun h => absurd h hs
  | _ => trivial

/-- What is tracked of a value when only its size matters. -/
def sizeSim (cfg : EraConfig) (T : RankTree) (strict : Prop) (keepRet : Bool) : Sim where
  T := T
  strict := strict
  keepRet := keepRet
  Tr v _ := v.dtCount = cfg.dtCount

theorem sizeSim_fits {cfg : EraConfig} {T : RankTree} (strict : Prop) (keepRet : Bool)
    (hmem : ∀ p, p ∈ T.mem ↔ cfg.Participant p) (htree : TreeInv T ∅ cfg.tree) :
    (sizeSim cfg T strict keepRet).Fits cfg where
  mem := hmem
  tree := htree
  tracks := ⟨fun _ _ h => h, fun h _ => h⟩
  contribution _ _ := rfl

variable {cfg : EraConfig} {w : World} {as : List Action}

/-- Survivors that complete the agreement obtain the same bytes and the same list
of newly dead ranks. -/
theorem completed_eq_of_timely (hb : cfg.Built) (hdt : 0 < cfg.dtCount)
    (hr : World.Run cfg World.Timely (World.init cfg) as w) {p q : ℕ} {u v : EraValue}
    (hp : p ∉ w.crashed) (hq : q ∉ w.crashed) (hu : (w.proc p).returned = some u)
    (hv : (w.proc q).returned = some v) :
    u.bytes = v.bytes ∧ u.newDeadArray = v.newDeadArray := by
  obtain ⟨T, hmem, htree⟩ := hb.exists_tree
  have hf := sizeSim_fits True false hmem htree
  have hok : ∀ w s a, WorldRel (sizeSim cfg T True false) cfg w s → w.Timely a →
      (sizeSim cfg T True false).Allowed w a := by
    intro w s a h ha
    cases a with
    | notify p q => exact fun hk => absurd hk Bool.false_ne_true
    | deliver i =>
      rintro - m hm
      refine ⟨fun _ _ => ha m hm, fun htype hz => ?_⟩
      -- a request carries the count of the agreement, which is positive
      have hrec := h.sent m (h.net m (mem_of_getElem? hm))
      rw [Recorded, htype] at hrec
      obtain ⟨-, S, hS⟩ := hrec
      change m.value.dtCount = cfg.dtCount at hS
      omega
    | _ => trivial
  obtain ⟨s, h, -⟩ := (WorldRel.init hf).run hf hok hr
  have heq := (h.agree trivial).dec_eq (h.dead ▸ hp) (h.dead ▸ hq) (h.returned p u hu)
    (h.returned q v hv)
  exact ⟨by simpa using congrArg bytes heq, by simpa using congrArg newDeadArray heq⟩

/-- Two processes that contribute `1` and `3`. -/
def pairConfig : EraConfig := flatConfig 2 fun p => if p = 0 then 1 else 3

def pairRun : List Action :=
  [.post 0 true, .post 1 true, .deliver 0, .deliver 0, .complete 0, .complete 1]

theorem completed_eq_of_timely_pair :
    ∃ w u v, World.Run pairConfig World.Timely (World.init pairConfig) pairRun w ∧
      (w.proc 0).returned = some u ∧ (w.proc 1).returned = some v ∧
      u.bytes = v.bytes ∧ u.newDeadArray = v.newDeadArray := by
  obtain ⟨w, hrun, hw⟩ := exists_run pairConfig World.Timely (World.init pairConfig) pairRun
    (fun w => decide (w.crashed = []) && (w.proc 0).returned.isSome &&
      (w.proc 1).returned.isSome) (by decide +kernel)
  simp only [Bool.and_eq_true, decide_eq_true_eq] at hw
  obtain ⟨⟨hc, h0⟩, h1⟩ := hw
  obtain ⟨u, hu⟩ := isSome_iff_exists.1 h0
  obtain ⟨v, hv⟩ := isSome_iff_exists.1 h1
  exact ⟨w, u, v, hrun, hu, hv, completed_eq_of_timely (flatConfig_built _ _) (by decide) hrun
    (by simp [hc]) (by simp [hc]) hu hv⟩

/-! ### Validity -/

def EraConfig.op (cfg : EraConfig) : List UInt8 → List UInt8 → List UInt8 :=
  cfg.reduce cfg.operand cfg.datatype

/-- The reduction of the contributions of `S`, in the order of the ranks. -/
def EraConfig.reduction (cfg : EraConfig) (S : Finset ℕ) : Option (List UInt8) :=
  reduceList cfg.op (S.sort.map cfg.contrib)

/-- All contributions are buffers of length `L`, and on these the reduction is
commutative, associative and idempotent. -/
structure EraConfig.Idempotent (cfg : EraConfig) (L : ℕ) : Prop where
  length : ∀ p, cfg.Participant p → (cfg.contrib p).length = L
  op : SemilatticeOn (fun b : List UInt8 => b.length = L) cfg.op

/-- The value is the reduction of the contributions of `S`. -/
def reductionSim (cfg : EraConfig) (T : RankTree) : Sim where
  T := T
  strict := False
  keepRet := false
  Tr v S := v.dtCount = cfg.dtCount ∧ v.operand = cfg.operand ∧ v.datatype = cfg.datatype ∧
    (∀ q ∈ S, cfg.Participant q) ∧ cfg.reduction S = some v.bytes

theorem EraConfig.reduction_length {L : ℕ} (h : cfg.Idempotent L) {S : Finset ℕ}
    (hS : ∀ q ∈ S, cfg.Participant q) {b : List UInt8} (hb : cfg.reduction S = some b) :
    b.length = L := by
  refine h.op.reduceList_mem (fun c hc => ?_) hb
  obtain ⟨p, hp, rfl⟩ := List.mem_map.1 hc
  exact h.length p (hS p ((mem_sort _).1 hp))

theorem EraConfig.nonempty_of_reduction {S : Finset ℕ} {b : List UInt8}
    (hb : cfg.reduction S = some b) : S.Nonempty := by
  rcases S.eq_empty_or_nonempty with rfl | hS
  · simp [reduction, reduceList] at hb
  · exact hS

theorem EraConfig.exists_reduction {S : Finset ℕ} (hS : S.Nonempty) :
    ∃ b, cfg.reduction S = some b := by
  unfold reduction
  cases hl : S.sort with
  | nil =>
    have hmem := (mem_sort (· ≤ ·)).2 hS.choose_spec
    rw [hl] at hmem
    exact absurd hmem not_mem_nil
  | cons p l => exact ⟨_, rfl⟩

theorem EraConfig.reduction_nil {L : ℕ} (h : cfg.Idempotent L) (hdt : cfg.dtCount = 0)
    {S : Finset ℕ} (hS : ∀ q ∈ S, cfg.Participant q) {b : List UInt8}
    (hb : cfg.reduction S = some b) : b = [] := by
  have hlen := cfg.reduction_length h hS hb
  obtain ⟨p, hp⟩ := cfg.nonempty_of_reduction hb
  have hL := h.length p (hS p hp)
  rw [cfg.contrib_nil hdt p] at hL
  exact length_eq_zero_iff.1 (hlen.trans hL.symm)

theorem EraConfig.reduction_union {L : ℕ} (h : cfg.Idempotent L) {S S' : Finset ℕ}
    (hS : ∀ q ∈ S, cfg.Participant q) (hS' : ∀ q ∈ S', cfg.Participant q) {a b : List UInt8}
    (ha : cfg.reduction S = some a) (hb : cfg.reduction S' = some b) :
    cfg.reduction (S ∪ S') = some (cfg.op a b) := by
  have hlen : ∀ {S : Finset ℕ}, (∀ q ∈ S, cfg.Participant q) →
      ∀ c ∈ S.sort.map cfg.contrib, c.length = L := by
    intro S hS c hc
    obtain ⟨p, hp, rfl⟩ := List.mem_map.1 hc
    exact h.length p (hS p ((mem_sort _).1 hp))
  rw [← h.op.reduceList_append (hlen hS) (hlen hS') ha hb]
  refine h.op.reduceList_congr (hlen fun q hq => ?_) fun c => ?_
  · exact (mem_union.1 hq).elim (hS q) (hS' q)
  · simp only [List.mem_map, mem_append, mem_sort, mem_union]
    constructor
    · rintro ⟨q, hq | hq, rfl⟩
      · exact .inl ⟨q, hq, rfl⟩
      · exact .inr ⟨q, hq, rfl⟩
    · rintro (⟨q, hq, rfl⟩ | ⟨q, hq, rfl⟩)
      · exact ⟨q, .inl hq, rfl⟩
      · exact ⟨q, .inr hq, rfl⟩

section

variable {T : RankTree} {L : ℕ} (hop : cfg.Idempotent L) (hmem : ∀ p, p ∈ T.mem ↔ cfg.Participant p)
include hop hmem

theorem reductionSim_fits (htree : TreeInv T ∅ cfg.tree) : (reductionSim cfg T).Fits cfg where
  mem := hmem
  tree := htree
  tracks :=
    { forget := fun _ _ h => h
      combine := by
        rintro cur v S S' ⟨hd, ho, hty, hS, hred⟩ ⟨hd', ho', hty', hS', hred'⟩
        have hunion : ∀ q ∈ S' ∪ S, cfg.Participant q := fun q hq =>
          (mem_union.1 hq).elim (hS' q) (hS q)
        have hsum := cfg.reduction_union hop hS' hS hred' hred
        refine ⟨hd, ho, hty, hunion, ?_⟩
        dsimp only
        split
        · rw [hsum, ho, hty]
          rfl
        · -- without data, all buffers are empty
          next hz =>
            have hz : cfg.dtCount = 0 := by omega
            rw [hsum, cfg.reduction_nil hop hz hunion hsum, cfg.reduction_nil hop hz hS hred] }
  contribution p hp := by
    refine ⟨rfl, rfl, rfl, fun q hq => Finset.mem_singleton.1 hq ▸ hp, ?_⟩
    simp [reduction, reduceList, EraConfig.contribution]

theorem WorldRel.reduction_of_dec {s : ConsensusState EraValue}
    (h : WorldRel (reductionSim cfg T) cfg w s) {p : ℕ} {v : EraValue}
    (hdec : s.dec p = some (v.view false)) :
    ∃ S : Finset ℕ, (∀ q ∈ S, cfg.Participant q) ∧ cfg.reduction S = some v.bytes ∧
      ((∃ d ∈ w.decisions, d.root = true ∧ d.value.bytes = v.bytes ∧
          ∀ q, cfg.Participant q → q ∉ d.crashed → q ∈ S) ∨
        cfg.dtCount = 0 ∧ ∀ q, cfg.Participant q → q ∈ S) := by
  rcases h.cover.dec p _ hdec with ⟨-, hvoid, u, S, hu, hz⟩ | ⟨A, S, hset⟩
  · obtain ⟨hdt, -, -, hS, hred⟩ := hu
    have hpart : ∀ q ∈ T.mem, cfg.Participant q := fun q hq => (hmem q).1 hq
    have hdt0 : cfg.dtCount = 0 := by omega
    have hbytes : v.bytes = [] := by simpa [successValue] using congrArg bytes hvoid
    obtain ⟨q, hq⟩ := cfg.nonempty_of_reduction hred
    obtain ⟨b, hb⟩ := cfg.exists_reduction ⟨q, (hmem q).2 (hS q hq)⟩
    refine ⟨T.mem, hpart, ?_, .inr ⟨hdt0, fun r hr => (hmem r).2 hr⟩⟩
    rw [hb, hbytes, cfg.reduction_nil hop hdt0 hpart hb]
  · obtain ⟨hA, -⟩ := h.cover.settled _ _ _ hset
    obtain ⟨d, hd, hroot, hview, rfl, -, -, -, hpart, hred⟩ := h.settled _ _ _ hset
    have hbytes : v.bytes = d.value.bytes := by simpa using congrArg bytes hview
    refine ⟨S, hpart, by rw [hbytes]; exact hred, .inl ⟨d, hd, hroot, hbytes.symm, ?_⟩⟩
    intro q hq hqd
    exact hA ⟨(hmem q).2 hq, hqd⟩

end

theorem exists_worldRel_reduction (hb : cfg.Built) {L : ℕ} (hop : cfg.Idempotent L)
    {ok : World → Action → Prop} (hr : World.Run cfg ok (World.init cfg) as w) :
    ∃ T : RankTree, (∀ p, p ∈ T.mem ↔ cfg.Participant p) ∧
      ∃ s, WorldRel (reductionSim cfg T) cfg w s := by
  obtain ⟨T, hmem, htree⟩ := hb.exists_tree
  have hf := reductionSim_fits hop hmem htree
  obtain ⟨s, h, -⟩ := (WorldRel.init hf).run hf
    (fun w _ a _ _ => Sim.allowed_of_lax Bool.false_ne_true id w a) hr
  exact ⟨T, hmem, s, h⟩

/-- What is decided is the reduction of the contributions of a set of participants
that contains everybody who was alive when the root decided. Only an agreement
without data may be answered without a root; then it contains everybody. -/
theorem decided_eq_reduction (hb : cfg.Built) {L : ℕ} (hop : cfg.Idempotent L)
    {ok : World → Action → Prop} (hr : World.Run cfg ok (World.init cfg) as w) {p : ℕ}
    {v : EraValue}
    (hv : (w.proc p).decided = some v) :
    ∃ S : Finset ℕ, (∀ q ∈ S, cfg.Participant q) ∧ cfg.reduction S = some v.bytes ∧
      ((∃ d ∈ w.decisions, d.root = true ∧ d.value.bytes = v.bytes ∧
          ∀ q, cfg.Participant q → q ∉ d.crashed → q ∈ S) ∨
        cfg.dtCount = 0 ∧ ∀ q, cfg.Participant q → q ∈ S) := by
  obtain ⟨T, hmem, s, h⟩ := exists_worldRel_reduction hb hop hr
  exact h.reduction_of_dec hop hmem (h.decided p v hv)

theorem decided_eq_reduction_pair :
    ∃ w v, World.Run pairConfig World.Timely (World.init pairConfig) pairRun w ∧
      (w.proc 1).decided = some v ∧ v.bytes = [1, 0, 0, 0] ∧
      ∃ S : Finset ℕ, (∀ q ∈ S, pairConfig.Participant q) ∧ pairConfig.reduction S = some v.bytes ∧
        ((∃ d ∈ w.decisions, d.root = true ∧ d.value.bytes = v.bytes ∧
            ∀ q, pairConfig.Participant q → q ∉ d.crashed → q ∈ S) ∨
          pairConfig.dtCount = 0 ∧ ∀ q, pairConfig.Participant q → q ∈ S) := by
  obtain ⟨w, hrun, hw⟩ := exists_run pairConfig World.Timely (World.init pairConfig) pairRun
    (fun w => decide ((w.proc 1).decided.map bytes = some [1, 0, 0, 0]))
    (by decide +kernel)
  obtain ⟨v, hv, hbytes⟩ := map_eq_some_iff.1 (of_decide_eq_true hw)
  have hop : pairConfig.Idempotent 4 :=
    ⟨fun _ _ => rfl, bandBytes_semilatticeOn opBandIndex mpiIntIndex 4⟩
  exact ⟨w, v, hrun, hv, hbytes, decided_eq_reduction (flatConfig_built _ _) hop hrun hv⟩

/-! ### The status machine -/

/-- `eraCheckStatus` is only entered before the decision, `restartAgreementFromMe` only
by the root and with nothing asked for, and neither fails its assertion. -/
theorem calls_ok (hb : cfg.Built) {ok : World → Action → Prop}
    (hr : World.Run cfg ok (World.init cfg) as w) :
    (∃ T : RankTree, (∀ p, p ∈ T.mem ↔ cfg.Participant p) ∧ TreeInv T ∅ cfg.tree ∧
      ∀ c ∈ w.calls, CallOk T c.1 c.2) ∧
    ∀ a, w.step cfg a ≠ some (.error .needToImplement) ∧
      w.step cfg a ≠ some (.error .restartNotEmpty) := by
  obtain ⟨T, hmem, htree⟩ := hb.exists_tree
  have hf := sizeSim_fits False false hmem htree
  have hlax : ∀ w a, (sizeSim cfg T False false).Allowed w a :=
    Sim.allowed_of_lax Bool.false_ne_true id
  obtain ⟨s, h, -⟩ := (WorldRel.init hf).run hf (fun w _ a _ _ => hlax w a) hr
  refine ⟨⟨T, hmem, htree, h.calls⟩, fun a => ⟨fun hx => ?_, fun hx => ?_⟩⟩
  · rcases (h.step hf (hlax w a) hx).raised rfl with he | ⟨he, -⟩ <;> simp at he
  · rcases (h.step hf (hlax w a) hx).raised rfl with he | ⟨he, -⟩ <;> simp at he

/-- Three processes; the root does not contribute the common bit. -/
def trioConfig : EraConfig := flatConfig 3 fun p => if p = 0 then 0 else 1

/-- The root decides and crashes, and both children turn to process `1`. -/
def trioRun : List Action :=
  [.post 0 true, .post 1 true, .post 2 true, .deliver 0, .deliver 0, .crash 0, .notify 1 0,
    .notify 2 0]

theorem calls_ok_trio : ∃ w, World.Run trioConfig World.Timely (World.init trioConfig) trioRun w ∧
      (1, EraCall.restart [] [0]) ∈ w.calls ∧
      (∃ T : RankTree, (∀ p, p ∈ T.mem ↔ trioConfig.Participant p) ∧
        TreeInv T ∅ trioConfig.tree ∧ ∀ c ∈ w.calls, CallOk T c.1 c.2) ∧
      ∀ a, w.step trioConfig a ≠ some (.error .needToImplement) ∧
        w.step trioConfig a ≠ some (.error .restartNotEmpty) := by
  obtain ⟨w, hrun, hw⟩ := exists_run trioConfig World.Timely (World.init trioConfig) trioRun
    (fun w => decide ((1, EraCall.restart [] [0]) ∈ w.calls)) (by decide +kernel)
  exact ⟨w, hrun, of_decide_eq_true hw, calls_ok (flatConfig_built _ _) hrun⟩

end Ulfm
