import Ulfm.Era.Agreement.Safety
import Ulfm.Era.Framing.Definitions
import Ulfm.Group.Definitions

/-!
# Agreement on an inter-communicator

`mca_coll_ftbasic_agreement_era_inter` runs the agreement on a shadow communicator of
both groups. Each process finds out from the first processes of the two groups whether its
own group comes first, and puts its contribution into the first or the second of two
integers accordingly; it takes the other integer of the decision as its result. A failure
is reported with a rank in the local or in the remote group, and shifted to the shadow
communicator.
-/

namespace Ulfm

open List ProcGroup

/-- `orte_util_compare_name_fields` with `ORTE_NS_CMP_JOBID | ORTE_NS_CMP_VPID`. -/
def compareNameFields (a b : ProcName) : ℤ :=
  if a.jobid < b.jobid then -1
  else if a.jobid > b.jobid then 1
  else if a.vpid < b.vpid then -1
  else if a.vpid > b.vpid then 1
  else 0

theorem compareNameFields_neg_iff {a b : ProcName} (h : a ≠ b) :
    compareNameFields a b < 0 ↔ ¬compareNameFields b a < 0 := by
  have hne : a.jobid ≠ b.jobid ∨ a.vpid ≠ b.vpid := by
    by_contra hc
    obtain ⟨hj, hv⟩ := not_or.1 hc
    exact h (ProcName.mk.injEq .. ▸ ⟨not_not.1 hj, not_not.1 hv⟩)
  simp only [compareNameFields]
  grind

/-- An inter-communicator. The groups are those of its two sides; each side has its own
one as `c_local_group` and the other one as `c_remote_group`. -/
structure InterComm where
  group : Bool → ProcGroup ProcName
  nonempty : ∀ side, 0 < (group side).size
  disjoint : ∀ side p, p ∈ group side → p ∉ group (!side)

/-- `ompi_comm_determine_first_auto`. -/
def determineFirstAuto (localGroup remoteGroup : ProcGroup ProcName) : Bool :=
  match localGroup.peerLookup 0, remoteGroup.peerLookup 0 with
  | some ours, some theirs => compareNameFields ours theirs < 0
  | _, _ => false

/-- `uniongrp`, the local group of the shadow communicator. -/
def shadowGroup (localGroup remoteGroup : ProcGroup ProcName) : ProcGroup ProcName :=
  if determineFirstAuto localGroup remoteGroup then localGroup.union remoteGroup
  else remoteGroup.union localGroup

/-- `contriblh`, from the own contribution. -/
def contriblh (first : Bool) (contrib : BitVec 32) : List (BitVec 32) :=
  if first then [contrib, BitVec.allOnes 32] else [BitVec.allOnes 32, contrib]

/-- The integer of the decision that is the result. -/
def interResult (first : Bool) (bytes : List UInt8) : BitVec 32 :=
  (readArray 32 2 bytes).getD (if first then 1 else 0) 0

/-- `shadowrank` of `era_on_comm_rank_failure`. -/
def shadowRank (localGroup remoteGroup : ProcGroup ProcName) (rank : Nat) (remote : Bool) : Nat :=
  if determineFirstAuto localGroup remoteGroup then
    if remote then rank + localGroup.size else rank
  else if remote then rank else rank + remoteGroup.size

namespace InterComm

variable (ic : InterComm)

/-- The side whose processes find that their group comes first. -/
def first (side : Bool) : Bool := determineFirstAuto (ic.group side) (ic.group !side)

/-- The shadow communicator, as the processes of a side build it. -/
def shadow (side : Bool) : ProcGroup ProcName := shadowGroup (ic.group side) (ic.group !side)

theorem first_not (side : Bool) : ic.first (!side) = !ic.first side := by
  obtain ⟨p, hp⟩ : ∃ p, (ic.group side).peerLookup 0 = some p :=
    ⟨_, getElem?_eq_getElem (ic.nonempty side)⟩
  obtain ⟨q, hq⟩ : ∃ q, (ic.group !side).peerLookup 0 = some q :=
    ⟨_, getElem?_eq_getElem (ic.nonempty !side)⟩
  have hne : p ≠ q := by
    rintro rfl
    exact ic.disjoint side p (mem_iff_peerLookup.2 ⟨0, hp⟩)
      (mem_iff_peerLookup.2 ⟨0, hq⟩)
  simp only [first, determineFirstAuto, Bool.not_not, hp, hq]
  rw [← decide_not, decide_eq_decide]
  exact compareNameFields_neg_iff hne.symm

theorem shadow_not (side : Bool) : ic.shadow (!side) = ic.shadow side := by
  have hfirst := ic.first_not side
  simp only [first, Bool.not_not] at hfirst
  simp only [shadow, shadowGroup, Bool.not_not, hfirst]
  cases determineFirstAuto (ic.group side) (ic.group !side) with
  | true => rfl
  | false => rfl

theorem procs_shadow (side : Bool) :
    (ic.shadow side).procs = if ic.first side then (ic.group side).procs ++ (ic.group !side).procs
      else (ic.group !side).procs ++ (ic.group side).procs := by
  have hunion : ∀ s, ((ic.group s).union (ic.group !s)).procs =
      (ic.group s).procs ++ (ic.group !s).procs := by
    intro s
    rw [procs_union, filter_eq_self.2]
    intro p hp
    have hnot := ic.disjoint (!s) p hp
    rw [Bool.not_not] at hnot
    exact decide_eq_true hnot
  rw [shadow, shadowGroup, first]
  split_ifs
  · exact hunion side
  · have h := hunion (!side)
    rwa [Bool.not_not] at h

theorem peerLookup_shadowRank (side remote : Bool) {rank : Nat} {p : ProcName}
    (hp : (if remote then ic.group !side else ic.group side).peerLookup rank = some p) :
    (ic.shadow side).peerLookup (shadowRank (ic.group side) (ic.group !side) rank remote) =
      some p := by
  have hlt : rank < (if remote then ic.group !side else ic.group side).size :=
    (List.getElem?_eq_some_iff.1 hp).1
  rw [peerLookup, procs_shadow, shadowRank, first]
  cases hfirst : determineFirstAuto (ic.group side) (ic.group !side) with
  | true =>
    cases remote with
    | true =>
      simp only [if_true] at hp ⊢
      rw [size, getElem?_append_right (Nat.le_add_left ..), Nat.add_sub_cancel_right]
      exact hp
    | false =>
      simp only [if_true, Bool.false_eq_true, if_false] at hp hlt ⊢
      rw [getElem?_append_left hlt]
      exact hp
  | false =>
    cases remote with
    | true =>
      simp only [if_true, Bool.false_eq_true, if_false] at hp hlt ⊢
      rw [getElem?_append_left hlt]
      exact hp
    | false =>
      simp only [Bool.false_eq_true, if_false] at hp ⊢
      rw [size, getElem?_append_right (Nat.le_add_left ..), Nat.add_sub_cancel_right]
      exact hp

end InterComm

section Conjunction

theorem encodeLE_and (k m n : ℕ) :
    encodeLE k (m &&& n) = zipWith (· &&& ·) (encodeLE k m) (encodeLE k n) := by
  induction k generalizing m n with
  | zero => rfl
  | succ k ih =>
    rw [encodeLE, encodeLE, encodeLE, zipWith_cons_cons, ← ih]
    have hdiv : (m &&& n) / 256 = m / 256 &&& n / 256 := Nat.and_div_two_pow (n := 8)
    rw [hdiv, UInt8.ofNat_and]

theorem bandBytes_pair (o t : ℤ) (a b c d : BitVec 32) :
    bandBytes o t (arrayBytes [a, b]) (arrayBytes [c, d]) = arrayBytes [a &&& c, b &&& d] := by
  have hword : ∀ x y : BitVec 32,
      wordBytes (x &&& y) = List.zipWith (· &&& ·) (wordBytes x) (wordBytes y) := by
    intro x y
    rw [wordBytes, BitVec.toNat_and, encodeLE_and]
    rfl
  have harray : ∀ x y : BitVec 32, arrayBytes [x, y] = wordBytes x ++ wordBytes y := by
    intro x y
    simp [arrayBytes]
  rw [bandBytes, harray, harray, harray, hword, hword, zipWith_append]
  simp

theorem reduceList_pairs (o t : ℤ) (x y : ℕ → BitVec 32) (r : ℕ) (l : List ℕ) :
    reduceList (bandBytes o t) ((r :: l).map fun q => arrayBytes [x q, y q]) =
      some (arrayBytes [(l.map x).foldl (· &&& ·) (x r), (l.map y).foldl (· &&& ·) (y r)]) := by
  rw [map_cons, reduceList]
  congr 1
  generalize x r = a
  generalize y r = b
  induction l generalizing a b with
  | nil => rfl
  | cons q l ih => rw [map_cons, foldl_cons, bandBytes_pair, ih]; rfl

theorem getLsbD_foldl_and (l : List (BitVec 32)) (a : BitVec 32) (k : ℕ) :
    (l.foldl (· &&& ·) a).getLsbD k = true ↔ a.getLsbD k = true ∧ ∀ b ∈ l, b.getLsbD k = true := by
  induction l generalizing a with
  | nil => simp
  | cons b l ih =>
    rw [foldl_cons, ih, BitVec.getLsbD_and, Bool.and_eq_true, forall_mem_cons, and_assoc]

end Conjunction

section Agreement

variable {ic : InterComm} {contrib : ProcName → BitVec 32} {cfg : EraConfig} {w : World}
  {as : List Action}

/-- The agreement on the shadow communicator: both integers are reduced with `MPI_BAND`,
and each process contributes what it computes on its own side. -/
structure InterConfig (ic : InterComm) (contrib : ProcName → BitVec 32) (cfg : EraConfig) :
    Prop where
  built : cfg.Built
  size : cfg.size = (ic.shadow true).size
  reduce : cfg.reduce = bandBytes
  dtCount : cfg.dtCount = 2
  contribution : ∀ {side : Bool} {r : ℕ} {p : ProcName}, (ic.shadow side).peerLookup r = some p →
    p ∈ ic.group side → cfg.contrib r = arrayBytes (contriblh (ic.first side) (contrib p))

theorem InterConfig.exists_proc (h : InterConfig ic contrib cfg) {r : ℕ} (hr : r < cfg.size) :
    ∃ side p, (ic.shadow side).peerLookup r = some p ∧ p ∈ ic.group side := by
  rw [h.size] at hr
  obtain ⟨p, hp⟩ : ∃ p, (ic.shadow true).peerLookup r = some p := ⟨_, getElem?_eq_getElem hr⟩
  have hmem : p ∈ (ic.shadow true).procs := mem_of_getElem? hp
  rw [ic.procs_shadow] at hmem
  have hor : p ∈ ic.group true ∨ p ∈ ic.group false := by
    split_ifs at hmem
    · exact mem_append.1 hmem
    · exact (mem_append.1 hmem).symm
  rcases hor with hin | hin
  · exact ⟨true, p, hp, hin⟩
  · refine ⟨false, p, ?_, hin⟩
    rw [← ic.shadow_not false]
    exact hp

/-- The contribution of a rank to the integer of the side `side`: that of the process when
it is of this side. -/
def InterComm.slot (ic : InterComm) (contrib : ProcName → BitVec 32) (side : Bool) (r : ℕ) :
    BitVec 32 :=
  match (ic.shadow side).peerLookup r with
  | some p => if p ∈ ic.group side then contrib p else BitVec.allOnes 32
  | none => BitVec.allOnes 32

theorem InterConfig.contrib_eq (h : InterConfig ic contrib cfg) {side : Bool}
    (hfirst : ic.first side = true) {r : ℕ} (hr : r < cfg.size) :
    cfg.contrib r = arrayBytes [ic.slot contrib side r, ic.slot contrib (!side) r] := by
  obtain ⟨s, p, hp, hin⟩ := h.exists_proc hr
  have hshadow : ∀ t, (ic.shadow t).peerLookup r = some p := by
    intro t
    rcases Bool.eq_or_eq_not t s with rfl | rfl
    · exact hp
    · rw [ic.shadow_not]
      exact hp
  rw [h.contribution hp hin, InterComm.slot, InterComm.slot, hshadow, hshadow]
  rcases Bool.eq_or_eq_not s side with rfl | rfl
  · simp [contriblh, hfirst, hin, ic.disjoint s p hin]
  · have hnot := ic.disjoint (!side) p hin
    rw [Bool.not_not] at hnot
    simp [contriblh, ic.first_not, hfirst, hin, hnot]

theorem InterConfig.idempotent (h : InterConfig ic contrib cfg) : cfg.Idempotent 8 := by
  refine ⟨fun r hr => ?_, ?_⟩
  · obtain ⟨side, p, hp, hin⟩ := h.exists_proc hr.1
    rw [h.contribution hp hin, contriblh]
    split_ifs
    · rfl
    · rfl
  · rw [EraConfig.op, h.reduce]
    exact bandBytes_semilatticeOn _ _ 8

theorem InterConfig.interResult_eq (h : InterConfig ic contrib cfg) {S : Finset ℕ}
    (hS : ∀ q ∈ S, cfg.Participant q) {b : List UInt8} (hb : cfg.reduction S = some b)
    (side : Bool) {k : ℕ} :
    (interResult (ic.first side) b).getLsbD k = true ↔
      ∀ q ∈ S, (ic.slot contrib (!side) q).getLsbD k = true := by
  -- the side whose integer stands first
  obtain ⟨t, ht, hslot⟩ : ∃ t, ic.first t = true ∧ (t = if ic.first side then side else !side) := by
    cases hfirst : ic.first side with
    | true => exact ⟨side, hfirst, rfl⟩
    | false => exact ⟨!side, by rw [ic.first_not, hfirst]; rfl, rfl⟩
  rw [EraConfig.reduction, EraConfig.op, h.reduce] at hb
  have hmem : ∀ q, q ∈ S.sort (· ≤ ·) ↔ q ∈ S := fun q => Finset.mem_sort _
  cases hl : S.sort (· ≤ ·) with
  | nil =>
    rw [hl] at hb
    cases hb
  | cons r l =>
    have hcontrib : (r :: l).map cfg.contrib =
        (r :: l).map fun q => arrayBytes [ic.slot contrib t q, ic.slot contrib (!t) q] := by
      refine map_congr_left fun q hq => ?_
      exact h.contrib_eq ht (hS q ((hmem q).1 (hl ▸ hq))).1
    rw [hl, hcontrib, reduceList_pairs] at hb
    rw [← Option.some.inj hb, interResult, ← List.append_nil (arrayBytes _)]
    have hread : ∀ x y : BitVec 32, readArray 32 2 (arrayBytes [x, y] ++ []) = [x, y] :=
      fun x y => readArray_arrayBytes (by decide) [x, y]
    rw [hread]
    have hall : ∀ s, (((l.map (ic.slot contrib s)).foldl (· &&& ·) (ic.slot contrib s r)).getLsbD k
        = true ↔ ∀ q ∈ S, (ic.slot contrib s q).getLsbD k = true) := by
      intro s
      rw [getLsbD_foldl_and, forall_mem_map, ← forall_mem_cons (p := fun q =>
        (ic.slot contrib s q).getLsbD k = true), ← hl]
      exact forall_congr' fun q => by rw [hmem q]
    cases hfirst : ic.first side with
    | true =>
      rw [hfirst, if_pos rfl] at hslot
      rw [← hslot]
      exact hall (!t)
    | false =>
      rw [hfirst, if_neg Bool.false_ne_true] at hslot
      rw [← hslot]
      exact hall t

/-- Agreement on an inter-communicator: both sides build the same shadow communicator, a
failure is charged there to the process that failed, and each process obtains the bitwise
conjunction of the contributions of the other group, of a set of processes that contains
everybody who was alive when the root decided. -/
theorem inter_agreement (ic : InterComm) (contrib : ProcName → BitVec 32) :
    (∀ side, ic.shadow (!side) = ic.shadow side) ∧
    (∀ (side remote : Bool) (rank : Nat) (p : ProcName),
      (if remote then ic.group !side else ic.group side).peerLookup rank = some p →
      (ic.shadow side).peerLookup (shadowRank (ic.group side) (ic.group !side) rank remote) =
        some p) ∧
    ∀ (cfg : EraConfig), InterConfig ic contrib cfg → ∀ (ok : World → Action → Prop)
      (as : List Action) (w : World), World.Run cfg ok (World.init cfg) as w →
      ∀ (side : Bool) (r : ℕ) (p : ProcName) (v : EraValue),
        (ic.shadow side).peerLookup r = some p → p ∈ ic.group side →
        (w.proc r).returned = some v →
        ∃ S : Finset ℕ, (∀ q ∈ S, cfg.Participant q) ∧ (∃ d ∈ w.decisions, d.root = true ∧
            ∀ q, cfg.Participant q → q ∉ d.crashed → q ∈ S) ∧
          ∀ k < 32, (interResult (ic.first side) v.bytes).getLsbD k = true ↔
            ∀ q ∈ S, ∀ p', (ic.shadow side).peerLookup q = some p' → p' ∈ ic.group (!side) →
              (contrib p').getLsbD k = true := by
  refine ⟨ic.shadow_not, fun side remote rank p hp => ic.peerLookup_shadowRank side remote hp, ?_⟩
  intro cfg hcfg ok as w hr side r p v _ _ hv
  obtain ⟨T, hmem, s, h⟩ := exists_worldRel_reduction hcfg.built hcfg.idempotent hr
  obtain ⟨S, hS, hred, hcover⟩ := h.reduction_of_dec hcfg.idempotent hmem (h.returned r v hv)
  refine ⟨S, hS, ?_, fun k hk => ?_⟩
  · rcases hcover with ⟨d, hd, hroot, -, hall⟩ | ⟨hdt, -⟩
    · exact ⟨d, hd, hroot, hall⟩
    · rw [hcfg.dtCount] at hdt
      cases hdt
  · rw [hcfg.interResult_eq hS hred side]
    refine forall₂_congr fun q hq => ?_
    rw [InterComm.slot, ic.shadow_not]
    have hones : (BitVec.allOnes 32).getLsbD k = true := by
      rw [BitVec.getLsbD_allOnes]
      exact decide_eq_true hk
    cases (ic.shadow side).peerLookup q with
    | none => exact ⟨fun _ _ hp' => (nomatch hp'), fun _ => hones⟩
    | some p' =>
      simp only [Option.some.injEq, forall_eq']
      by_cases hp' : p' ∈ ic.group (!side)
      · simp only [hp', if_true, forall_const]
      · simp only [hp', if_false, hones, false_imp_iff]

def pairInter : InterComm where
  group side := if side then ⟨[⟨1, 1⟩], nodup_singleton _⟩ else ⟨[⟨1, 0⟩], nodup_singleton _⟩
  nonempty side := by cases side <;> decide
  disjoint side p hp := by
    cases side with
    | true => simp_all [ProcGroup.mem_def]
    | false => simp_all [ProcGroup.mem_def]

def pairContrib (p : ProcName) : BitVec 32 := if p.vpid = 0 then 5 else 3

def pairInterConfig : EraConfig where
  size := 2
  agreedFailedRanks := []
  tree := eraBuildTreeStructure (-1) (fun _ => none) 2 []
  reduce := bandBytes
  operand := opBandIndex
  dtCount := 2
  datatype := mpiIntIndex
  contrib r := arrayBytes (if r = 0 then [5, BitVec.allOnes 32] else [BitVec.allOnes 32, 3])
  acked _ := []
  gcRange _ := (65535, 0)
  contrib_nil h := absurd h (by decide)

theorem interConfig_pairInter : InterConfig pairInter pairContrib pairInterConfig where
  built := ⟨List.Pairwise.nil, by simp [pairInterConfig], -1, fun _ => none, rfl⟩
  size := rfl
  reduce := rfl
  dtCount := rfl
  contribution {side r p} hp hin := by
    have hprocs : ∀ side, (pairInter.shadow side).procs = [⟨1, 0⟩, ⟨1, 1⟩] := by
      intro side
      cases side <;> decide
    rw [peerLookup, hprocs] at hp
    obtain _ | _ | r := r
    · obtain rfl := Option.some.inj hp
      cases side with
      | true => exact absurd hin (by decide)
      | false => rfl
    · obtain rfl := Option.some.inj hp
      cases side with
      | true => rfl
      | false => exact absurd hin (by decide)
    · cases hp

/-- Both processes complete, and the first one obtains what the second one contributed. -/
theorem inter_agreement_pair :
    ∃ w v, World.Run pairInterConfig (fun _ _ => True) (World.init pairInterConfig) pairRun w ∧
      (w.proc 0).returned = some v ∧ interResult (pairInter.first false) v.bytes = 3 ∧
      InterConfig pairInter pairContrib pairInterConfig ∧
      ∃ S : Finset ℕ, (∀ q ∈ S, pairInterConfig.Participant q) ∧ (∃ d ∈ w.decisions, d.root = true ∧
          ∀ q, pairInterConfig.Participant q → q ∉ d.crashed → q ∈ S) ∧
        ∀ k < 32, (interResult (pairInter.first false) v.bytes).getLsbD k = true ↔
          ∀ q ∈ S, ∀ p', (pairInter.shadow false).peerLookup q = some p' →
            p' ∈ pairInter.group true →
            (pairContrib p').getLsbD k = true := by
  obtain ⟨w, hrun, hw⟩ := World.exists_run pairInterConfig (fun _ _ => True)
    (World.init pairInterConfig) pairRun
    (fun w => (w.proc 0).returned.any fun v : EraValue =>
      decide (interResult (pairInter.first false) v.bytes = 3)) (by decide +kernel)
  obtain ⟨v, hv, hresult⟩ := (Option.any_eq_true _ _).1 hw
  have h := (inter_agreement pairInter pairContrib).2.2 pairInterConfig interConfig_pairInter _ _ w
    hrun false 0 ⟨1, 0⟩ v (by decide) (by decide) hv
  exact ⟨w, v, hrun, hv, of_decide_eq_true hresult, interConfig_pairInter, h⟩

end Agreement

end Ulfm
