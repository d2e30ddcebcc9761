import Mathlib.Data.List.Pairwise
import Mathlib.Data.List.Sort
import Ulfm.Era.Agreement.Definitions

/-!
# The return value of a node

A node of the tree combines the contributions of its children and its own, in the
order in which they come in. The return value is computed by two functions that
every contribution goes through, `eraCombineAgreementValues` and
`eraUpdateReturnValue`. The second keeps a reference list of acknowledged
failures, and an empty reference is the same as none.
-/

namespace Ulfm

open List

/-- A contribution that a node combines: an `up` message of a child, or the own
one with what `contribute` takes. -/
inductive Contribution
  | child (msg : EraMsg)
  | own (acked newDead : List ℕ) (value : EraValue)
deriving DecidableEq

namespace Contribution

def value : Contribution → EraValue
  | child msg => msg.value
  | own _ _ value => value

/-- The failures that the contribution carries as acknowledged. -/
def acked : Contribution → List ℕ
  | child msg => msg.ack
  | own acked _ _ => acked

/-- What the code puts into a contribution: acknowledged failures in increasing
order, one of the two return values, and success in the own contribution. -/
def Formed : Contribution → Prop
  | child msg =>
    msg.ack.Pairwise (· < ·) ∧ (msg.value.ret = mpiSuccess ∨ msg.value.ret = mpiErrProcFailed)
  | own acked _ value => acked.Pairwise (· < ·) ∧ value.ret = mpiSuccess

instance : DecidablePred Formed
  | child _ => inferInstanceAs (Decidable (_ ∧ _))
  | own .. => inferInstanceAs (Decidable (_ ∧ _))

/-- The contribution enters the agreement. -/
def enter (env : EraEnv) (ci : AgreementInfo) : Contribution → AgreementInfo
  | child msg => addContribution env ci msg
  | own acked newDead value => contribute env ci acked newDead value

variable {c : Contribution}

theorem Formed.sorted (h : c.Formed) : c.acked.Pairwise (· < ·) := by
  cases c with
  | child msg | own acked newDead value => exact h.1

theorem Formed.ret (h : c.Formed) : c.value.ret = mpiSuccess ∨ c.value.ret = mpiErrProcFailed := by
  cases c with
  | child msg => exact h.2
  | own acked newDead value => exact .inl h.2

end Contribution

/-- The agreement after the contributions `cs`; the first one creates it. -/
def combineAll (env : EraEnv) (cs : List Contribution) : Option AgreementInfo :=
  cs.foldl (fun ci c => some (c.enter env (ci.getD (eraCreateAgreementInfo c.value)))) none

/-- The return value after the contributions `cs`. -/
def combinedRet (env : EraEnv) (cs : List Contribution) : Option ℤ :=
  (combineAll env cs).map fun ci => ci.currentValue.ret

/-- All the contributions carry the same set of acknowledged failures. -/
def SameAcked (cs : List Contribution) : Prop := ∀ c ∈ cs, ∀ d ∈ cs, ∀ r, r ∈ c.acked ↔ r ∈ d.acked

/-! ### One contribution -/

section Enter

variable {env : EraEnv} {ci : AgreementInfo}

@[simp] theorem eraMergeNewDeadList_ret (l : List ℕ) :
    (eraMergeNewDeadList ci l).currentValue.ret = ci.currentValue.ret := by
  simp only [eraMergeNewDeadList]
  split <;> rfl

@[simp] theorem eraMergeNewDeadList_acked (l : List ℕ) :
    (eraMergeNewDeadList ci l).acked = ci.acked := by
  simp only [eraMergeNewDeadList]
  split <;> rfl

@[simp] theorem eraMergeNewDeadList_opNotDefined (l : List ℕ) :
    (eraMergeNewDeadList ci l).opNotDefined = ci.opNotDefined := by
  simp only [eraMergeNewDeadList]
  split <;> rfl

@[simp] theorem eraCombineAgreementValues_acked (value : EraValue) :
    (eraCombineAgreementValues env ci value).acked = ci.acked := by
  simp only [eraCombineAgreementValues, eraMergeNewDeadList_acked]
  split <;> rfl

@[simp] theorem eraCombineAgreementValues_opNotDefined (value : EraValue) :
    (eraCombineAgreementValues env ci value).opNotDefined = false := by
  simp only [eraCombineAgreementValues, eraMergeNewDeadList_opNotDefined]
  cases h : ci.opNotDefined with
  | true => rfl
  | false => rfl

@[simp] theorem eraUpdateReturnValue_opNotDefined (acked : Option (List ℕ)) :
    (eraUpdateReturnValue env ci acked).opNotDefined = ci.opNotDefined := by
  unfold eraUpdateReturnValue
  repeat' split
  all_goals rfl

theorem eraCombineAgreementValues_ret (value : EraValue) :
    (eraCombineAgreementValues env ci value).currentValue.ret = if ci.opNotDefined then value.ret
      else if ci.currentValue.ret < value.ret then value.ret else ci.currentValue.ret := by
  simp only [eraCombineAgreementValues, eraMergeNewDeadList_ret]
  split <;> rfl

/-- The agreement has combined contributions; `ok` says whether they succeed and
`ref` is the reference list while they do. -/
structure Tally (ci : AgreementInfo) (ok : Prop) (ref : List ℕ) : Prop where
  defined : ci.opNotDefined = false
  ret : ok ∧ ci.currentValue.ret = mpiSuccess ∨ ¬ ok ∧ ci.currentValue.ret = mpiErrProcFailed
  ref : ok → ci.acked = ref

/-- The reference list after a comparison that succeeds. -/
def nextRef (ref acked : List ℕ) : List ℕ := if ref = [] then acked else ref

variable {c : Contribution} {ok ok' : Prop} {ref acked : List ℕ} {value : EraValue}

theorem Tally.congr (h : Tally ci ok ref) (hok : ok ↔ ok') : Tally ci ok' ref := propext hok ▸ h

variable (env)

theorem Tally.update (acked : List ℕ) (h : Tally ci ok ref) :
    Tally (eraUpdateReturnValue env ci (some acked)) (ok ∧ (ref = [] ∨ ref = acked))
      (nextRef ref acked) := by
  obtain ⟨hdef, ⟨hok, hret⟩ | ⟨hok, hret⟩, href⟩ := h
  · have hne : ci.currentValue.ret ≠ mpiErrProcFailed := by
      simp [hret, mpiSuccess, mpiErrProcFailed]
    have hack := href hok
    constructor
    · simpa using hdef
    · simp only [eraUpdateReturnValue, hne, hack, if_false]
      grind [AgreementInfo.setRet]
    · simp only [eraUpdateReturnValue, hne, hack, if_false, nextRef]
      grind
  · constructor
    · simpa using hdef
    · refine .inr ⟨fun h => hok h.1, ?_⟩
      simp [eraUpdateReturnValue, hret]
    · exact fun h => absurd h.1 hok

theorem Tally.combine (h : Tally ci ok ref)
    (hv : value.ret = mpiSuccess ∨ value.ret = mpiErrProcFailed) :
    Tally (eraCombineAgreementValues env ci value) (ok ∧ value.ret = mpiSuccess) ref := by
  obtain ⟨hdef, hret, href⟩ := h
  refine ⟨by simp, ?_, fun h => by simpa using href h.1⟩
  rw [eraCombineAgreementValues_ret, hdef]
  simp only [mpiSuccess, mpiErrProcFailed] at hret hv ⊢
  grind

theorem Tally.merge (l : List ℕ) (h : Tally ci ok ref) :
    Tally (eraMergeNewDeadList ci l) ok ref := by
  obtain ⟨hdef, hret, href⟩ := h
  exact ⟨by simpa using hdef, by simpa using hret, by simpa using href⟩

theorem Tally.enter (h : Tally ci ok ref) (hc : c.Formed) : Tally (c.enter env ci)
      (ok ∧ c.value.ret = mpiSuccess ∧ (ref = [] ∨ ref = c.acked)) (nextRef ref c.acked) := by
  cases c with
  | child msg =>
    have h₁ := (h.combine env hc.ret).update env msg.ack
    obtain ⟨hdef, hret, href⟩ := h₁.congr and_assoc
    exact ⟨hdef, hret, href⟩
  | own acked newDead value =>
    -- the comparison comes before the combination here
    have h₁ : Tally { eraUpdateReturnValue env ci (some acked) with comm := true }
        (ok ∧ (ref = [] ∨ ref = acked)) (nextRef ref acked) := by
      obtain ⟨hdef, hret, href⟩ := h.update env acked
      exact ⟨hdef, hret, href⟩
    have h₂ := (h₁.merge newDead).combine env hc.ret
    obtain ⟨hdef, hret, href⟩ := h₂.congr (and_right_comm.trans and_assoc)
    exact ⟨rfl, hret, href⟩

theorem tally_enter_create (hc : c.Formed) :
    Tally (c.enter env (eraCreateAgreementInfo c.value)) (c.value.ret = mpiSuccess) c.acked := by
  cases c with
  | child msg =>
    have h₀ : Tally (eraCombineAgreementValues env (eraCreateAgreementInfo msg.value) msg.value)
        (msg.value.ret = mpiSuccess) [] := by
      refine ⟨by simp, ?_, fun _ => by simp [eraCreateAgreementInfo]⟩
      have hret : msg.value.ret = mpiSuccess ∨ msg.value.ret = mpiErrProcFailed := hc.ret
      simp only [eraCombineAgreementValues_ret, eraCreateAgreementInfo, if_true]
      obtain h | h := hret
      · exact .inl ⟨h, h⟩
      · exact .inr ⟨by rw [h]; decide, h⟩
    have h₁ := (h₀.update env msg.ack).congr (and_iff_left (.inl rfl))
    obtain ⟨hdef, hret, href⟩ := h₁
    exact ⟨hdef, hret, href⟩
  | own acked newDead value =>
    have hret : value.ret = mpiSuccess := hc.2
    have hne : value.ret ≠ mpiErrProcFailed := by rw [hret]; decide
    refine ⟨rfl, .inl ⟨hret, ?_⟩, fun _ => ?_⟩
    · simp [Contribution.enter, contribute, eraCombineAgreementValues_ret,
        eraCreateAgreementInfo, hret, Contribution.value]
    · simp [Contribution.enter, contribute, eraCreateAgreementInfo, eraUpdateReturnValue, hne,
        Contribution.value, Contribution.acked]

end Enter

/-! ### All the contributions -/

/-- A contribution is accepted after another one when the reference that the
other one sets is missing or the same. -/
def Contribution.Follows (c d : Contribution) : Prop := c.acked = [] ∨ c.acked = d.acked

/-- The contributions succeed in this order. -/
structure Accepted (cs : List Contribution) : Prop where
  ret : ∀ c ∈ cs, c.value.ret = mpiSuccess
  acked : cs.Pairwise Contribution.Follows

section Fold

variable {env : EraEnv} {cs ds : List Contribution} {c : Contribution}

theorem accepted_cons :
    Accepted (c :: cs) ↔ c.value.ret = mpiSuccess ∧ (∀ d ∈ cs, c.Follows d) ∧ Accepted cs := by
  constructor
  · rintro ⟨hret, hacked⟩
    rw [pairwise_cons] at hacked
    exact ⟨hret c (by simp), hacked.1, fun d hd => hret d (by simp [hd]), hacked.2⟩
  · rintro ⟨hret, hfollows, hacc⟩
    exact ⟨forall_mem_cons.2 ⟨hret, hacc.ret⟩, hacc.acked.cons hfollows⟩

theorem Tally.foldl {ci : AgreementInfo} {ok : Prop} {ref : List ℕ} (h : Tally ci ok ref)
    (hcs : ∀ c ∈ cs, c.Formed) :
    ∃ ci' ref', cs.foldl
        (fun ci c => some (c.enter env (ci.getD (eraCreateAgreementInfo c.value)))) (some ci) =
          some ci' ∧
      Tally ci' (ok ∧ (∀ c ∈ cs, ref = [] ∨ ref = c.acked) ∧ Accepted cs) ref' := by
  induction cs generalizing ci ok ref with
  | nil => exact ⟨ci, ref, rfl, h.congr (by simp [Accepted.mk])⟩
  | cons c cs ih =>
    have hc := h.enter env (hcs c (by simp))
    obtain ⟨ci', ref', heq, htally⟩ := ih hc fun d hd => hcs d (by simp [hd])
    refine ⟨ci', ref', heq, htally.congr ?_⟩
    simp only [accepted_cons, forall_mem_cons, Contribution.Follows, nextRef]
    by_cases href : ref = []
    · simp only [href, if_true]
      tauto
    · simp only [href, if_false, false_or]
      -- the reference is that of the first contribution
      constructor
      · rintro ⟨⟨hok, hret, hc⟩, hcs, hacc⟩
        exact ⟨hok, ⟨hc, hcs⟩, hret, fun d hd => .inr (hc ▸ hcs d hd), hacc⟩
      · rintro ⟨hok, ⟨hc, hcs⟩, hret, -, hacc⟩
        exact ⟨⟨hok, hret, hc⟩, hcs, hacc⟩

variable (env)

theorem combinedRet_eq (hne : cs ≠ []) (hcs : ∀ c ∈ cs, c.Formed) :
    Accepted cs ∧ combinedRet env cs = some mpiSuccess ∨
      ¬ Accepted cs ∧ combinedRet env cs = some mpiErrProcFailed := by
  cases cs with
  | nil => exact absurd rfl hne
  | cons c cs =>
    have htail : ∀ d ∈ cs, d.Formed := fun d hd => hcs d (by simp [hd])
    have h₀ := tally_enter_create env (hcs c (by simp))
    obtain ⟨ci, ref, heq, htally⟩ := h₀.foldl htail
    have hci : combineAll env (c :: cs) = some ci := heq
    have hret := (htally.congr accepted_cons.symm).ret
    simpa [combinedRet, hci] using hret

theorem combinedRet_eq_success_iff (hne : cs ≠ []) (hcs : ∀ c ∈ cs, c.Formed) :
    combinedRet env cs = some mpiSuccess ↔ Accepted cs := by
  obtain ⟨h, hret⟩ | ⟨h, hret⟩ := combinedRet_eq env hne hcs
  · simp [h, hret]
  · simp [h, hret, mpiSuccess, mpiErrProcFailed]

end Fold

/-- What the return value is for: success means that all the acknowledged
failures are the same, the order does not matter, and an empty set next to one
that is not is a failure. -/
structure ReportsAcked (env : EraEnv) (cs : List Contribution) : Prop where
  success : ∀ ds, ds.Perm cs → combinedRet env ds = some mpiSuccess → SameAcked cs
  order : ∀ ds ds', ds.Perm cs → ds'.Perm cs → combinedRet env ds = combinedRet env ds'
  empty : (∃ c ∈ cs, c.acked = []) → (∃ c ∈ cs, c.acked ≠ []) →
    ∀ ds, ds.Perm cs → combinedRet env ds = some mpiErrProcFailed

/-- The contributions that the missing reference hides: they carry success, some
acknowledge nothing, and the others all acknowledge the same failures. -/
structure Hidden (cs : List Contribution) : Prop where
  ret : ∀ c ∈ cs, c.value.ret = mpiSuccess
  empty : ∃ c ∈ cs, c.acked = []
  nonempty : ∃ c ∈ cs, c.acked ≠ []
  same : ∀ c ∈ cs, ∀ d ∈ cs, c.acked ≠ [] → d.acked ≠ [] → c.acked = d.acked

section Report

variable {cs ds : List Contribution}

theorem sameAcked_iff (hcs : ∀ c ∈ cs, c.Formed) :
    SameAcked cs ↔ ∀ c ∈ cs, ∀ d ∈ cs, c.acked = d.acked := by
  constructor
  · intro h c hc d hd
    exact (hcs c hc).sorted.eq_of_mem_iff (hcs d hd).sorted (h c hc d hd)
  · intro h c hc d hd r
    rw [h c hc d hd]

theorem Accepted.of_sameAcked (hcs : ∀ c ∈ cs, c.Formed) (h : SameAcked cs)
    (hret : ∀ c ∈ cs, c.value.ret = mpiSuccess) : Accepted cs := by
  rw [sameAcked_iff hcs] at h
  exact ⟨hret, pairwise_of_forall_mem_list fun c hc d hd => .inr (h c hc d hd)⟩

theorem SameAcked.perm (h : SameAcked cs) (hp : ds.Perm cs) : SameAcked ds :=
  fun c hc d hd => h c (hp.mem_iff.1 hc) d (hp.mem_iff.1 hd)

theorem Accepted.hidden (hcs : ∀ c ∈ cs, c.Formed) (h : Accepted cs) (hs : ¬ SameAcked cs) :
    Hidden cs := by
  have hsame : ∀ c ∈ cs, ∀ d ∈ cs, c.acked ≠ [] → d.acked ≠ [] → c.acked = d.acked := by
    have hp : cs.Pairwise fun c d => c.acked ≠ [] → d.acked ≠ [] → c.acked = d.acked :=
      h.acked.imp fun hcd hc _ => hcd.resolve_left hc
    have : Std.Symm fun c d : Contribution => c.acked ≠ [] → d.acked ≠ [] → c.acked = d.acked :=
      ⟨fun _ _ hcd hd hc => (hcd hc hd).symm⟩
    exact fun c hc d hd => hp.forall_of_forall (fun _ _ _ _ => rfl) hc hd
  rw [sameAcked_iff hcs] at hs
  push Not at hs
  obtain ⟨c, hc, d, hd, hcd⟩ := hs
  refine ⟨h.ret, ?_, ?_, hsame⟩
  · by_contra hemp
    push Not at hemp
    exact hcd (hsame c hc d hd (hemp c hc) (hemp d hd))
  · by_contra hnon
    push Not at hnon
    exact hcd ((hnon c hc).trans (hnon d hd).symm)

/-- The contributions with an empty set first. -/
def emptyFirst (cs : List Contribution) : List Contribution :=
  cs.filter (fun c => decide (c.acked = [])) ++ cs.filter fun c => !decide (c.acked = [])

theorem emptyFirst_perm (cs : List Contribution) : (emptyFirst cs).Perm cs :=
  filter_append_perm _ cs

theorem Hidden.accepted (h : Hidden cs) : Accepted (emptyFirst cs) := by
  constructor
  · exact fun c hc => h.ret c ((emptyFirst_perm cs).mem_iff.1 hc)
  · rw [emptyFirst, pairwise_append]
    refine ⟨?_, ?_, ?_⟩
    · refine pairwise_of_forall_mem_list fun c hc d _ => .inl ?_
      simpa using (mem_filter.1 hc).2
    · refine pairwise_of_forall_mem_list fun c hc d hd => .inr ?_
      rw [mem_filter] at hc hd
      exact h.same c hc.1 d hd.1 (by simpa using hc.2) (by simpa using hd.2)
    · intro c hc d _
      exact .inl (by simpa using (mem_filter.1 hc).2)

theorem Hidden.not_sameAcked (h : Hidden cs) : ¬ SameAcked cs := by
  obtain ⟨c, hc, hemp⟩ := h.empty
  obtain ⟨d, hd, hnon⟩ := h.nonempty
  intro hs
  obtain ⟨r, hr⟩ := exists_mem_of_ne_nil d.acked hnon
  have hcr := (hs c hc d hd r).2 hr
  simp [hemp] at hcr

theorem Hidden.perm (h : Hidden ds) (hp : ds.Perm cs) : Hidden cs := by
  constructor
  · exact fun c hc => h.ret c (hp.mem_iff.2 hc)
  · obtain ⟨c, hc, hemp⟩ := h.empty
    exact ⟨c, hp.mem_iff.1 hc, hemp⟩
  · obtain ⟨c, hc, hnon⟩ := h.nonempty
    exact ⟨c, hp.mem_iff.1 hc, hnon⟩
  · exact fun c hc d hd => h.same c (hp.mem_iff.2 hc) d (hp.mem_iff.2 hd)

theorem accepted_iff_of_not_hidden (hds : ∀ c ∈ ds, c.Formed) (hh : ¬ Hidden cs) (hp : ds.Perm cs) :
    Accepted ds ↔ SameAcked cs ∧ ∀ c ∈ cs, c.value.ret = mpiSuccess := by
  constructor
  · intro h
    refine ⟨?_, fun c hc => h.ret c (hp.mem_iff.2 hc)⟩
    by_contra hs
    exact hh ((h.hidden hds fun hs' => hs (hs'.perm hp.symm)).perm hp)
  · rintro ⟨hs, hret⟩
    exact Accepted.of_sameAcked hds (hs.perm hp) fun c hc => hret c (hp.mem_iff.1 hc)

/-- The return value tells what it is for exactly when the contributions are not
hidden. -/
theorem reportsAcked_iff (env : EraEnv) (hcs : ∀ c ∈ cs, c.Formed) :
    ReportsAcked env cs ↔ ¬ Hidden cs := by
  constructor
  · intro h hh
    have hp := emptyFirst_perm cs
    have hne : emptyFirst cs ≠ [] := by
      obtain ⟨c, hc, -⟩ := hh.empty
      exact ne_nil_of_mem (hp.mem_iff.2 hc)
    have hsuccess := (combinedRet_eq_success_iff env hne
      fun c hc => hcs c (hp.mem_iff.1 hc)).2 hh.accepted
    exact hh.not_sameAcked (h.success _ hp hsuccess)
  · intro hh
    by_cases hne : cs = []
    · subst hne
      refine ⟨fun _ _ _ c hc => absurd hc (by simp), fun ds ds' hds hds' => ?_, ?_⟩
      · rw [hds.eq_nil, hds'.eq_nil]
      · rintro ⟨c, hc, -⟩
        simp at hc
    have hret : ∀ ds, ds.Perm cs → (SameAcked cs ∧ ∀ c ∈ cs, c.value.ret = mpiSuccess) ∧
            combinedRet env ds = some mpiSuccess ∨
          ¬ (SameAcked cs ∧ ∀ c ∈ cs, c.value.ret = mpiSuccess) ∧
            combinedRet env ds = some mpiErrProcFailed := by
      intro ds hp
      have hds : ∀ c ∈ ds, c.Formed := fun c hc => hcs c (hp.mem_iff.1 hc)
      rw [← accepted_iff_of_not_hidden hds hh hp]
      exact combinedRet_eq env (fun h => hne (perm_nil.1 (h ▸ hp).symm)) hds
    constructor
    · intro ds hp hsuccess
      obtain ⟨h, -⟩ | ⟨-, h⟩ := hret ds hp
      · exact h.1
      · rw [h] at hsuccess
        exact absurd hsuccess (by decide)
    · intro ds ds' hp hp'
      obtain ⟨h, hds⟩ | ⟨h, hds⟩ := hret ds hp <;> obtain ⟨h', hds'⟩ | ⟨h', hds'⟩ := hret ds' hp'
      · rw [hds, hds']
      · exact absurd h h'
      · exact absurd h' h
      · rw [hds, hds']
    · rintro ⟨c, hc, hemp⟩ ⟨d, hd, hnon⟩ ds hp
      obtain ⟨⟨hs, -⟩, -⟩ | ⟨-, h⟩ := hret ds hp
      · have hcd := (sameAcked_iff hcs).1 hs c hc d hd
        exact absurd (hcd.symm.trans hemp) hnon
      · exact h

end Report

/-- Rank 0 of three processes; it has heard of the failure of rank 2. -/
def rootEnv : EraEnv where
  me := 0
  size := 3
  failed := [2]
  failedElsewhere := 0
  reduce := bandBytes

/-- The contribution of rank 1 with the acknowledged failures `ack`. -/
def fromOne (ack : List ℕ) : Contribution :=
  .child { type := .up, src := 1, dst := 0, value := successValue, ack }

/-- The contribution of rank 0 with the acknowledged failures `acked`. -/
def fromRoot (acked : List ℕ) : Contribution := .own acked [] successValue

theorem reportsAcked_iff_differing : (∀ c ∈ [fromRoot [1], fromOne [2]], c.Formed) ∧
      ReportsAcked rootEnv [fromRoot [1], fromOne [2]] := by
  have hcs : ∀ c ∈ [fromRoot [1], fromOne [2]], c.Formed := by decide
  refine ⟨hcs, (reportsAcked_iff rootEnv hcs).2 fun h => ?_⟩
  obtain ⟨c, hc, hemp⟩ := h.empty
  revert c
  decide

/-- Rank 1 has acknowledged the failure of rank 2 and the root has not: the
result depends on which of the two contributions comes first. -/
theorem empty_acked_not_reported : (∀ c ∈ [fromRoot [], fromOne [2]], c.Formed) ∧
      combinedRet rootEnv [fromRoot [], fromOne [2]] = some mpiSuccess ∧
      combinedRet rootEnv [fromOne [2], fromRoot []] = some mpiErrProcFailed ∧
      ¬ ReportsAcked rootEnv [fromRoot [], fromOne [2]] := by
  refine ⟨by decide, by decide, by decide, fun h => ?_⟩
  have hret := h.order _ _ (List.Perm.refl _) (List.Perm.swap _ _ _)
  revert hret
  decide

end Ulfm
