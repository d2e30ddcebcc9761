import Mathlib.Data.List.Infix
import Mathlib.Data.List.TakeWhile
import Ulfm.Era.Value

/-!
# Agreed failed ranks

Every process keeps, for a communicator, the increasing list of the ranks that the
decisions so far declare dead. Three loops over increasing lists maintain it:
`newDeadLoop` finds the ranks that a process knows to be dead and that are not in
the list, `mergeLoop` combines what several processes have found, and `agreedLoop`
adds a decided list to the agreed one.

A run is a sequence of these three operations at any of the processes. The lists
that were ever held by a record or a message are kept in `values`, so that any of
them may be combined with any other and may be decided at any process.
-/

namespace Ulfm

open List Function

/-! ### The loops -/

/-- The loop of `era_update_new_dead_list` over the ranks; the second list is what
is left of the agreed failed ranks. -/
def newDeadLoop (active : ℕ → Bool) : List ℕ → List ℕ → List ℕ
  | [], _ => []
  | s :: ss, afr =>
    if afr.head? = some s then newDeadLoop active ss afr.tail
    else if active s then newDeadLoop active ss afr
    else s :: newDeadLoop active ss afr

/-- The ranks that `era_update_new_dead_list` adds in a communicator of `size`
processes. -/
def newDeadRanks (size : ℕ) (afr : List ℕ) (active : ℕ → Bool) : List ℕ :=
  if size = 1 then [] else newDeadLoop active (range size) afr

/-- `era_update_new_dead_list`. -/
def eraUpdateNewDeadList (size : ℕ) (afr : List ℕ) (active : ℕ → Bool)
    (ci : AgreementInfo) : AgreementInfo :=
  if size = 1 then ci else eraMergeNewDeadList ci (newDeadLoop active (range size) afr)

/-- The loop of `era_decide` over the newly dead ranks: the agreed ones before the
index `s`, those from `s` on, and the newly dead ones that are left. -/
def agreedLoop : List ℕ → List ℕ → List ℕ → List ℕ
  | before, rest, [] => before ++ rest
  | before, rest, d :: ds =>
    let before := before ++ rest.takeWhile (· < d)
    match rest.dropWhile (· < d) with
    | [] => before ++ d :: ds
    | a :: as =>
      if d < a then agreedLoop before (d :: a :: as) ds
      else agreedLoop before (a :: as) ds

/-- The agreed failed ranks after a decision. -/
def mergeAgreed (afr newDead : List ℕ) : List ℕ := agreedLoop [] afr newDead

/-! ### What they compute -/

section

variable {k : ℕ} {dst src : List ℕ} (hk : dst.length + src.length ≤ k)
include hk

theorem mem_mergeLoop {x : ℕ} : x ∈ mergeLoop k dst src ↔ x ∈ dst ∨ x ∈ src := by
  induction k generalizing dst src with
  | zero =>
    obtain rfl : dst = [] := length_eq_zero_iff.1 (by omega)
    obtain rfl : src = [] := length_eq_zero_iff.1 (by simpa using hk)
    simp [mergeLoop]
  | succ k ih =>
    match dst, src with
    | [], src => simp [mergeLoop]
    | d :: dst, [] => simp [mergeLoop]
    | d :: dst, s :: src =>
      simp only [length_cons] at hk
      rw [mergeLoop]
      split
      · next hds =>
          rw [mem_cons, ih (by omega), hds, mem_cons, mem_cons]
          tauto
      · split
        · rw [mem_cons, ih (by simp; omega), mem_cons, mem_cons]
          tauto
        · rw [mem_cons, ih (by simp; omega), mem_cons, mem_cons]
          tauto

theorem mergeLoop_sorted (hd : dst.Pairwise (· < ·)) (hs : src.Pairwise (· < ·)) :
    (mergeLoop k dst src).Pairwise (· < ·) := by
  induction k generalizing dst src with
  | zero => simp [mergeLoop]
  | succ k ih =>
    match dst, src with
    | [], src => simpa [mergeLoop] using hs
    | d :: dst, [] => simpa [mergeLoop] using hd
    | d :: dst, s :: src =>
      simp only [length_cons] at hk
      obtain ⟨hd₁, hd₂⟩ := pairwise_cons.1 hd
      obtain ⟨hs₁, hs₂⟩ := pairwise_cons.1 hs
      rw [mergeLoop]
      split
      · next hds =>
          refine pairwise_cons.2 ⟨fun x hx => ?_, ih (by omega) hd₂ hs₂⟩
          rcases (mem_mergeLoop (by omega)).1 hx with hx | hx
          · exact hd₁ x hx
          · exact hds ▸ hs₁ x hx
      · next hne =>
          split
          · next hlt =>
              refine pairwise_cons.2 ⟨fun x hx => ?_, ih (by simp; omega) hd₂ hs⟩
              rcases (mem_mergeLoop (by simp; omega)).1 hx with hx | hx
              · exact hd₁ x hx
              · rcases mem_cons.1 hx with rfl | hx
                · exact hlt
                · exact hlt.trans (hs₁ x hx)
          · next hge =>
              have hlt : s < d := by omega
              refine pairwise_cons.2 ⟨fun x hx => ?_, ih (by simp; omega) hd hs₂⟩
              rcases (mem_mergeLoop (by simp; omega)).1 hx with hx | hx
              · rcases mem_cons.1 hx with rfl | hx
                · exact hlt
                · exact hlt.trans (hd₁ x hx)
              · exact hs₁ x hx

theorem sublist_mergeLoop : dst.Sublist (mergeLoop k dst src) := by
  induction k generalizing dst src with
  | zero =>
    obtain rfl : dst = [] := length_eq_zero_iff.1 (by omega)
    exact nil_sublist _
  | succ k ih =>
    match dst, src with
    | [], src => exact nil_sublist _
    | d :: dst, [] => simp [mergeLoop]
    | d :: dst, s :: src =>
      simp only [length_cons] at hk
      rw [mergeLoop]
      split
      · exact (ih (by omega)).cons_cons d
      · split
        · exact (ih (by simp; omega)).cons_cons d
        · exact (ih (by simp; omega)).cons s

end

theorem eraMergeNewDeadList_newDeadArray (ci : AgreementInfo) (src : List ℕ) :
    (eraMergeNewDeadList ci src).currentValue.newDeadArray =
      mergeLoop (ci.currentValue.newDeadArray.length + src.length)
        ci.currentValue.newDeadArray src := by
  unfold eraMergeNewDeadList
  dsimp only
  split
  · rfl
  · next hle => exact (sublist_mergeLoop le_rfl).eq_of_length_le (not_lt.1 hle)

theorem newDeadLoop_eq_filter {active : ℕ → Bool} {ss afr : List ℕ} (hs : ss.Pairwise (· < ·))
    (ha : afr.Pairwise (· < ·)) (hsub : ∀ a ∈ afr, a ∈ ss) :
    newDeadLoop active ss afr = ss.filter fun s => !active s && decide (s ∉ afr) := by
  induction ss generalizing afr with
  | nil => rfl
  | cons s ss ih =>
    obtain ⟨hs₁, hs₂⟩ := pairwise_cons.1 hs
    rw [newDeadLoop]
    by_cases hhead : afr.head? = some s
    · obtain ⟨as, rfl⟩ : ∃ as, afr = s :: as := by
        cases afr with
        | nil => simp at hhead
        | cons a as => exact ⟨as, by simpa using hhead⟩
      obtain ⟨ha₁, ha₂⟩ := pairwise_cons.1 ha
      have hsub' : ∀ a ∈ as, a ∈ ss := fun a ham =>
        (mem_cons.1 (hsub a (mem_cons_of_mem _ ham))).resolve_left (ha₁ a ham).ne'
      rw [if_pos hhead, tail_cons, ih hs₂ ha₂ hsub', filter_cons_of_neg (by simp)]
      refine filter_congr fun x hx => ?_
      have hxs : x ≠ s := (hs₁ x hx).ne'
      simp [hxs]
    · -- the head of `afr` is the smallest of its members, and none is below `s`
      have hsa : s ∉ afr := by
        intro hmem
        cases afr with
        | nil => exact absurd hmem not_mem_nil
        | cons a as =>
          have has : a ≠ s := fun e => hhead (by simp [e])
          have hlt : a < s := by
            rcases mem_cons.1 hmem with rfl | hmem
            · exact absurd rfl has
            · exact (pairwise_cons.1 ha).1 s hmem
          rcases mem_cons.1 (hsub a mem_cons_self) with rfl | hass
          · exact has rfl
          · exact absurd (hs₁ a hass) (by omega)
      have hsub' : ∀ a ∈ afr, a ∈ ss := fun a ham =>
        (mem_cons.1 (hsub a ham)).resolve_left fun e => hsa (e ▸ ham)
      rw [if_neg hhead, ih hs₂ ha hsub']
      cases hact : active s <;> simp [hact, hsa]

section

variable {size : ℕ} {afr : List ℕ} {active : ℕ → Bool} (ha : afr.Pairwise (· < ·))
  (hlt : ∀ a ∈ afr, a < size)
include ha hlt

theorem mem_newDeadRanks {r : ℕ}
    (hr : r ∈ newDeadRanks size afr active) : r < size ∧ active r = false ∧ r ∉ afr := by
  unfold newDeadRanks at hr
  split at hr
  · exact absurd hr not_mem_nil
  · rw [newDeadLoop_eq_filter pairwise_lt_range ha fun a h => mem_range.2 (hlt a h),
      mem_filter, mem_range] at hr
    simpa using hr

theorem newDeadRanks_sorted : (newDeadRanks size afr active).Pairwise (· < ·) := by
  unfold newDeadRanks
  split
  · exact List.Pairwise.nil
  · rw [newDeadLoop_eq_filter pairwise_lt_range ha fun a h => mem_range.2 (hlt a h)]
    exact pairwise_lt_range.filter _

end

theorem agreedLoop_spec {before rest newDead : List ℕ}
    (hafr : (before ++ rest).Pairwise (· < ·)) (hnew : newDead.Pairwise (· < ·))
    (hlow : ∀ x ∈ before, ∀ d ∈ newDead, x < d) :
    (agreedLoop before rest newDead).Pairwise (· < ·) ∧
      ∀ x, x ∈ agreedLoop before rest newDead ↔ x ∈ before ∨ x ∈ rest ∨ x ∈ newDead := by
  induction newDead generalizing before rest with
  | nil =>
    rw [agreedLoop]
    exact ⟨hafr, by simp⟩
  | cons d ds ih =>
    obtain ⟨hd₁, hd₂⟩ := pairwise_cons.1 hnew
    have hsplit := takeWhile_append_dropWhile (p := fun a => decide (a < d)) (l := rest)
    have hsmall : ∀ x ∈ rest.takeWhile (· < d), x < d := fun x hx => by
      simpa using mem_takeWhile_imp hx
    have hbefore : ∀ x ∈ before ++ rest.takeWhile (· < d), x < d := by
      intro x hx
      rcases mem_append.1 hx with hx | hx
      · exact hlow x hx d mem_cons_self
      · exact hsmall x hx
    have hafr' : ((before ++ rest.takeWhile (· < d)) ++
        rest.dropWhile (· < d)).Pairwise (· < ·) := by
      rw [List.append_assoc, hsplit]
      exact hafr
    have hmem : ∀ x, x ∈ rest ↔ x ∈ rest.takeWhile (· < d) ∨ x ∈ rest.dropWhile (· < d) := by
      intro x
      rw [← mem_append, hsplit]
    have hlow' : ∀ x ∈ before ++ rest.takeWhile (· < d), ∀ e ∈ ds, x < e := fun x hx e he =>
      (hbefore x hx).trans (hd₁ e he)
    rw [agreedLoop]
    cases hdrop : rest.dropWhile (· < d) with
    | nil =>
      rw [hdrop, List.append_nil] at hafr'
      dsimp only
      refine ⟨pairwise_append.2 ⟨hafr', hnew, fun x hx e he => ?_⟩, fun x => ?_⟩
      · rcases mem_cons.1 he with rfl | he
        · exact hbefore x hx
        · exact hlow' x hx e he
      · rw [hmem, hdrop]
        simp only [mem_append, mem_cons, not_mem_nil, or_false]
        tauto
    | cons a as =>
      rw [hdrop] at hafr'
      have had : ¬ a < d := by
        have := head?_dropWhile_not (fun a => decide (a < d)) rest
        rw [hdrop] at this
        simpa using this
      obtain ⟨h₁, h₂, h₃⟩ := pairwise_append.1 hafr'
      dsimp only
      split
      · next hlt =>
          have hins : ((before ++ rest.takeWhile (· < d)) ++ d :: a :: as).Pairwise
              (· < ·) := by
            refine pairwise_append.2 ⟨h₁, pairwise_cons.2 ⟨fun x hx => ?_, h₂⟩, ?_⟩
            · rcases mem_cons.1 hx with rfl | hx
              · exact hlt
              · exact hlt.trans ((pairwise_cons.1 h₂).1 x hx)
            · intro x hx y hy
              rcases mem_cons.1 hy with rfl | hy
              · exact hbefore x hx
              · exact h₃ x hx y hy
          obtain ⟨ih₁, ih₂⟩ := ih hins hd₂ hlow'
          refine ⟨ih₁, fun x => ?_⟩
          rw [ih₂, hmem, hdrop]
          simp only [mem_append, mem_cons]
          tauto
      · next hge =>
          obtain ⟨ih₁, ih₂⟩ := ih hafr' hd₂ hlow'
          have hda : d = a := by omega
          refine ⟨ih₁, fun x => ?_⟩
          rw [ih₂, hmem, hdrop, hda]
          simp only [mem_append, mem_cons]
          tauto

section

variable {afr newDead : List ℕ} (ha : afr.Pairwise (· < ·)) (hn : newDead.Pairwise (· < ·))
include ha hn

theorem mergeAgreed_sorted : (mergeAgreed afr newDead).Pairwise (· < ·) :=
  (agreedLoop_spec (by simpa using ha) hn (by simp)).1

theorem mem_mergeAgreed {x : ℕ} : x ∈ mergeAgreed afr newDead ↔ x ∈ afr ∨ x ∈ newDead := by
  have hspec : x ∈ agreedLoop [] afr newDead ↔ x ∈ [] ∨ x ∈ afr ∨ x ∈ newDead :=
    (agreedLoop_spec (by simpa using ha) hn (by simp)).2 x
  rw [mergeAgreed, hspec]
  simp

end

/-! ### Runs -/

/-- The lists of all the processes of a communicator: the agreed failed ranks and
the decided lists of every process, and the lists of newly dead ranks that a record
or a message has held. -/
structure DeadLists where
  agreed : ℕ → List ℕ
  decided : ℕ → List (List ℕ)
  values : List (List ℕ)

/-- The steps of a run; a list of newly dead ranks is named by its number, a number
that does not occur standing for the empty list of a new record. -/
inductive DeadAction
  | update (p i : ℕ) (active : ℕ → Bool)
  | combine (i j : ℕ)
  | decide (p i : ℕ)

namespace DeadLists

def init : DeadLists where
  agreed _ := []
  decided _ := []
  values := []

/-- A record that holds the list of number `i`. -/
def record (w : DeadLists) (i : ℕ) : AgreementInfo :=
  (eraCreateAgreementInfo
    { ret := mpiSuccess, minAid := 0, maxAid := 0, operand := 0, dtCount := 0, datatype := 0,
      bytes := [], newDeadArray := [] }).setNewDead (w.values.getD i [])

def hold (w : DeadLists) (ci : AgreementInfo) : DeadLists :=
  { w with values := w.values ++ [ci.currentValue.newDeadArray] }

/-- One step in a communicator of `size` processes: a process adds what it knows to a
record, a record is combined with a list from a message, a list is decided. -/
def step (size : ℕ) (w : DeadLists) : DeadAction → DeadLists
  | .update p i active => w.hold (eraUpdateNewDeadList size (w.agreed p) active (w.record i))
  | .combine i j => w.hold (eraMergeNewDeadList (w.record i) (w.values.getD j []))
  | .decide p i =>
    { w with
      agreed := update w.agreed p (mergeAgreed (w.agreed p) (w.values.getD i []))
      decided := update w.decided p (w.values.getD i [] :: w.decided p) }

def run (size : ℕ) (acts : List DeadAction) : DeadLists := acts.foldl (step size) init

def Increasing (size : ℕ) (l : List ℕ) : Prop := l.Pairwise (· < ·) ∧ ∀ r ∈ l, r < size

theorem Increasing.nil (size : ℕ) : Increasing size [] := ⟨List.Pairwise.nil, by simp⟩

theorem Increasing.merge {size : ℕ} {ci : AgreementInfo} {src : List ℕ}
    (hd : Increasing size ci.currentValue.newDeadArray) (hs : Increasing size src) :
    Increasing size (eraMergeNewDeadList ci src).currentValue.newDeadArray := by
  rw [eraMergeNewDeadList_newDeadArray]
  refine ⟨mergeLoop_sorted le_rfl hd.1 hs.1, fun r hr => ?_⟩
  exact ((mem_mergeLoop le_rfl).1 hr).elim (hd.2 r) (hs.2 r)

structure Inv (size : ℕ) (w : DeadLists) : Prop where
  agreed : ∀ p, Increasing size (w.agreed p)
  union : ∀ p r, r ∈ w.agreed p ↔ ∃ l ∈ w.decided p, r ∈ l
  values : ∀ l ∈ w.values, Increasing size l

namespace Inv

variable {size : ℕ} {w : DeadLists}

theorem value (h : Inv size w) (i : ℕ) : Increasing size (w.values.getD i []) := by
  rw [getD_eq_getElem?_getD]
  cases hi : w.values[i]? with
  | none => exact Increasing.nil size
  | some l => exact h.values l (mem_of_getElem? hi)

theorem hold (h : Inv size w) {ci : AgreementInfo}
    (hci : Increasing size ci.currentValue.newDeadArray) : Inv size (w.hold ci) where
  agreed := h.agreed
  union := h.union
  values l hl := by
    rcases mem_append.1 hl with hl | hl
    · exact h.values l hl
    · rw [mem_singleton.1 hl]
      exact hci

theorem step (h : Inv size w) (a : DeadAction) : Inv size (w.step size a) := by
  cases a with
  | update p i active =>
    refine h.hold ?_
    unfold eraUpdateNewDeadList
    split
    · exact h.value i
    · next hsize =>
        have hra : newDeadRanks size (w.agreed p) active =
            newDeadLoop active (List.range size) (w.agreed p) := if_neg hsize
        rw [← hra]
        obtain ⟨ha, hlt⟩ := h.agreed p
        exact Increasing.merge (h.value i)
          ⟨newDeadRanks_sorted ha hlt, fun r hr => (mem_newDeadRanks ha hlt hr).1⟩
  | combine i j => exact h.hold (Increasing.merge (h.value i) (h.value j))
  | decide p i =>
    obtain ⟨ha, hlt⟩ := h.agreed p
    obtain ⟨hv, hvlt⟩ := h.value i
    refine ⟨fun q => ?_, fun q r => ?_, h.values⟩
    · by_cases hq : q = p
      · subst hq
        simp only [DeadLists.step, update_self]
        refine ⟨mergeAgreed_sorted ha hv, fun r hr => ?_⟩
        exact ((mem_mergeAgreed ha hv).1 hr).elim (hlt r) (hvlt r)
      · simp only [DeadLists.step, update_of_ne hq]
        exact h.agreed q
    · by_cases hq : q = p
      · subst hq
        simp only [DeadLists.step, update_self]
        rw [mem_mergeAgreed ha hv, h.union, exists_mem_cons_iff]
        exact or_comm
      · simp only [DeadLists.step, update_of_ne hq]
        exact h.union q r

theorem run (size : ℕ) (acts : List DeadAction) : Inv size (DeadLists.run size acts) := by
  have hinit : Inv size DeadLists.init :=
    ⟨fun _ => Increasing.nil size, by simp [DeadLists.init], by simp [DeadLists.init]⟩
  unfold DeadLists.run
  generalize DeadLists.init = w at hinit
  induction acts generalizing w with
  | nil => exact hinit
  | cons a acts ih => exact ih _ (hinit.step a)

end Inv

end DeadLists

/-- In every run the agreed failed ranks of a process are increasing and the union of
the lists it has decided, the merge of two increasing lists is their increasing
union, and what a process adds is disjoint from its agreed failed ranks. -/
theorem agreed_failed_ranks (size : ℕ) (acts : List DeadAction) {w : DeadLists}
    (hw : w = DeadLists.run size acts) :
    (∀ p, (w.agreed p).Pairwise (· < ·) ∧ ∀ r, r ∈ w.agreed p ↔ ∃ l ∈ w.decided p, r ∈ l) ∧
      (∀ (ci : AgreementInfo) (src : List ℕ),
        ci.currentValue.newDeadArray.Pairwise (· < ·) → src.Pairwise (· < ·) →
        (eraMergeNewDeadList ci src).currentValue.newDeadArray.Pairwise (· < ·) ∧
        ∀ r, r ∈ (eraMergeNewDeadList ci src).currentValue.newDeadArray ↔
          r ∈ ci.currentValue.newDeadArray ∨ r ∈ src) ∧
      ∀ (p : ℕ) (active : ℕ → Bool), ∀ r ∈ newDeadRanks size (w.agreed p) active,
        r ∉ w.agreed p := by
  have hinv : DeadLists.Inv size w := hw ▸ DeadLists.Inv.run size acts
  refine ⟨fun p => ⟨(hinv.agreed p).1, hinv.union p⟩, fun ci src hd hs => ?_,
    fun p active r hr => (mem_newDeadRanks (hinv.agreed p).1 (hinv.agreed p).2 hr).2.2⟩
  rw [eraMergeNewDeadList_newDeadArray]
  exact ⟨mergeLoop_sorted le_rfl hd hs, fun r => mem_mergeLoop le_rfl⟩

/-- Process 0 decides that 3 is dead and later, combined with what process 2 has
found, that 1 is. -/
theorem agreed_failed_ranks_two_decisions :
    (DeadLists.run 4 [.update 0 0 (· ≠ 3), .decide 0 0, .update 2 1 (· ≠ 1), .combine 0 1,
        .decide 0 2]).agreed 0 = [1, 3] ∧
      ∀ r ∈ newDeadRanks 4 [1, 3] (· ≤ 1), r ∉ [1, 3] := by
  have h := (agreed_failed_ranks 4 [.update 0 0 (· ≠ 3), .decide 0 0, .update 2 1 (· ≠ 1),
    .combine 0 1, .decide 0 2] rfl).2.2 0 (· ≤ 1)
  have hagreed : (DeadLists.run 4 [.update 0 0 (· ≠ 3), .decide 0 0, .update 2 1 (· ≠ 1),
      .combine 0 1, .decide 0 2]).agreed 0 = [1, 3] := by decide
  rw [hagreed] at h
  exact ⟨hagreed, h⟩

end Ulfm
