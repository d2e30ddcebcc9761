import Ulfm.Pml.Matching
import Mathlib.Data.List.Nodup

/-!
# The queues and the log

The invariant of the matching has one part for the requests and one for the
fragments. `Requests` says that the queues of the posted requests are in the order
of the posts and hold the requests that the log leaves open. `Messages` says that
the fragments up to the counter of a peer have all arrived and are unexpected or
gone, and that the others are parked within 65536 of the counter or gone. The
lemmas say how each part changes with one entry of the log.
-/

namespace Ulfm

open List Function

variable {D : Type}

@[simp] theorem completed_cons {r : RecvReq} {n : Note D} {log : List (Note D)} :
    Completed r (n :: log) ↔ n.Completes r ∨ Completed r log :=
  exists_mem_cons_iff ..

@[simp] theorem gone_cons {f : Frag D} {n : Note D} {log : List (Note D)} :
    Gone f (n :: log) ↔ n.Takes f ∨ Gone f log :=
  exists_mem_cons_iff ..

/-- The queues of the requests and what the log says about them. -/
structure Requests (wild : List RecvReq) (specific : Nat → List RecvReq) (started : Nat)
    (log : List (Note D)) : Prop where
  wild_sorted : wild.Pairwise fun r q => r.index < q.index
  specific_sorted : ∀ i, (specific i).Pairwise fun r q => r.index < q.index
  wild_peer : ∀ r ∈ wild, r.peer = none
  specific_peer : ∀ i, ∀ r ∈ specific i, r.peer = some i
  wild_open : ∀ r ∈ wild, .posted r ∈ log ∧ ¬ Completed r log
  specific_open : ∀ i, ∀ r ∈ specific i, .posted r ∈ log ∧ ¬ Completed r log
  epoch : ∃ e, (∀ r ∈ wild, r.index / 2 ^ 32 = e) ∧ ∀ i, ∀ r ∈ specific i, r.index / 2 ^ 32 = e
  posted_lt : ∀ r, .posted r ∈ log → r.index < started
  posted_inj : ∀ r q, .posted r ∈ log → .posted q ∈ log → r.index = q.index → r = q
  completed_posted : ∀ r, Completed r log → .posted r ∈ log
  waiting : ∀ r, .posted r ∈ log → r.waits = true →
    r ∈ wild ∨ (∃ i, r ∈ specific i) ∨ Completed r log

/-- The queues of the fragments and what the log says about them. `hand` is the
fragment that is being handled. -/
structure Messages (numProcs : Nat) (counted : Nat → Nat)
    (cantMatch unexpected : Nat → List (Frag D))
    (hand : Option (Frag D)) (log : List (Note D)) : Prop where
  arrived_wf : ∀ f, .arrived f ∈ log → f.src < numProcs ∧ 0 < f.index ∧ f.tag ≠ ompiAnyTag
  arrived_inj : ∀ f g, .arrived f ∈ log → .arrived g ∈ log → f.src = g.src → f.index = g.index →
    f = g
  counted_arrived : ∀ i k, 0 < k → k ≤ counted i → ∃ f, .arrived f ∈ log ∧ f.src = i ∧ f.index = k
  settled : ∀ f, .arrived f ∈ log → f.index ≤ counted f.src →
    hand = some f ∨ f ∈ unexpected f.src ∨ Gone f log
  uncounted : ∀ f, .arrived f ∈ log → counted f.src < f.index →
    hand = some f ∨ f ∈ cantMatch f.src ∨ Gone f log
  unexpected_src : ∀ i, ∀ f ∈ unexpected i, f.src = i ∧ .arrived f ∈ log ∧ f.index ≤ counted i
  unexpected_open : ∀ i, ∀ f ∈ unexpected i, ¬ Gone f log ∧ hand ≠ some f
  unexpected_sorted : ∀ i, (unexpected i).Pairwise fun f g => f.index < g.index
  parked_src : ∀ i, ∀ f ∈ cantMatch i, f.src = i ∧ .arrived f ∈ log
  parked_window : ∀ i, ∀ f ∈ cantMatch i, counted i < f.index ∧ f.index ≤ counted i + 2 ^ 16
  parked_open : ∀ i, ∀ f ∈ cantMatch i, ¬ Gone f log ∧ hand ≠ some f
  parked_nodup : ∀ i, (cantMatch i).Nodup
  hand_open : ∀ f, hand = some f → .arrived f ∈ log ∧ ¬ Gone f log
  gone_arrived : ∀ f, Gone f log → .arrived f ∈ log
  received_counted : ∀ r f, .received r f ∈ log → f.index ≤ counted f.src

section RequestSteps

variable {wild : List RecvReq} {specific : Nat → List RecvReq} {started : Nat} {log : List (Note D)}

section

variable (h : Requests wild specific started log)
include h

theorem Requests.note {n : Note D} (hcomp : ∀ r, ¬ n.Completes r) (hpost : ∀ r, n ≠ .posted r) :
    Requests wild specific started (n :: log) := by
  have hmem : ∀ r, Note.posted r ∈ n :: log ↔ Note.posted r ∈ log := by
    intro r
    simp [(hpost r).symm]
  have hdone : ∀ r, Completed r (n :: log) ↔ Completed r log := by
    intro r
    simp [hcomp r]
  refine ⟨h.wild_sorted, h.specific_sorted, h.wild_peer, h.specific_peer, ?_, ?_, h.epoch, ?_, ?_,
    ?_, ?_⟩
  · intro r hr
    rw [hmem, hdone]
    exact h.wild_open r hr
  · intro i r hr
    rw [hmem, hdone]
    exact h.specific_open i r hr
  · intro r hr
    exact h.posted_lt r ((hmem r).mp hr)
  · intro r q hr hq
    exact h.posted_inj r q ((hmem r).mp hr) ((hmem q).mp hq)
  · intro r hr
    exact (hmem r).mpr (h.completed_posted r ((hdone r).mp hr))
  · intro r hr hw
    rw [hdone]
    exact h.waiting r ((hmem r).mp hr) hw

theorem Requests.complete {r : RecvReq} {n : Note D}
    {wild' : List RecvReq} {specific' : Nat → List RecvReq} (hw : wild'.Sublist wild)
    (hs : ∀ i, (specific' i).Sublist (specific i)) (hrw : r ∉ wild') (hrs : ∀ i, r ∉ specific' i)
    (hkeepw : ∀ q ∈ wild, q ≠ r → q ∈ wild')
    (hkeeps : ∀ i, ∀ q ∈ specific i, q ≠ r → q ∈ specific' i) (hposted : .posted r ∈ log)
    (hcomp : ∀ q, n.Completes q ↔ q = r) (hpost : ∀ q, n ≠ .posted q) :
    Requests wild' specific' started (n :: log) := by
  have hmem : ∀ q, Note.posted q ∈ n :: log ↔ Note.posted q ∈ log := by
    intro q
    simp [(hpost q).symm]
  have hdone : ∀ q, Completed q (n :: log) ↔ q = r ∨ Completed q log := by
    intro q
    simp [hcomp q]
  refine ⟨h.wild_sorted.sublist hw, fun i => (h.specific_sorted i).sublist (hs i),
    ?_, ?_, ?_, ?_, ?_,
    ?_, ?_, ?_, ?_⟩
  · exact fun q hq => h.wild_peer q (hw.subset hq)
  · exact fun i q hq => h.specific_peer i q ((hs i).subset hq)
  · intro q hq
    obtain ⟨hpost, hopen⟩ := h.wild_open q (hw.subset hq)
    refine ⟨(hmem q).mpr hpost, fun hc => ?_⟩
    rcases (hdone q).mp hc with rfl | hc
    · exact hrw hq
    · exact hopen hc
  · intro i q hq
    obtain ⟨hpost, hopen⟩ := h.specific_open i q ((hs i).subset hq)
    refine ⟨(hmem q).mpr hpost, fun hc => ?_⟩
    rcases (hdone q).mp hc with rfl | hc
    · exact hrs i hq
    · exact hopen hc
  · obtain ⟨e, hew, hes⟩ := h.epoch
    exact ⟨e, fun q hq => hew q (hw.subset hq), fun i q hq => hes i q ((hs i).subset hq)⟩
  · intro q hq
    exact h.posted_lt q ((hmem q).mp hq)
  · intro q q' hq hq'
    exact h.posted_inj q q' ((hmem q).mp hq) ((hmem q').mp hq')
  · intro q hq
    rcases (hdone q).mp hq with rfl | hq
    · exact (hmem q).mpr hposted
    · exact (hmem q).mpr (h.completed_posted q hq)
  · intro q hq hwait
    rw [hdone]
    by_cases hqr : q = r
    · exact .inr (.inr (.inl hqr))
    rcases h.waiting q ((hmem q).mp hq) hwait with hq | ⟨i, hq⟩ | hq
    · exact .inl (hkeepw q hq hqr)
    · exact .inr (.inl ⟨i, hkeeps i q hq hqr⟩)
    · exact .inr (.inr (.inr hq))

theorem Requests.post (r : RecvReq) (done : List (Note D))
    (extra : List RecvReq) (extras : Nat → List RecvReq) (hi : r.index = started)
    (hepochw : ∀ q ∈ wild, q.index / 2 ^ 32 = r.index / 2 ^ 32)
    (hepochs : ∀ i, ∀ q ∈ specific i, q.index / 2 ^ 32 = r.index / 2 ^ 32)
    (hextra : extra = [] ∨ (extra = [r] ∧ r.peer = none))
    (hextras : ∀ i, extras i = [] ∨ (extras i = [r] ∧ r.peer = some i))
    (hdone : ∀ n ∈ done, (∀ q, n.Completes q → q = r) ∧ ∀ q, n ≠ .posted q)
    (hopen : (r ∈ extra ∨ ∃ i, r ∈ extras i) → ¬ Completed r done)
    (hwait : r.waits = true → r ∈ extra ∨ (∃ i, r ∈ extras i) ∨ Completed r done) :
    Requests (wild ++ extra) (fun i => specific i ++ extras i) (started + 1)
      (done ++ .posted r :: log) := by
  have hfresh : Note.posted r ∉ log := fun hmem => Nat.lt_irrefl _ (hi ▸ h.posted_lt r hmem)
  have hmem : ∀ q, Note.posted q ∈ done ++ .posted r :: log ↔ q = r ∨ Note.posted q ∈ log := by
    intro q
    constructor
    · intro hq
      rcases mem_append.mp hq with hq | hq
      · exact absurd rfl ((hdone _ hq).2 q)
      · rcases mem_cons.mp hq with hq | hq
        · exact .inl (Note.posted.inj hq)
        · exact .inr hq
    · rintro (rfl | hq)
      · exact mem_append_right _ mem_cons_self
      · exact mem_append_right _ (mem_cons_of_mem _ hq)
  have hcompleted : ∀ q, Completed q (done ++ .posted r :: log) ↔
      Completed q done ∨ Completed q log := by
    intro q
    simp only [Completed, mem_append, mem_cons]
    constructor
    · rintro ⟨n, hn | rfl | hn, hc⟩
      · exact .inl ⟨n, hn, hc⟩
      · exact absurd hc id
      · exact .inr ⟨n, hn, hc⟩
    · rintro (⟨n, hn, hc⟩ | ⟨n, hn, hc⟩)
      · exact ⟨n, .inl hn, hc⟩
      · exact ⟨n, .inr (.inr hn), hc⟩
  have honly : ∀ q, Completed q done → q = r := fun q ⟨n, hn, hc⟩ => (hdone n hn).1 q hc
  have hnotyet : ¬ Completed r log := fun hc => hfresh (h.completed_posted r hc)
  have hold : ∀ q, Note.posted q ∈ log → q ≠ r := fun q hq heq => hfresh (heq ▸ hq)
  have hsorted : ∀ queue rest : List RecvReq, (queue.Pairwise fun r q => r.index < q.index) →
      (∀ q ∈ queue, Note.posted q ∈ log) → (rest = [] ∨ rest = [r]) →
      (queue ++ rest).Pairwise fun r q => r.index < q.index := by
    intro queue rest hsorted hposted hrest
    rcases hrest with rfl | rfl
    · rwa [List.append_nil]
    · refine pairwise_append.mpr ⟨hsorted, pairwise_singleton _ r, ?_⟩
      intro q hq q' hq'
      rw [mem_singleton.mp hq', hi]
      exact h.posted_lt q (hposted q hq)
  have hopened : ∀ q, Note.posted q ∈ log ∧ ¬ Completed q log →
      Note.posted q ∈ done ++ .posted r :: log ∧ ¬ Completed q (done ++ .posted r :: log) := by
    intro q hq
    refine ⟨(hmem q).mpr (.inr hq.1), fun hc => ?_⟩
    rcases (hcompleted q).mp hc with hc | hc
    · exact hold q hq.1 (honly q hc)
    · exact hq.2 hc
  have hnew : (r ∈ extra ∨ ∃ i, r ∈ extras i) →
      Note.posted r ∈ done ++ .posted r :: log ∧ ¬ Completed r (done ++ .posted r :: log) := by
    intro hin
    refine ⟨(hmem r).mpr (.inl rfl), fun hc => ?_⟩
    rcases (hcompleted r).mp hc with hc | hc
    · exact hopen hin hc
    · exact hnotyet hc
  have hextra_eq : ∀ q ∈ extra, q = r ∧ r.peer = none := by
    rcases hextra with rfl | ⟨rfl, hp⟩
    · simp
    · exact fun q hq => ⟨mem_singleton.mp hq, hp⟩
  have hextras_eq : ∀ i, ∀ q ∈ extras i, q = r ∧ r.peer = some i := by
    intro i
    rcases hextras i with hnil | ⟨hone, hp⟩
    · simp [hnil]
    · rw [hone]
      exact fun q hq => ⟨mem_singleton.mp hq, hp⟩
  refine ⟨?_, ?_, ?_, ?_, ?_, ?_, ?_, ?_, ?_, ?_, ?_⟩
  · refine hsorted wild extra h.wild_sorted (fun q hq => (h.wild_open q hq).1) ?_
    exact hextra.imp_right And.left
  · intro i
    refine hsorted (specific i) (extras i) (h.specific_sorted i)
      (fun q hq => (h.specific_open i q hq).1) ?_
    exact (hextras i).imp_right And.left
  · intro q hq
    rcases mem_append.mp hq with hq | hq
    · exact h.wild_peer q hq
    · obtain ⟨rfl, hp⟩ := hextra_eq q hq
      exact hp
  · intro i q hq
    rcases mem_append.mp hq with hq | hq
    · exact h.specific_peer i q hq
    · obtain ⟨rfl, hp⟩ := hextras_eq i q hq
      exact hp
  · intro q hq
    rcases mem_append.mp hq with hq | hq
    · exact hopened q (h.wild_open q hq)
    · obtain ⟨rfl, -⟩ := hextra_eq q hq
      exact hnew (.inl hq)
  · intro i q hq
    rcases mem_append.mp hq with hq | hq
    · exact hopened q (h.specific_open i q hq)
    · obtain ⟨rfl, -⟩ := hextras_eq i q hq
      exact hnew (.inr ⟨i, hq⟩)
  · refine ⟨r.index / 2 ^ 32, ?_, ?_⟩
    · intro q hq
      rcases mem_append.mp hq with hq | hq
      · exact hepochw q hq
      · rw [(hextra_eq q hq).1]
    · intro i q hq
      rcases mem_append.mp hq with hq | hq
      · exact hepochs i q hq
      · rw [(hextras_eq i q hq).1]
  · intro q hq
    rcases (hmem q).mp hq with rfl | hq
    · omega
    · exact Nat.lt_succ_of_lt (h.posted_lt q hq)
  · intro q q' hq hq' heq
    rcases (hmem q).mp hq with hqr | hql <;> rcases (hmem q').mp hq' with hqr' | hql'
    · rw [hqr, hqr']
    · have := h.posted_lt q' hql'
      rw [← heq, hqr, hi] at this
      exact absurd this (Nat.lt_irrefl _)
    · have := h.posted_lt q hql
      rw [heq, hqr', hi] at this
      exact absurd this (Nat.lt_irrefl _)
    · exact h.posted_inj q q' hql hql' heq
  · intro q hq
    rcases (hcompleted q).mp hq with hc | hc
    · exact (hmem q).mpr (.inl (honly q hc))
    · exact (hmem q).mpr (.inr (h.completed_posted q hc))
  · intro q hq hwaits
    rw [hcompleted]
    rcases (hmem q).mp hq with rfl | hq
    · rcases hwait hwaits with hin | ⟨i, hin⟩ | hc
      · exact .inl (mem_append_right _ hin)
      · exact .inr (.inl ⟨i, mem_append_right _ hin⟩)
      · exact .inr (.inr (.inl hc))
    · rcases h.waiting q hq hwaits with hin | ⟨i, hin⟩ | hc
      · exact .inl (mem_append_left _ hin)
      · exact .inr (.inl ⟨i, mem_append_left _ hin⟩)
      · exact .inr (.inr (.inr hc))

end

end RequestSteps

theorem eraseP_of_find? {α : Type} {p : α → Bool} {l : List α} {a : α} (h : l.find? p = some a) :
    ∃ l₁ l₂, l = l₁ ++ a :: l₂ ∧ l.eraseP p = l₁ ++ l₂ ∧ p a = true ∧ ∀ b ∈ l₁, ¬ p b = true := by
  obtain ⟨hp, l₁, l₂, rfl, hnot⟩ := find?_eq_some_iff_append.mp h
  have hbefore : ∀ b ∈ l₁, ¬ p b = true := fun b hb => by simpa using hnot b hb
  refine ⟨l₁, l₂, rfl, ?_, hp, hbefore⟩
  rw [eraseP_append_right _ hbefore, eraseP_cons_of_pos hp]

section MessageSteps

variable {numProcs : Nat} {counted : Nat → Nat} {cantMatch unexpected : Nat → List (Frag D)}
  {hand : Option (Frag D)} {log : List (Note D)} {f : Frag D} {n : Note D}

theorem Messages.note (h : Messages numProcs counted cantMatch unexpected hand log)
    (htake : ∀ f, ¬ n.Takes f) (harrive : ∀ f, n ≠ .arrived f) :
    Messages numProcs counted cantMatch unexpected hand (n :: log) := by
  have hmem : ∀ f, Note.arrived f ∈ n :: log ↔ Note.arrived f ∈ log := by
    intro f
    simp [(harrive f).symm]
  have hgone : ∀ f, Gone f (n :: log) ↔ Gone f log := by
    intro f
    simp [htake f]
  refine ⟨?_, ?_, ?_, ?_, ?_, ?_, ?_, h.unexpected_sorted, ?_, h.parked_window, ?_, h.parked_nodup,
    ?_, ?_, ?_⟩
  · exact fun f hf => h.arrived_wf f ((hmem f).mp hf)
  · exact fun f g hf hg => h.arrived_inj f g ((hmem f).mp hf) ((hmem g).mp hg)
  · intro i k hk hle
    obtain ⟨f, hf, hrest⟩ := h.counted_arrived i k hk hle
    exact ⟨f, (hmem f).mpr hf, hrest⟩
  · intro f hf hle
    rw [hgone]
    exact h.settled f ((hmem f).mp hf) hle
  · intro f hf hlt
    rw [hgone]
    exact h.uncounted f ((hmem f).mp hf) hlt
  · intro i f hf
    rw [hmem]
    exact h.unexpected_src i f hf
  · intro i f hf
    rw [hgone]
    exact h.unexpected_open i f hf
  · intro i f hf
    rw [hmem]
    exact h.parked_src i f hf
  · intro i f hf
    rw [hgone]
    exact h.parked_open i f hf
  · intro f hf
    rw [hmem, hgone]
    exact h.hand_open f hf
  · intro f hf
    exact (hmem f).mpr (h.gone_arrived f ((hgone f).mp hf))
  · intro r f hf
    rcases mem_cons.mp hf with heq | hf
    · exact absurd (show n.Takes f from heq ▸ rfl) (htake f)
    · exact h.received_counted r f hf

theorem Messages.arrive (h : Messages numProcs counted cantMatch unexpected none log)
    (hwf : f.src < numProcs ∧ 0 < f.index ∧ f.tag ≠ ompiAnyTag)
    (hfresh : ∀ g, .arrived g ∈ log → g.src = f.src → g.index ≠ f.index) :
    Messages numProcs counted cantMatch unexpected (some f) (.arrived f :: log) := by
  have hmem : ∀ g, Note.arrived g ∈ .arrived f :: log ↔ g = f ∨ Note.arrived g ∈ log := by
    intro g
    simp
  have hnew : Note.arrived f ∉ log := fun hf => hfresh f hf rfl rfl
  have hgone : ∀ g, Gone g (.arrived f :: log) ↔ Gone g log := by
    intro g
    simp [Note.Takes]
  have hne : ∀ g, Note.arrived g ∈ log → g ≠ f := fun g hg heq => hnew (heq ▸ hg)
  refine ⟨?_, ?_, ?_, ?_, ?_, ?_, ?_, h.unexpected_sorted, ?_, h.parked_window, ?_, h.parked_nodup,
    ?_, ?_, ?_⟩
  · intro g hg
    rcases (hmem g).mp hg with rfl | hg
    · exact hwf
    · exact h.arrived_wf g hg
  · intro g k hg hk hsrc hidx
    rcases (hmem g).mp hg with hgf | hg' <;> rcases (hmem k).mp hk with hkf | hk'
    · rw [hgf, hkf]
    · rw [hgf] at hsrc hidx
      exact absurd hidx.symm (hfresh k hk' hsrc.symm)
    · rw [hkf] at hsrc hidx
      exact absurd hidx (hfresh g hg' hsrc)
    · exact h.arrived_inj g k hg' hk' hsrc hidx
  · intro i k hk hle
    obtain ⟨g, hg, hrest⟩ := h.counted_arrived i k hk hle
    exact ⟨g, (hmem g).mpr (.inr hg), hrest⟩
  · intro g hg hle
    rw [hgone]
    rcases (hmem g).mp hg with rfl | hg
    · exact .inl rfl
    · rcases h.settled g hg hle with hnone | hrest
      · cases hnone
      · exact .inr hrest
  · intro g hg hlt
    rw [hgone]
    rcases (hmem g).mp hg with rfl | hg
    · exact .inl rfl
    · rcases h.uncounted g hg hlt with hnone | hrest
      · cases hnone
      · exact .inr hrest
  · intro i g hg
    obtain ⟨h1, h2, h3⟩ := h.unexpected_src i g hg
    exact ⟨h1, (hmem g).mpr (.inr h2), h3⟩
  · intro i g hg
    rw [hgone]
    refine ⟨(h.unexpected_open i g hg).1, fun heq => ?_⟩
    exact hne g (h.unexpected_src i g hg).2.1 (Option.some.inj heq).symm
  · intro i g hg
    obtain ⟨h1, h2⟩ := h.parked_src i g hg
    exact ⟨h1, (hmem g).mpr (.inr h2)⟩
  · intro i g hg
    rw [hgone]
    refine ⟨(h.parked_open i g hg).1, fun heq => ?_⟩
    exact hne g (h.parked_src i g hg).2 (Option.some.inj heq).symm
  · intro g hg
    obtain rfl := Option.some.inj hg
    refine ⟨mem_cons_self, fun hc => ?_⟩
    exact hnew (h.gone_arrived f ((hgone f).mp hc))
  · intro g hg
    exact (hmem g).mpr (.inr (h.gone_arrived g ((hgone g).mp hg)))
  · intro r g hg
    rcases mem_cons.mp hg with heq | hg
    · cases heq
    · exact h.received_counted r g hg

section

variable (h : Messages numProcs counted cantMatch unexpected (some f) log)
include h

theorem Messages.take (htake : ∀ g, n.Takes g ↔ g = f) (harrive : ∀ g, n ≠ .arrived g)
    (hcount : ∀ r g, n = .received r g → g.index ≤ counted g.src) :
    Messages numProcs counted cantMatch unexpected none (n :: log) := by
  have hmem : ∀ g, Note.arrived g ∈ n :: log ↔ Note.arrived g ∈ log := by
    intro g
    simp [(harrive g).symm]
  have hgone : ∀ g, Gone g (n :: log) ↔ g = f ∨ Gone g log := by
    intro g
    simp [htake g]
  have hhand : Note.arrived f ∈ log := (h.hand_open f rfl).1
  refine ⟨?_, ?_, ?_, ?_, ?_, ?_, ?_, h.unexpected_sorted, ?_, h.parked_window, ?_, h.parked_nodup,
    ?_, ?_, ?_⟩
  · exact fun g hg => h.arrived_wf g ((hmem g).mp hg)
  · exact fun g k hg hk => h.arrived_inj g k ((hmem g).mp hg) ((hmem k).mp hk)
  · intro i k hk hle
    obtain ⟨g, hg, hrest⟩ := h.counted_arrived i k hk hle
    exact ⟨g, (hmem g).mpr hg, hrest⟩
  · intro g hg hle
    rw [hgone]
    rcases h.settled g ((hmem g).mp hg) hle with heq | hin | hgo
    · exact .inr (.inr (.inl (Option.some.inj heq).symm))
    · exact .inr (.inl hin)
    · exact .inr (.inr (.inr hgo))
  · intro g hg hlt
    rw [hgone]
    rcases h.uncounted g ((hmem g).mp hg) hlt with heq | hin | hgo
    · exact .inr (.inr (.inl (Option.some.inj heq).symm))
    · exact .inr (.inl hin)
    · exact .inr (.inr (.inr hgo))
  · intro i g hg
    rw [hmem]
    exact h.unexpected_src i g hg
  · intro i g hg
    obtain ⟨hopen, hne⟩ := h.unexpected_open i g hg
    refine ⟨fun hc => ?_, by simp⟩
    rcases (hgone g).mp hc with rfl | hc
    · exact hne rfl
    · exact hopen hc
  · intro i g hg
    rw [hmem]
    exact h.parked_src i g hg
  · intro i g hg
    obtain ⟨hopen, hne⟩ := h.parked_open i g hg
    refine ⟨fun hc => ?_, by simp⟩
    rcases (hgone g).mp hc with rfl | hc
    · exact hne rfl
    · exact hopen hc
  · intro g hg
    cases hg
  · intro g hg
    rcases (hgone g).mp hg with rfl | hg
    · exact (hmem g).mpr hhand
    · exact (hmem g).mpr (h.gone_arrived g hg)
  · intro r g hg
    rcases mem_cons.mp hg with heq | hg
    · exact hcount r g heq.symm
    · exact h.received_counted r g hg

theorem Messages.park
    (hahead : counted f.src < f.index) (hwindow : f.index ≤ counted f.src + 2 ^ 16) :
    Messages numProcs counted (update cantMatch f.src (cantMatch f.src ++ [f])) unexpected
      none log := by
  obtain ⟨harrived, hopen⟩ := h.hand_open f rfl
  have hmem : ∀ i g, g ∈ Function.update cantMatch f.src (cantMatch f.src ++ [f]) i ↔
      g ∈ cantMatch i ∨ (i = f.src ∧ g = f) := by
    intro i g
    by_cases hi : i = f.src
    · subst hi
      simp
    · simp [hi]
  refine ⟨h.arrived_wf, h.arrived_inj, h.counted_arrived, ?_, ?_, h.unexpected_src, ?_,
    h.unexpected_sorted, ?_, ?_, ?_, ?_, ?_, h.gone_arrived, h.received_counted⟩
  · intro g hg hle
    rcases h.settled g hg hle with heq | hrest
    · obtain rfl := Option.some.inj heq
      omega
    · exact .inr hrest
  · intro g hg hlt
    rw [hmem]
    rcases h.uncounted g hg hlt with heq | hin | hgo
    · obtain rfl := Option.some.inj heq
      exact .inr (.inl (.inr ⟨rfl, rfl⟩))
    · exact .inr (.inl (.inl hin))
    · exact .inr (.inr hgo)
  · exact fun i g hg => ⟨(h.unexpected_open i g hg).1, by simp⟩
  · intro i g hg
    rcases (hmem i g).mp hg with hg | ⟨rfl, rfl⟩
    · exact h.parked_src i g hg
    · exact ⟨rfl, harrived⟩
  · intro i g hg
    rcases (hmem i g).mp hg with hg | ⟨rfl, rfl⟩
    · exact h.parked_window i g hg
    · exact ⟨hahead, hwindow⟩
  · intro i g hg
    rcases (hmem i g).mp hg with hg | ⟨rfl, rfl⟩
    · exact ⟨(h.parked_open i g hg).1, by simp⟩
    · exact ⟨hopen, by simp⟩
  · intro i
    by_cases hi : i = f.src
    · subst hi
      rw [update_self]
      have hnot : f ∉ cantMatch f.src := fun hf => (h.parked_open f.src f hf).2 rfl
      refine nodup_append.mpr ⟨h.parked_nodup f.src, by simp, ?_⟩
      intro a ha b hb hab
      rw [hab, mem_singleton.mp hb] at ha
      exact hnot ha
    · rw [update_of_ne hi]
      exact h.parked_nodup i
  · intro g hg
    cases hg

theorem Messages.count (hnext : f.index = counted f.src + 1) :
    Messages numProcs (update counted f.src (counted f.src + 1)) cantMatch unexpected
      (some f) log := by
  obtain ⟨harrived, hopen⟩ := h.hand_open f rfl
  have hle : ∀ i, counted i ≤ Function.update counted f.src (counted f.src + 1) i := by
    intro i
    by_cases hi : i = f.src
    · subst hi
      simp
    · simp [hi]
  refine ⟨h.arrived_wf, h.arrived_inj, ?_, ?_, ?_, ?_, h.unexpected_open,
    h.unexpected_sorted, h.parked_src, ?_, h.parked_open, h.parked_nodup, h.hand_open,
    h.gone_arrived, ?_⟩
  · intro i k hk hki
    by_cases hold : k ≤ counted i
    · exact h.counted_arrived i k hk hold
    · by_cases hi : i = f.src
      · subst hi
        rw [update_self] at hki
        exact ⟨f, harrived, rfl, by omega⟩
      · rw [update_of_ne hi] at hki
        exact absurd hki hold
  · intro g hg hgle
    by_cases hold : g.index ≤ counted g.src
    · exact h.settled g hg hold
    · by_cases hi : g.src = f.src
      · rw [hi, update_self] at hgle
        rw [hi] at hold
        have hgf : g = f := h.arrived_inj g f hg harrived hi (by omega)
        exact .inl (congrArg some hgf.symm)
      · rw [update_of_ne hi] at hgle
        exact absurd hgle hold
  · intro g hg hlt
    exact h.uncounted g hg (Nat.lt_of_le_of_lt (hle g.src) hlt)
  · intro i g hg
    obtain ⟨h1, h2, h3⟩ := h.unexpected_src i g hg
    exact ⟨h1, h2, Nat.le_trans h3 (hle i)⟩
  · intro i g hg
    obtain ⟨hlo, hhi⟩ := h.parked_window i g hg
    refine ⟨?_, Nat.le_trans hhi (Nat.add_le_add_right (hle i) _)⟩
    by_cases hi : i = f.src
    · subst hi
      rw [update_self]
      have hne : g.index ≠ counted f.src + 1 := by
        intro heq
        obtain ⟨hsrc, harr⟩ := h.parked_src f.src g hg
        have hgf : g = f := h.arrived_inj g f harr harrived hsrc (by omega)
        exact (h.parked_open f.src g hg).2 (congrArg some hgf.symm)
      omega
    · rw [update_of_ne hi]
      exact hlo
  · intro r g hg
    exact Nat.le_trans (h.received_counted r g hg) (hle g.src)

theorem Messages.queue (hlast : f.index = counted f.src) : Messages numProcs counted cantMatch
      (update unexpected f.src (unexpected f.src ++ [f])) none log := by
  obtain ⟨harrived, hopen⟩ := h.hand_open f rfl
  have hmem : ∀ i g, g ∈ Function.update unexpected f.src (unexpected f.src ++ [f]) i ↔
      g ∈ unexpected i ∨ (i = f.src ∧ g = f) := by
    intro i g
    by_cases hi : i = f.src
    · subst hi
      simp
    · simp [hi]
  refine ⟨h.arrived_wf, h.arrived_inj, h.counted_arrived, ?_, ?_, ?_, ?_, ?_, h.parked_src,
    h.parked_window, ?_, h.parked_nodup, ?_, h.gone_arrived, h.received_counted⟩
  · intro g hg hle
    rw [hmem]
    rcases h.settled g hg hle with heq | hin | hgo
    · obtain rfl := Option.some.inj heq
      exact .inr (.inl (.inr ⟨rfl, rfl⟩))
    · exact .inr (.inl (.inl hin))
    · exact .inr (.inr hgo)
  · intro g hg hlt
    rcases h.uncounted g hg hlt with heq | hrest
    · obtain rfl := Option.some.inj heq
      omega
    · exact .inr hrest
  · intro i g hg
    rcases (hmem i g).mp hg with hg | ⟨rfl, rfl⟩
    · exact h.unexpected_src i g hg
    · exact ⟨rfl, harrived, Nat.le_of_eq hlast⟩
  · intro i g hg
    rcases (hmem i g).mp hg with hg | ⟨rfl, rfl⟩
    · exact ⟨(h.unexpected_open i g hg).1, by simp⟩
    · exact ⟨hopen, by simp⟩
  · intro i
    by_cases hi : i = f.src
    · subst hi
      rw [update_self]
      refine pairwise_append.mpr ⟨h.unexpected_sorted f.src, pairwise_singleton _ f, ?_⟩
      intro g hg k hk
      rw [mem_singleton.mp hk]
      obtain ⟨hsrc, harr, hle⟩ := h.unexpected_src f.src g hg
      -- `f` is not in the queue yet, so the bound is strict
      have hne : g.index ≠ f.index := by
        intro heq
        have hgf : g = f := h.arrived_inj g f harr harrived hsrc heq
        exact (h.unexpected_open f.src g hg).2 (congrArg some hgf.symm)
      omega
    · rw [update_of_ne hi]
      exact h.unexpected_sorted i
  · exact fun i g hg => ⟨(h.parked_open i g hg).1, by simp⟩
  · intro g hg
    cases hg

end

section

variable {queue : Nat → List (Frag D)} {i j : Nat} {before after : List (Frag D)}
  (hsplit : queue i = before ++ f :: after)
include hsplit

theorem sublist_update (j : Nat) : (update queue i (before ++ after) j).Sublist (queue j) := by
  by_cases hj : j = i
  · subst hj
    rw [update_self, hsplit]
    exact List.Sublist.append_left (sublist_cons_self f after) before
  · rw [update_of_ne hj]

theorem mem_update_of_ne {g : Frag D} (hg : g ∈ queue j) (hne : g ≠ f) :
    g ∈ update queue i (before ++ after) j := by
  by_cases hj : j = i
  · subst hj
    rw [hsplit, mem_append, mem_cons] at hg
    rw [update_self, mem_append]
    exact hg.imp_right fun h => h.resolve_left hne
  · rwa [update_of_ne hj]

end

section

variable (h : Messages numProcs counted cantMatch unexpected none log)
include h

theorem Messages.unpark {i : Nat}
    {before after : List (Frag D)} (hsplit : cantMatch i = before ++ f :: after) :
    Messages numProcs counted (update cantMatch i (before ++ after)) unexpected (some f) log := by
  have hf : f ∈ cantMatch i := hsplit ▸ mem_append_right _ mem_cons_self
  obtain ⟨hsrc, harrived⟩ := h.parked_src i f hf
  have hnodup : (before ++ f :: after).Nodup := hsplit ▸ h.parked_nodup i
  have hsub := sublist_update hsplit
  have hout : ∀ j, f ∉ Function.update cantMatch i (before ++ after) j := by
    intro j hin
    have hj : j = i := by
      have := (h.parked_src j f ((hsub j).subset hin)).1
      exact this.symm.trans hsrc
    subst hj
    rw [update_self] at hin
    exact (nodup_middle.mp hnodup).notMem hin
  refine ⟨h.arrived_wf, h.arrived_inj, h.counted_arrived, ?_, ?_, h.unexpected_src, ?_,
    h.unexpected_sorted, ?_, ?_, ?_, ?_, ?_, h.gone_arrived, h.received_counted⟩
  · intro g hg hle
    exact .inr ((h.settled g hg hle).resolve_left (by simp))
  · intro g hg hlt
    rcases (h.uncounted g hg hlt).resolve_left (by simp) with hin | hgo
    · by_cases hgf : g = f
      · exact .inl (congrArg some hgf.symm)
      · exact .inr (.inl (mem_update_of_ne hsplit hin hgf))
    · exact .inr (.inr hgo)
  · intro j g hg
    refine ⟨(h.unexpected_open j g hg).1, fun heq => ?_⟩
    obtain rfl := Option.some.inj heq
    obtain ⟨hgs, -, hle⟩ := h.unexpected_src j f hg
    have hlt := (h.parked_window i f hf).1
    have hij : i = j := hsrc.symm.trans hgs
    subst hij
    omega
  · exact fun j g hg => h.parked_src j g ((hsub j).subset hg)
  · exact fun j g hg => h.parked_window j g ((hsub j).subset hg)
  · intro j g hg
    refine ⟨(h.parked_open j g ((hsub j).subset hg)).1, fun heq => ?_⟩
    obtain rfl := Option.some.inj heq
    exact hout j hg
  · exact fun j => (h.parked_nodup j).sublist (hsub j)
  · intro g hg
    obtain rfl := Option.some.inj hg
    exact ⟨harrived, (h.parked_open i f hf).1⟩

theorem Messages.unqueue {i : Nat}
    {before after : List (Frag D)} (hsplit : unexpected i = before ++ f :: after) :
    Messages numProcs counted cantMatch (update unexpected i (before ++ after)) (some f) log := by
  have hf : f ∈ unexpected i := hsplit ▸ mem_append_right _ mem_cons_self
  obtain ⟨hsrc, harrived, hcounted⟩ := h.unexpected_src i f hf
  have hsorted : (before ++ f :: after).Pairwise fun f g => f.index < g.index :=
    hsplit ▸ h.unexpected_sorted i
  have hsub := sublist_update hsplit
  have hout : ∀ j, f ∉ Function.update unexpected i (before ++ after) j := by
    intro j hin
    have hj : j = i := by
      have := (h.unexpected_src j f ((hsub j).subset hin)).1
      exact this.symm.trans hsrc
    subst hj
    rw [update_self] at hin
    obtain ⟨-, hafter, hcross⟩ := pairwise_append.mp hsorted
    rcases mem_append.mp hin with hin | hin
    · exact Nat.lt_irrefl _ (hcross f hin f mem_cons_self)
    · exact Nat.lt_irrefl _ ((pairwise_cons.mp hafter).1 f hin)
  refine ⟨h.arrived_wf, h.arrived_inj, h.counted_arrived, ?_, ?_, ?_, ?_, ?_, h.parked_src,
    h.parked_window, ?_, h.parked_nodup, ?_, h.gone_arrived, h.received_counted⟩
  · intro g hg hle
    rcases (h.settled g hg hle).resolve_left (by simp) with hin | hgo
    · by_cases hgf : g = f
      · exact .inl (congrArg some hgf.symm)
      · exact .inr (.inl (mem_update_of_ne hsplit hin hgf))
    · exact .inr (.inr hgo)
  · intro g hg hlt
    exact .inr ((h.uncounted g hg hlt).resolve_left (by simp))
  · exact fun j g hg => h.unexpected_src j g ((hsub j).subset hg)
  · intro j g hg
    refine ⟨(h.unexpected_open j g ((hsub j).subset hg)).1, fun heq => ?_⟩
    obtain rfl := Option.some.inj heq
    exact hout j hg
  · exact fun j => (h.unexpected_sorted j).sublist (hsub j)
  · intro j g hg
    refine ⟨(h.parked_open j g hg).1, fun heq => ?_⟩
    obtain rfl := Option.some.inj heq
    obtain ⟨hgs, -⟩ := h.parked_src j f hg
    have hlt := (h.parked_window j f hg).1
    have hij : i = j := hsrc.symm.trans hgs
    subst hij
    omega
  · intro g hg
    obtain rfl := Option.some.inj hg
    exact ⟨harrived, (h.unexpected_open i f hf).1⟩

theorem Messages.purge {cantMatch' unexpected' : Nat → List (Frag D)} {purged : List (Frag D)}
    (hsubc : ∀ i, (cantMatch' i).Sublist (cantMatch i))
    (hsubu : ∀ i, (unexpected' i).Sublist (unexpected i))
    (hkeepc : ∀ i, ∀ f ∈ cantMatch i, f ∈ cantMatch' i ∨ f ∈ purged)
    (hkeepu : ∀ i, ∀ f ∈ unexpected i, f ∈ unexpected' i ∨ f ∈ purged)
    (harrived : ∀ f ∈ purged, .arrived f ∈ log)
    (houtc : ∀ f ∈ purged, ∀ i, f ∉ cantMatch' i) (houtu : ∀ f ∈ purged, ∀ i, f ∉ unexpected' i) :
    Messages numProcs counted cantMatch' unexpected' none (purged.map .dropped ++ log) := by
  have hmem : ∀ f, Note.arrived f ∈ purged.map .dropped ++ log ↔ Note.arrived f ∈ log := by
    intro f
    simp
  have hgone : ∀ f, Gone f (purged.map .dropped ++ log) ↔ f ∈ purged ∨ Gone f log := by
    intro f
    simp only [Gone, mem_append, mem_map]
    constructor
    · rintro ⟨n, ⟨g, hg, rfl⟩ | hn, ht⟩
      · exact .inl ((show g = f from ht) ▸ hg)
      · exact .inr ⟨n, hn, ht⟩
    · rintro (hf | ⟨n, hn, ht⟩)
      · exact ⟨.dropped f, .inl ⟨f, hf, rfl⟩, rfl⟩
      · exact ⟨n, .inr hn, ht⟩
  refine ⟨?_, ?_, ?_, ?_, ?_, ?_, ?_, ?_, ?_, ?_, ?_, ?_, ?_, ?_, ?_⟩
  · exact fun f hf => h.arrived_wf f ((hmem f).mp hf)
  · exact fun f g hf hg => h.arrived_inj f g ((hmem f).mp hf) ((hmem g).mp hg)
  · intro i k hk hle
    obtain ⟨f, hf, hrest⟩ := h.counted_arrived i k hk hle
    exact ⟨f, (hmem f).mpr hf, hrest⟩
  · intro f hf hle
    rw [hgone]
    rcases h.settled f ((hmem f).mp hf) hle with hnone | hin | hgo
    · exact .inl hnone
    · exact .inr ((hkeepu f.src f hin).imp_right .inl)
    · exact .inr (.inr (.inr hgo))
  · intro f hf hlt
    rw [hgone]
    rcases h.uncounted f ((hmem f).mp hf) hlt with hnone | hin | hgo
    · exact .inl hnone
    · exact .inr ((hkeepc f.src f hin).imp_right .inl)
    · exact .inr (.inr (.inr hgo))
  · intro i f hf
    rw [hmem]
    exact h.unexpected_src i f ((hsubu i).subset hf)
  · intro i f hf
    refine ⟨fun hc => ?_, by simp⟩
    rcases (hgone f).mp hc with hp | hc
    · exact houtu f hp i hf
    · exact (h.unexpected_open i f ((hsubu i).subset hf)).1 hc
  · exact fun i => (h.unexpected_sorted i).sublist (hsubu i)
  · intro i f hf
    rw [hmem]
    exact h.parked_src i f ((hsubc i).subset hf)
  · exact fun i f hf => h.parked_window i f ((hsubc i).subset hf)
  · intro i f hf
    refine ⟨fun hc => ?_, by simp⟩
    rcases (hgone f).mp hc with hp | hc
    · exact houtc f hp i hf
    · exact (h.parked_open i f ((hsubc i).subset hf)).1 hc
  · exact fun i => (h.parked_nodup i).sublist (hsubc i)
  · intro f hf
    cases hf
  · intro f hf
    rw [hmem]
    rcases (hgone f).mp hf with hp | hc
    · exact harrived f hp
    · exact h.gone_arrived f hc
  · intro r f hf
    refine h.received_counted r f ?_
    simpa using hf

end

end MessageSteps

end Ulfm
