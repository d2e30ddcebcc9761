import Ulfm.Pml.Fragments

/-!
# The sections of the code and the requests

`Coherent` is the part of the invariant about the requests, with the order of the
matches in the log and with the fact that a request that waits accepts no
unexpected message. Each section keeps it, given the part about the fragments.
-/

namespace Ulfm

open List Function CommProc Messages

namespace MatchComm

variable {D : Type} {c : MatchComm D} {hand : Option (Frag D)} {f : Frag D} {e : MatchEvent D}

/-- What holds of the requests between the sections of the code. -/
structure Coherent (c : MatchComm D) : Prop where
  requests : Requests c.wild (fun i => (c.procs i).specific) c.started c.log
  /-- A request that waits accepts no unexpected message. -/
  quiet : ∀ r, c.Pending r → ∀ i, ∀ f ∈ (c.procs i).unexpected, ¬ r.Accepts f
  ordered : Logged Note.Ordered c.log

theorem pending_setProc {i : Nat} {p : CommProc D} (h : p.specific = (c.procs i).specific)
    {r : RecvReq} : (c.setProc i p).Pending r ↔ c.Pending r := by
  have hfield := congrFun (setProc_field_eq (g := specific) h)
  simp only [Pending, hfield]
  exact Iff.rfl

theorem accepts_of_takes {r : RecvReq} (h : r.takesTag f.tag = true)
    (hpeer : r.peer = none ∨ r.peer = some f.src) : r.Accepts f := by
  refine ⟨hpeer, ?_⟩
  simpa [RecvReq.takesTag] using h

theorem takes_of_accepts {r : RecvReq} (h : r.Accepts f) : r.takesTag f.tag = true := by
  simpa [RecvReq.takesTag] using h.2

section

variable (h : Coherent c) {i : Nat} {p : CommProc D} (hspecific : p.specific = (c.procs i).specific)
include h hspecific

theorem Coherent.setProc
    (hquiet : ∀ r, c.Pending r → ∀ f ∈ p.unexpected, ¬ r.Accepts f) : Coherent (c.setProc i p) := by
  refine ⟨?_, ?_, h.ordered⟩
  · rw [setProc_field_eq hspecific]
    exact h.requests
  · intro r hr j g hg
    have hr' := (pending_setProc hspecific).mp hr
    by_cases hj : j = i
    · subst hj
      simp only [MatchComm.setProc, update_self] at hg
      exact hquiet r hr' g hg
    · simp only [MatchComm.setProc, update_of_ne hj] at hg
      exact h.quiet r hr' j g hg

theorem Coherent.setProc_same
    (hunexp : p.unexpected = (c.procs i).unexpected) : Coherent (c.setProc i p) :=
  h.setProc hspecific fun r hr f hf => h.quiet r hr i f (hunexp ▸ hf)

end

theorem Coherent.setSpecific {i : Nat} {p : CommProc D}
    (hunexp : p.unexpected = (c.procs i).unexpected)
    (hr : Requests c.wild (update (fun j => (c.procs j).specific) i p.specific) c.started c.log)
    (hquiet : ∀ r, (r ∈ c.wild ∨ ∃ j, r ∈ update (fun j => (c.procs j).specific) i
      p.specific j) → ∀ j, ∀ f ∈ (c.procs j).unexpected, ¬ r.Accepts f)
    (ho : Logged Note.Ordered c.log) : Coherent (c.setProc i p) := by
  have hs := setProc_field (c := c) specific i p
  have hu := setProc_field_eq (c := c) hunexp
  refine ⟨?_, ?_, ho⟩
  · rw [hs]
    exact hr
  · intro r hpend j f hf
    refine hquiet r ?_ j f (congrFun hu j ▸ hf)
    rcases hpend with hw | ⟨k, hk⟩
    · exact .inl hw
    · exact .inr ⟨k, congrFun hs k ▸ hk⟩

section Hand

theorem Coherent.queued (h : Coherent c) (i : Nat) : Queued c.wild (c.procs i).specific := by
  refine ⟨h.requests.wild_sorted, h.requests.specific_sorted i, ?_, ?_⟩
  · obtain ⟨e, hw, hs⟩ := h.requests.epoch
    have hall : ∀ r ∈ c.wild ++ (c.procs i).specific, r.index / 2 ^ 32 = e := by
      intro r hr
      rcases mem_append.mp hr with hr | hr
      · exact hw r hr
      · exact hs i r hr
    intro r hr q hq
    rw [hall r hr, hall q hq]
  · intro r hr q hq heq
    have hrq := h.requests.posted_inj r q (h.requests.wild_open r hr).1
      (h.requests.specific_open i q hq).1 heq
    have hnone := h.requests.wild_peer r hr
    rw [hrq, h.requests.specific_peer i q hq] at hnone
    cases hnone

variable {r : RecvReq} {ws ss : List RecvReq}

theorem Coherent.earliest_accepts (h : Coherent c)
    (hr : EarliestOf f.tag c.wild (c.procs f.src).specific r ws ss) : r.Accepts f := by
  refine accepts_of_takes hr.takes ?_
  rcases hr.removed with ⟨hmem, -⟩ | ⟨hmem, -⟩
  · exact .inl (h.requests.wild_peer r hmem)
  · exact .inr (h.requests.specific_peer f.src r hmem)

theorem pending_of_earliest (hr : EarliestOf f.tag c.wild (c.procs f.src).specific r ws ss) :
    c.Pending r := by
  rcases hr.removed with ⟨hmem, -⟩ | ⟨hmem, -⟩
  · exact .inl hmem
  · exact .inr ⟨f.src, hmem⟩

theorem Coherent.pending_open (h : Coherent c) (hr : c.Pending r) :
    .posted r ∈ c.log ∧ ¬ Completed r c.log := by
  rcases hr with hr | ⟨i, hr⟩
  · exact h.requests.wild_open r hr
  · exact h.requests.specific_open i r hr

theorem Coherent.wellMatched (h : Coherent c) (hm : Tracks c (some f))
    (hlast : f.index = (c.procs f.src).counted)
    (hr : EarliestOf f.tag c.wild (c.procs f.src).specific r ws ss) : WellMatched r f c.log := by
  obtain ⟨harrived, hopen⟩ := hand_open hm f rfl
  refine ⟨h.earliest_accepts hr, harrived, (h.pending_open (pending_of_earliest hr)).2, hopen,
    ?_, ?_⟩
  · intro k hk hkf
    obtain ⟨g, hg, hsrc, hidx⟩ := counted_arrived hm f.src k hk (by omega)
    refine ⟨g, hg, hsrc, hidx, fun hacc => ?_⟩
    have hle : g.index ≤ (c.procs g.src).counted := by
      rw [hsrc]
      omega
    rcases settled hm g hg hle with heq | hin | hgone
    · obtain rfl := Option.some.inj heq
      omega
    · exact absurd hacc (h.quiet r (pending_of_earliest hr) g.src g hin)
    · exact hgone
  · intro q hq hlt hwaits hacc
    have htakes := takes_of_accepts hacc
    rcases h.requests.waiting q hq hwaits with hin | ⟨i, hin⟩ | hdone
    · have := hr.least_wild q hin htakes
      omega
    · have hpeer := h.requests.specific_peer i q hin
      have hi : i = f.src := by
        rcases hacc.1 with hnone | hsome
        · rw [hnone] at hpeer
          cases hpeer
        · rw [hsome] at hpeer
          exact (Option.some.inj hpeer).symm
      subst hi
      have := hr.least_specific q hin htakes
      omega
    · exact hdone

theorem Coherent.requests_complete (h : Coherent c) {i : Nat}
    (hr : (r ∈ c.wild ∧ ws = c.wild.erase r ∧ ss = (c.procs i).specific) ∨
      (r ∈ (c.procs i).specific ∧ ws = c.wild ∧ ss = (c.procs i).specific.erase r)) {n : Note D}
    (hcomp : ∀ q, n.Completes q ↔ q = r) (hpost : ∀ q, n ≠ .posted q) :
    Requests ws (Function.update (fun i => (c.procs i).specific) i ss) c.started (n :: c.log) := by
  have hnodup : ∀ queue : List RecvReq, (queue.Pairwise fun r q => r.index < q.index) →
      queue.Nodup := by
    intro queue hsorted
    refine hsorted.imp ?_
    intro a b hlt heq
    rw [heq] at hlt
    exact Nat.lt_irrefl _ hlt
  rcases hr with ⟨hmem, hws, hss⟩ | ⟨hmem, hws, hss⟩
  · have hspecific : update (fun i => (c.procs i).specific) i ss =
        fun i => (c.procs i).specific := by
      rw [hss]
      exact update_eq_self i _
    rw [hspecific, hws]
    refine h.requests.complete erase_sublist (fun i => List.Sublist.refl _) ?_ ?_ ?_ ?_
      (h.pending_open (.inl hmem)).1 hcomp hpost
    · exact fun hin => (List.Nodup.mem_erase_iff (hnodup _ h.requests.wild_sorted)).mp hin |>.1 rfl
    · intro j hin
      have hpeer := h.requests.specific_peer j r hin
      rw [h.requests.wild_peer r hmem] at hpeer
      cases hpeer
    · intro q hq hne
      exact (mem_erase_of_ne hne).mpr hq
    · exact fun j q hq _ => hq
  · rw [hws]
    refine h.requests.complete (List.Sublist.refl _) ?_ ?_ ?_ ?_ ?_
      (h.pending_open (.inr ⟨i, hmem⟩)).1 hcomp hpost
    · intro j
      by_cases hj : j = i
      · subst hj
        rw [update_self, hss]
        exact erase_sublist
      · rw [update_of_ne hj]
    · intro hin
      have hpeer := h.requests.wild_peer r hin
      rw [h.requests.specific_peer i r hmem] at hpeer
      cases hpeer
    · intro j hin
      by_cases hj : j = i
      · subst hj
        rw [update_self, hss] at hin
        exact (List.Nodup.mem_erase_iff (hnodup _ (h.requests.specific_sorted j))).mp hin |>.1 rfl
      · rw [update_of_ne hj] at hin
        have hpeer := h.requests.specific_peer j r hin
        rw [h.requests.specific_peer i r hmem] at hpeer
        exact hj (Option.some.inj hpeer).symm
    · exact fun q hq _ => hq
    · intro j q hq hne
      by_cases hj : j = i
      · subst hj
        rw [update_self, hss]
        exact (mem_erase_of_ne hne).mpr hq
      · rw [update_of_ne hj]
        exact hq

theorem pending_without (hr : EarliestOf f.tag c.wild (c.procs f.src).specific r ws ss) {n : Note D}
    {q : RecvReq} (hq : (c.without f ws ss n).Pending q) : c.Pending q := by
  have hsub : ws ⊆ c.wild ∧ ss ⊆ (c.procs f.src).specific := by
    rcases hr.removed with ⟨-, hws, hss⟩ | ⟨-, hws, hss⟩ <;> rw [hws, hss]
    · exact ⟨erase_subset, List.Subset.refl _⟩
    · exact ⟨List.Subset.refl _, erase_subset⟩
  rcases hq with hq | ⟨i, hq⟩
  · exact .inl (hsub.1 hq)
  · refine .inr ⟨i, ?_⟩
    by_cases hi : i = f.src
    · subst hi
      simp only [without, note, setProc, update_self] at hq
      exact hsub.2 hq
    · simpa [without, note, setProc, hi] using hq

theorem without_field {β : Type} {g : CommProc D → β} {n : Note D}
    (hg : ∀ (p : CommProc D) ss, g { p with specific := ss } = g p) :
    (fun j => g ((c.without f ws ss n).procs j)) = fun j => g (c.procs j) :=
  setProc_field_eq (c := { c with wild := ws }) (hg _ ss)

theorem Coherent.without (h : Coherent c) (hm : Tracks c (some f))
    (hlast : f.index = (c.procs f.src).counted)
    (hr : EarliestOf f.tag c.wild (c.procs f.src).specific r ws ss) {n : Note D}
    (hn : n = .probed r f ∨ n = .received r f) : Coherent (c.without f ws ss n) := by
  have hspecific : (fun i => ((c.without f ws ss n).procs i).specific) =
      update (fun i => (c.procs i).specific) f.src ss :=
    setProc_field (c := { c with wild := ws }) specific f.src _
  refine ⟨?_, ?_, ?_⟩
  · rw [hspecific]
    refine h.requests_complete hr.removed ?_ ?_
    · intro q
      rcases hn with rfl | rfl <;> exact ⟨Eq.symm, Eq.symm⟩
    · rintro q rfl
      rcases hn with hn | hn <;> cases hn
  · intro q hq i g hg
    have hfield : ((c.without f ws ss n).procs i).unexpected = (c.procs i).unexpected :=
      congrFun (without_field (g := unexpected) fun p ss => rfl) i
    exact h.quiet q (pending_without hr hq) i g (hfield ▸ hg)
  · refine ⟨?_, h.ordered⟩
    have hwell := h.wellMatched hm hlast hr
    rcases hn with rfl | rfl <;> exact hwell

theorem Coherent.append_unexpected (h : Coherent c)
    (hnone : ∀ q ∈ c.wild ++ (c.procs f.src).specific, ¬ q.takesTag f.tag = true) :
    Coherent (c.setProc f.src
      { c.procs f.src with unexpected := (c.procs f.src).unexpected ++ [f] }) := by
  refine h.setProc rfl ?_
  intro q hq g hg hacc
  rcases mem_append.mp hg with hg | hg
  · exact h.quiet q hq f.src g hg hacc
  · rw [mem_singleton.mp hg] at hacc
    refine hnone q ?_ (takes_of_accepts hacc)
    rcases hq with hq | ⟨j, hq⟩
    · exact mem_append_left _ hq
    · have hpeer := h.requests.specific_peer j q hq
      rcases hacc.1 with hnil | hsome
      · rw [hnil] at hpeer
        cases hpeer
      · rw [hsome] at hpeer
        rw [Option.some.inj hpeer]
        exact mem_append_right _ hq

end Hand

theorem Coherent.matchOne (h : Coherent c) (hm : Tracks c (some f))
    (hlast : f.index = (c.procs f.src).counted) : Coherent (c.matchOne f) := by
  fun_induction MatchComm.matchOne c f with
  | case1 c hfound =>
    have hspec := matchIncoming_spec f.tag (h.queued f.src)
    rw [hfound] at hspec
    exact h.append_unexpected hspec
  | case2 c r wild specific hfound c' hprobe ih =>
    have hspec := matchIncoming_spec f.tag (h.queued f.src)
    rw [hfound] at hspec
    refine ih (h.without hm hlast hspec (.inl rfl)) hm.probed ?_
    change f.index = (update c.procs f.src _ f.src).counted
    rw [update_self]
    exact hlast
  | case3 c r wild specific hfound c' hprobe =>
    have hspec := matchIncoming_spec f.tag (h.queued f.src)
    rw [hfound] at hspec
    exact h.without hm hlast hspec (.inr rfl)

/-! ## The sections of a fragment -/

theorem Coherent.note (h : Coherent c) {n : Note D} (hcomp : ∀ r, ¬ n.Completes r)
    (hpost : ∀ r, n ≠ .posted r) (ho : n.Ordered c.log) : Coherent (c.note n) :=
  ⟨h.requests.note hcomp hpost, h.quiet, ho, h.ordered⟩

theorem Coherent.arrived (h : Coherent c) : Coherent (c.note (.arrived f)) :=
  h.note (fun r => id) (fun r hr => by cases hr) trivial

theorem Coherent.count_matchOne (h : Coherent c) (hm : Tracks c (some f))
    (hnext : f.index = (c.procs f.src).counted + 1) : Coherent ((c.count f.src).matchOne f) := by
  obtain ⟨hcount, hlast⟩ := hm.count hnext
  have hc : Coherent (c.count f.src) := h.setProc_same rfl rfl
  exact hc.matchOne hcount hlast

theorem Coherent.arrive (h : Coherent c) (hm : Tracks c (some f))
    (hlo : (c.procs f.src).counted < f.index)
    (hhi : f.index ≤ (c.procs f.src).counted + 2 ^ 16) : Coherent (c.arrive f) := by
  have hnext := seq_eq_expected_iff hlo hhi
  rcases arrive_cases c f with ⟨-, heq⟩ | ⟨-, -, heq⟩ | ⟨-, hseq, ⟨-, heq⟩ | heq⟩ <;> rw [heq]
  · exact h.note (fun r => id) (fun r hr => by cases hr) trivial
  · exact h.setProc_same rfl rfl
  · exact h.count_matchOne hm (hnext.mp hseq)
  · exact (h.count_matchOne hm (hnext.mp hseq)).setProc_same rfl rfl

theorem Coherent.resume (h : Coherent c) (hm : Tracks c none) (src : Nat) :
    Coherent (c.resume src) := by
  rcases resume_cases c src with ⟨-, heq⟩ | ⟨-, -, heq⟩ | ⟨-, f, hfind, heq⟩ <;> rw [heq]
  · exact h
  · exact h.setProc_same rfl rfl
  · obtain ⟨rfl, hnext⟩ := hm.find_parked hfind
    have htaken : Coherent (c.setProc f.src { c.procs f.src with
        cantMatch := (c.procs f.src).cantMatch.eraseP fun g =>
          g.seq = (c.procs f.src).expectedSequence }) := h.setProc_same rfl rfl
    refine htaken.count_matchOne (hm.unpark hfind) ?_
    simp only [MatchComm.setProc, update_self]
    exact hnext

/-! ## The start of a request -/

theorem accepts_iff_finds {r : RecvReq} (hpeer : r.peer = none ∨ r.peer = some f.src)
    (htag : f.tag ≠ ompiAnyTag) : r.Accepts f ↔ r.findsTag f.tag = true := by
  simp only [RecvReq.Accepts, RecvReq.findsTag, hpeer, true_and]
  by_cases hany : r.tag = ompiAnyTag
  · simp [hany, htag.symm]
  · simp [hany, eq_comm]

section Start

variable {r : RecvReq} {i : Nat} {before after : List (Frag D)}

theorem Coherent.wellMatched_unexpected (h : Coherent c) (hm : Tracks c none)
    (hidx : r.index = c.started)
    (hsplit : (c.procs i).unexpected = before ++ f :: after) (hacc : r.Accepts f)
    (hbefore : ∀ g ∈ before, ¬ r.Accepts g) : WellMatched r f (.posted r :: c.log) := by
  have hf : f ∈ (c.procs i).unexpected := hsplit ▸ mem_append_right _ mem_cons_self
  obtain ⟨rfl, harrived, hle⟩ := unexpected_src hm i f hf
  have hnew : Note.posted r ∉ c.log := fun hr =>
    Nat.lt_irrefl _ (hidx ▸ h.requests.posted_lt r hr)
  have hcompleted : ∀ q, Completed q (.posted r :: c.log) ↔ Completed q c.log := by
    intro q
    simp [Note.Completes]
  have hgone : ∀ g, Gone g (.posted r :: c.log) ↔ Gone g c.log := by
    intro g
    simp [Note.Takes]
  refine ⟨hacc, mem_cons_of_mem _ harrived, ?_, ?_, ?_, ?_⟩
  · rw [hcompleted]
    exact fun hc => hnew (h.requests.completed_posted r hc)
  · rw [hgone]
    exact (unexpected_open hm f.src f hf).1
  · intro k hk hkf
    obtain ⟨g, hg, hsrc, hgk⟩ := counted_arrived hm f.src k hk (by omega)
    refine ⟨g, mem_cons_of_mem _ hg, hsrc, hgk, fun haccg => ?_⟩
    rw [hgone]
    have hgle : g.index ≤ (c.procs g.src).counted := by
      rw [hsrc]
      omega
    rcases settled hm g hg hgle with hnone | hin | hgo
    · cases hnone
    · -- `g` comes before `f` in the queue, where nothing is accepted
      rw [hsrc, hsplit] at hin
      have hsorted := unexpected_sorted hm f.src
      rw [hsplit] at hsorted
      rcases mem_append.mp hin with hin | hin
      · exact absurd haccg (hbefore g hin)
      · rcases mem_cons.mp hin with rfl | hin
        · omega
        · have := (pairwise_cons.mp (pairwise_append.mp hsorted).2.1).1 g hin
          omega
    · exact hgo
  · intro q hq hlt hwaits haccq
    rw [hcompleted]
    have hq' : Note.posted q ∈ c.log := by
      rcases mem_cons.mp hq with heq | hq
      · obtain rfl := Note.posted.inj heq
        exact absurd hlt (Nat.lt_irrefl _)
      · exact hq
    rcases h.requests.waiting q hq' hwaits with hin | ⟨j, hin⟩ | hdone
    · exact absurd haccq (h.quiet q (.inl hin) f.src f hf)
    · exact absurd haccq (h.quiet q (.inr ⟨j, hin⟩) f.src f hf)
    · exact hdone

/-- No request waits while the counter of the requests wraps around. -/
def NoWrap (c : MatchComm D) : Prop := ∀ r, c.Pending r → r.index / 2 ^ 32 = c.started / 2 ^ 32

theorem Coherent.requests_done (h : Coherent c) (hidx : r.index = c.started) (hwrap : c.NoWrap)
    {n : Note D} (hcomp : ∀ q, n.Completes q ↔ q = r) (hpost : ∀ q, n ≠ .posted q) :
    Requests c.wild (fun i => (c.procs i).specific) (c.started + 1) (n :: .posted r :: c.log) := by
  have hpost := h.requests.post r [n] [] (fun _ => []) hidx
    (fun q hq => hidx ▸ hwrap q (.inl hq)) (fun i q hq => hidx ▸ hwrap q (.inr ⟨i, hq⟩))
    (.inl rfl) (fun _ => .inl rfl)
    (fun m hn => mem_singleton.mp hn ▸ ⟨fun q hq => (hcomp q).mp hq, hpost⟩) (by simp)
    (fun _ => .inr (.inr ⟨n, mem_singleton_self n, (hcomp r).mpr rfl⟩))
  simpa using hpost

theorem Coherent.matchUnexpected (h : Coherent c) (hm : Tracks c none) (hidx : r.index = c.started)
    (hwrap : c.NoWrap) (hpeer : r.peer = none ∨ r.peer = some i)
    (hfind : recvReqMatchSpecificProc r (c.procs i) = some f) :
    Coherent ((c.start r).matchUnexpected r i f) := by
  obtain ⟨before, after, hsplit, -, hfinds, hbefore⟩ := eraseP_of_find? hfind
  have haccepts : ∀ g ∈ (c.procs i).unexpected, r.Accepts g ↔ r.findsTag g.tag = true := by
    intro g hg
    obtain ⟨hs, harr, -⟩ := unexpected_src hm i g hg
    exact accepts_iff_finds (hs.symm ▸ hpeer) (arrived_wf hm g harr).2.2
  have hf : f ∈ (c.procs i).unexpected := hsplit ▸ mem_append_right _ mem_cons_self
  have hwell : WellMatched r f (.posted r :: c.log) := by
    refine h.wellMatched_unexpected hm hidx hsplit ((haccepts f hf).mpr hfinds) ?_
    intro g hg hacc
    exact hbefore g hg ((haccepts g (hsplit ▸ mem_append_left _ hg)).mp hacc)
  rw [MatchComm.matchUnexpected]
  split_ifs with hlooks
  · refine ⟨?_, h.quiet, hwell, trivial, h.ordered⟩
    exact h.requests_done hidx hwrap (fun q => ⟨Eq.symm, Eq.symm⟩) fun q hq => by cases hq
  · have hdone : Coherent ((c.start r).note (.received r f)) := by
      refine ⟨?_, h.quiet, hwell, trivial, h.ordered⟩
      exact h.requests_done hidx hwrap (fun q => ⟨Eq.symm, Eq.symm⟩) fun q hq => by cases hq
    refine hdone.setProc rfl ?_
    intro q hq g hg
    exact h.quiet q hq i g (eraseP_subset hg)

theorem Coherent.append (h : Coherent c) (hidx : r.index = c.started) (hwrap : c.NoWrap)
    (hnone : ∀ i, ∀ g ∈ (c.procs i).unexpected, ¬ r.Accepts g) :
    Coherent ((c.start r).append r) := by
  have hpost := fun extra extras => h.requests.post r [] extra extras hidx
    (fun q hq => hidx ▸ hwrap q (.inl hq))
    (fun i q hq => hidx ▸ hwrap q (.inr ⟨i, hq⟩))
  have hopen : ¬ Completed r ([] : List (Note D)) := fun ⟨n, hn, _⟩ => nomatch hn
  rw [MatchComm.append]
  split_ifs with hwaits
  · have hreq := hpost [] (fun _ => []) (.inl rfl) (fun _ => .inl rfl) (by simp)
      (fun _ => hopen) (fun hw => by simp [hw] at hwaits)
    simp only [List.append_nil, nil_append] at hreq
    exact ⟨hreq, h.quiet, trivial, h.ordered⟩
  · cases hpeer : r.peer with
    | none =>
      have hreq := hpost [r] (fun _ => []) (.inr ⟨rfl, hpeer⟩) (fun _ => .inl rfl) (by simp)
        (fun _ => hopen) (fun _ => .inl (mem_singleton_self r))
      simp only [List.append_nil, nil_append] at hreq
      refine ⟨hreq, ?_, trivial, h.ordered⟩
      intro q hq j g hg
      rcases hq with hq | hq
      · rcases mem_append.mp hq with hq | hq
        · exact h.quiet q (.inl hq) j g hg
        · rw [mem_singleton.mp hq]
          exact hnone j g hg
      · exact h.quiet q (.inr hq) j g hg
    | some i =>
      have hextras : ∀ j, (if j = i then [r] else []) = [] ∨
          ((if j = i then [r] else []) = [r] ∧ r.peer = some j) := by
        intro j
        by_cases hj : j = i
        · exact .inr ⟨if_pos hj, hj ▸ hpeer⟩
        · exact .inl (if_neg hj)
      have hreq := hpost [] (fun j => if j = i then [r] else []) (.inl rfl) hextras (by simp)
        (fun _ => hopen) (fun _ => .inr (.inl ⟨i, by simp⟩))
      have hqueue : (fun j => (c.procs j).specific ++ if j = i then [r] else []) =
          update (fun j => (c.procs j).specific) i ((c.procs i).specific ++ [r]) := by
        funext j
        by_cases hj : j = i
        · subst hj
          simp
        · simp [hj]
      simp only [List.append_nil, nil_append, hqueue] at hreq
      refine Coherent.setSpecific (c := c.start r) rfl hreq ?_ ⟨trivial, h.ordered⟩
      intro q hq j g hg
      rcases hq with hq | ⟨k, hq⟩
      · exact h.quiet q (.inl hq) j g hg
      · have hmem : q ∈ (c.procs k).specific ++ if k = i then [r] else [] :=
          congrFun hqueue k ▸ hq
        rcases mem_append.mp hmem with hq | hq
        · exact h.quiet q (.inr ⟨k, hq⟩) j g hg
        · have hqr : q = r := by
            by_cases hk : k = i
            · simpa [hk] using hq
            · simp [hk] at hq
          rw [hqr]
          exact hnone j g hg

theorem mem_probeOrder (h : i < c.numProcs) : i ∈ c.probeOrder := by
  simp only [probeOrder, mem_append, mem_range'_1, mem_range]
  omega

theorem Tracks.wild_none (hm : Tracks c none) (hpeer : r.peer = none)
    (hfind : c.recvReqMatchWild r = none) : ∀ i, ∀ g ∈ (c.procs i).unexpected, ¬ r.Accepts g := by
  intro i g hg hacc
  obtain ⟨hsrc, harrived, -⟩ := unexpected_src hm i g hg
  obtain ⟨hlt, -, htag⟩ := arrived_wf hm g harrived
  have hi := findSome?_eq_none_iff.mp hfind i (mem_probeOrder (hsrc ▸ hlt))
  rw [Option.map_eq_none_iff] at hi
  exact find?_eq_none.mp hi g hg ((accepts_iff_finds (.inl hpeer) htag).mp hacc)

theorem Tracks.specific_none (hm : Tracks c none) (hpeer : r.peer = some i)
    (hfind : recvReqMatchSpecificProc r (c.procs i) = none) :
    ∀ j, ∀ g ∈ (c.procs j).unexpected, ¬ r.Accepts g := by
  intro j g hg hacc
  obtain ⟨hsrc, harrived, -⟩ := unexpected_src hm j g hg
  have htag := (arrived_wf hm g harrived).2.2
  have hg' : r.peer = some g.src := by
    rcases hacc.1 with hnone | hsome
    · rw [hnone] at hpeer
      cases hpeer
    · exact hsome
  have hij : j = i := by
    rw [hpeer, hsrc] at hg'
    exact (Option.some.inj hg').symm
  subst hij
  exact find?_eq_none.mp hfind g hg ((accepts_iff_finds (.inr hg') htag).mp hacc)

theorem Coherent.recvReqStart (h : Coherent c) (hm : Tracks c none) (hwrap : c.NoWrap)
    (kind : RecvKind) (peer : Option Nat) (tag : ℤ) : Coherent (c.recvReqStart kind peer tag) := by
  obtain ⟨r, hidx, hpeer, ⟨heq, hnone⟩ | ⟨i, f, last, hi, hfind, heq⟩⟩ :=
    recvReqStart_cases c kind peer tag <;> rw [heq]
  · refine h.append hidx hwrap ?_
    rcases hnone with ⟨hp, hfind⟩ | ⟨i, hp, hfind⟩
    · exact Tracks.wild_none (c := c.start r) (hm.start r) (hpeer.trans hp) hfind
    · exact hm.specific_none (hpeer.trans hp) hfind
  · have hlast : Coherent { c with lastProbed := last } := ⟨h.requests, h.quiet, h.ordered⟩
    exact hlast.matchUnexpected hm hidx hwrap (hpeer.symm ▸ hi) hfind

end Start

/-! ## Cancellation and revocation -/

theorem Coherent.recvRequestCancel (h : Coherent c) (r : RecvReq) :
    Coherent (c.recvRequestCancel r) := by
  rw [MatchComm.recvRequestCancel]
  cases hpeer : r.peer with
  | none =>
    simp only
    split_ifs with hmem
    · have hreq := h.requests_complete (i := 0) (n := .cancelled r) (.inl ⟨hmem, rfl, rfl⟩)
        (fun q => ⟨Eq.symm, Eq.symm⟩) fun q hq => by cases hq
      rw [← update_same specific 0] at hreq
      refine ⟨hreq, ?_, trivial, h.ordered⟩
      intro q hq
      rcases hq with hq | hq
      · exact h.quiet q (.inl (mem_of_mem_erase hq))
      · exact h.quiet q (.inr hq)
    · exact h
  | some i =>
    simp only
    split_ifs with hmem
    · have hreq := h.requests_complete (n := .cancelled r) (.inr ⟨hmem, rfl, rfl⟩)
        (fun q => ⟨Eq.symm, Eq.symm⟩) fun q hq => by cases hq
      refine Coherent.setSpecific (c := c.note (.cancelled r)) rfl hreq ?_ ⟨trivial, h.ordered⟩
      intro q hq
      rcases hq with hq | ⟨k, hq⟩
      · exact h.quiet q (.inl hq)
      · refine h.quiet q (.inr ⟨k, ?_⟩)
        by_cases hk : k = i
        · subst hk
          rw [update_self] at hq
          exact mem_of_mem_erase hq
        · rw [update_of_ne hk] at hq
          exact hq
    · exact h

theorem Coherent.revokeComm (h : Coherent c) (collOnly : Bool) :
    Coherent (c.revokeComm collOnly) := by
  have hspecific : (fun i => ((c.revokeComm collOnly).procs i).specific) =
      fun i => (c.procs i).specific := by
    funext i
    simp only [MatchComm.revokeComm]
    split_ifs <;> rfl
  refine ⟨?_, ?_, ?_⟩
  · rw [hspecific, revokeComm_log]
    -- the new entries are about fragments only
    have hnotes : ∀ purged : List (Frag D),
      Requests c.wild (fun i => (c.procs i).specific) c.started
        (purged.map .dropped ++ c.log) := by
      intro purged
      induction purged with
      | nil => exact h.requests
      | cons f purged ih => exact ih.note (fun r => id) fun r hr => by cases hr
    exact hnotes _
  · intro r hr i f hf
    refine h.quiet r ?_ i f ((revokeComm_sublist i (.inl rfl)).subset hf)
    rcases hr with hr | ⟨j, hr⟩
    · exact .inl hr
    · exact .inr ⟨j, congrFun hspecific j ▸ hr⟩
  · rw [revokeComm_log]
    refine h.ordered.append_of ?_
    intro n hn l
    obtain ⟨f, -, rfl⟩ := mem_map.mp hn
    exact trivial

/-! ## Every step -/

/-- The numbers of the step do not wrap around: a fragment comes in less than 65536
before its turn, and no request waits while the counter of the requests starts
again. -/
def InRange (c : MatchComm D) : MatchEvent D → Prop
  | .post .. => c.NoWrap
  | e => c.InWindow e

theorem InRange.inWindow (h : c.InRange e) : c.InWindow e := by
  cases e with
  | post kind peer tag => exact trivial
  | arrive f => exact h
  | resume src => exact h
  | cancel r => exact h
  | revoke collOnly => exact h

theorem Coherent.new (n : Nat) : Coherent (new n : MatchComm D) := by
  refine ⟨⟨?_, ?_, ?_, ?_, ?_, ?_, ⟨0, ?_⟩, ?_, ?_, ?_, ?_⟩, ?_, trivial⟩
  all_goals simp [MatchComm.new, CommProc.new, Completed]

theorem Coherent.step (h : Coherent c) (hm : Tracks c none) (ha : c.Admits e) (hr : c.InRange e) :
    Coherent (c.step e) := by
  cases e with
  | arrive f => exact h.arrived.arrive (hm.arrived ha) (hm.counted_lt ha) hr
  | resume src => exact h.resume hm src
  | post kind peer tag => exact h.recvReqStart hm hr kind peer tag
  | cancel r => exact h.recvRequestCancel r
  | revoke collOnly => exact h.revokeComm collOnly

end MatchComm

end Ulfm
