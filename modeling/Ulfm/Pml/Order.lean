import Ulfm.Pml.Sections

/-!
# The matching order of every run

With the invariants of the sections, every run without a revocation whose numbers
do not wrap around keeps the matching order, loses no message and gives none away
twice. The fast path is the slow path for a fragment that is the next one of its
source while nothing is parked.
-/

namespace Ulfm

open MatchComm Messages List

namespace MatchComm

variable {D : Type} {c : MatchComm D} {f : Frag D} {e : MatchEvent D}

/-! ## Runs without a revocation -/

/-- The communicator has not been revoked and no fragment has been thrown away. -/
structure Unrevoked (c : MatchComm D) : Prop where
  revoked : c.revoked = false
  collRevoked : c.collRevoked = false
  log : ∀ f, .dropped f ∉ c.log

theorem Unrevoked.drops (h : Unrevoked c) (tag : ℤ) : c.drops tag = false := by
  simp [MatchComm.drops, h.revoked, h.collRevoked]

theorem Unrevoked.same {c' : MatchComm D} (h : Unrevoked c) (hs : SameDrops c c') : Unrevoked c' :=
  ⟨hs.revoked.trans h.revoked, hs.collRevoked.trans h.collRevoked, fun f hf =>
    h.log f ((hs.dropped f).mp hf)⟩

theorem Unrevoked.step (h : Unrevoked c) (he : ∀ collOnly, e ≠ .revoke collOnly) :
    Unrevoked (c.step e) := by
  cases e with
  | arrive f =>
    have harrived : Unrevoked (c.note (.arrived f)) := h.same (.note fun g hg => nomatch hg)
    change Unrevoked ((c.note (.arrived f)).arrive f)
    rcases arrive_cases (c.note (.arrived f)) f with
      ⟨hdrop, -⟩ | ⟨-, -, heq⟩ | ⟨-, -, ⟨-, heq⟩ | heq⟩
    · rw [harrived.drops] at hdrop
      cases hdrop
    · rw [heq]
      exact harrived.same (.setProc f.src _)
    · rw [heq]
      exact (harrived.same (.setProc f.src _)).same (sameDrops_matchOne _ f)
    · rw [heq]
      have hcount : Unrevoked ((c.note (.arrived f)).count f.src) :=
        harrived.same (.setProc f.src _)
      exact (hcount.same (sameDrops_matchOne _ f)).same (.setProc f.src _)
  | resume src =>
    change Unrevoked (c.resume src)
    rcases resume_cases c src with ⟨-, heq⟩ | ⟨-, -, heq⟩ | ⟨-, f, -, heq⟩
    · rw [heq]
      exact h
    · rw [heq]
      exact h.same (.setProc src _)
    · rw [heq]
      exact ((h.same (.setProc src _)).same (.setProc src _)).same (sameDrops_matchOne _ f)
  | post kind peer tag => exact h.same (sameDrops_recvReqStart kind peer tag)
  | cancel r => exact h.same (sameDrops_recvRequestCancel r)
  | revoke collOnly => exact absurd rfl (he collOnly)

/-- What the matching of a communicator owes its users. -/
structure MatchingOrder (c : MatchComm D) : Prop where
  /-- The matches so far are in the order of the sends and of the posts, and no
  message is given away twice. -/
  ordered : Logged Note.Ordered c.log
  /-- No message is lost. -/
  kept : ∀ f, .arrived f ∈ c.log → (∃ r, .received r f ∈ c.log) ∨
    f ∈ (c.procs f.src).unexpected ∨ f ∈ (c.procs f.src).cantMatch
  /-- A request waits only if no unexpected message is for it. -/
  waiting : ∀ r, c.Pending r → ∀ i, ∀ f ∈ (c.procs i).unexpected, ¬ r.Accepts f
  /-- A message is parked only as long as an earlier one of its sender is missing. -/
  parked : ∀ i, (c.procs i).draining = 0 → ∀ f ∈ (c.procs i).cantMatch, ∃ k, 0 < k ∧
    k < f.index ∧ ∀ g, .arrived g ∈ c.log → g.src = i → g.index ≠ k

theorem Unrevoked.received_of_gone (h : Unrevoked c) (hf : Gone f c.log) :
    ∃ r, .received r f ∈ c.log := by
  obtain ⟨n, hn, ht⟩ := hf
  cases n with
  | received r g =>
    cases ht
    exact ⟨r, hn⟩
  | dropped g => exact absurd hn (h.log g)
  | arrived g | posted r | probed r g | cancelled r => exact absurd ht id

theorem matchingOrder_of (hc : Coherent c) (hm : Tracks c none) (hi : Idle c) (hu : Unrevoked c) :
    MatchingOrder c := by
  refine ⟨hc.ordered, ?_, hc.quiet, ?_⟩
  · intro f hf
    by_cases hle : f.index ≤ (c.procs f.src).counted
    · rcases settled hm f hf hle with hnone | hin | hgone
      · cases hnone
      · exact .inr (.inl hin)
      · exact .inl (hu.received_of_gone hgone)
    · rcases uncounted hm f hf (Nat.lt_of_not_le hle) with hnone | hin | hgone
      · cases hnone
      · exact .inr (.inr hin)
      · exact .inl (hu.received_of_gone hgone)
  · intro i hzero f hf
    have hlo := (parked_window hm i f hf).1
    have hnext := hi i hzero f hf
    -- the next fragment to be counted is missing
    refine ⟨(c.procs i).counted + 1, Nat.succ_pos _, by omega, ?_⟩
    intro g hg hsrc hidx
    have hlt : (c.procs g.src).counted < g.index := by
      rw [hsrc]
      omega
    rcases uncounted hm g hg hlt with hnone | hin | hgone
    · cases hnone
    · exact hi g.src (hsrc ▸ hzero) g hin (hsrc ▸ hidx)
    · obtain ⟨r, hr⟩ := hu.received_of_gone hgone
      have := received_counted hm r g hr
      omega

/-- The steps of a run without a revocation whose numbers do not wrap around. -/
def Regular (c : MatchComm D) (e : MatchEvent D) : Prop :=
  c.Admits e ∧ (∀ collOnly, e ≠ .revoke collOnly) ∧ c.InRange e

theorem matchOne_of_received {r : RecvReq} {ws ss : List RecvReq}
    (h : matchIncoming f.tag c.wild (c.procs f.src).specific = some (r, ws, ss))
    (hr : r.kind ≠ .probe) : c.matchOne f = c.without f ws ss (.received r f) := by
  rw [matchOne]
  split
  · next hm =>
      rw [h] at hm
      cases hm
  · next q ws' ss' hm =>
      rw [h] at hm
      cases hm
      rw [if_neg hr]
      rfl

/-! ## The fast path -/

theorem recvFragCallbackMatch_eq (c : MatchComm D) (f : Frag D) :
    c.recvFragCallbackMatch f = c.recvFragMatch f := by
  rw [recvFragCallbackMatch]
  by_cases hdrop : c.drops f.tag = true
  · simp [recvFragMatch, recvFragFirst, hdrop]
  rw [if_neg hdrop]
  by_cases hfast : c.inSequence f = true
  · simp only [hfast, Bool.not_true, Bool.false_eq_true, if_false]
    simp only [inSequence, Bool.and_eq_true, decide_eq_true_eq, List.isEmpty_iff] at hfast
    obtain ⟨hseq, hempty⟩ := hfast
    have hcant : (((c.count f.src).matchOne f).procs f.src).cantMatch = [] := by
      rw [(sameCounters_matchOne (c.count f.src) f f.src).2.1]
      simp [count, MatchComm.setProc, hempty]
    simp [recvFragMatch, recvFragFirst, hdrop, hseq, hcant, drain, recvFragNext]
  · simp [hfast]

end MatchComm

/-- For every run of arrivals, posts and cancellations whose numbers do not wrap
around, the matching order is kept; and on every state the fast path is the slow
path. -/
theorem matching_order {D : Type} : (∀ (c : MatchComm D) (f : Frag D),
      c.recvFragCallbackMatch f = c.recvFragMatch f) ∧
    ∀ (n : Nat) (events : List (MatchEvent D)),
      Along MatchComm.step MatchComm.Regular (.new n) events →
        (events.foldl MatchComm.step (.new n)).MatchingOrder := by
  refine ⟨recvFragCallbackMatch_eq, fun n events hrun => ?_⟩
  have hinv := hrun.invariant (I := fun c => c.Coherent ∧ c.Tracks none ∧ c.Idle ∧ c.Unrevoked)
    ?_ ?_
  · obtain ⟨hc, hm, hi, hu⟩ := hinv
    exact matchingOrder_of hc hm hi hu
  · rintro c e ⟨hc, hm, hi, hu⟩ ⟨ha, hrev, hr⟩
    exact ⟨hc.step hm ha hr, hm.step ha hr.inWindow, hi.step hm ha hr.inWindow, hu.step hrev⟩
  · refine ⟨.new n, .new n, ?_, rfl, rfl, ?_⟩
    · intro i _ f hf
      cases hf
    · intro f hf
      cases hf

def plainFrag (index : Nat) : Frag Unit where
  hdrType := .hdrMatch
  src := 0
  tag := 0
  index := index
  data := ()

/-- Two messages come in out of order. -/
theorem matching_order_swapped :
    Along MatchComm.step MatchComm.Regular (.new 1) [.post .recv none ompiAnyTag,
        .arrive (plainFrag 2), .arrive (plainFrag 1), .resume 0] ∧
      (foldl MatchComm.step (.new 1) [.post .recv none ompiAnyTag,
        .arrive (plainFrag 2), .arrive (plainFrag 1), .resume 0]).MatchingOrder := by
  have hrun : Along step MatchComm.Regular (.new 1) [.post .recv none ompiAnyTag,
      .arrive (plainFrag 2), .arrive (plainFrag 1), .resume 0] := by
    refine ⟨⟨trivial, nofun, ?_⟩, ⟨⟨by decide, by decide, by decide, ?_⟩, nofun, ?_⟩,
      ⟨⟨by decide, by decide, by decide, ?_⟩, nofun, ?_⟩, ⟨trivial, nofun, trivial⟩, trivial⟩
    · rintro r (hr | ⟨i, hr⟩) <;> cases hr
    · intro g hg
      change Note.arrived g ∈ [.posted _] at hg
      cases mem_singleton.mp hg
    · change 2 ≤ 0 + 2 ^ 16
      decide
    · intro g hg _
      change Note.arrived g ∈ [.arrived (plainFrag 2), .posted _] at hg
      rcases mem_cons.mp hg with heq | hg
      · cases heq
        decide
      · cases mem_singleton.mp hg
    · change 1 ≤ 0 + 2 ^ 16
      decide
  exact ⟨hrun, matching_order.2 1 _ hrun⟩

/-- Message 65537 comes in before message 1. Its header holds the number 1, so the
receive gets it. -/
theorem matching_order_fails_after_wrap : ¬ ((∀ (c : MatchComm Unit) (f : Frag Unit),
      c.recvFragCallbackMatch f = c.recvFragMatch f) ∧
    ∀ (n : Nat) (events : List (MatchEvent Unit)),
      Along MatchComm.step (fun c e => c.Admits e ∧ ∀ collOnly, e ≠ .revoke collOnly) (.new n)
          events →
        (events.foldl MatchComm.step (.new n)).MatchingOrder) := by
  rintro ⟨-, h⟩
  have hrun : Along step (fun c e => c.Admits e ∧ ∀ collOnly, e ≠ .revoke collOnly)
      (.new 1) [.post .recv none ompiAnyTag, .arrive (plainFrag 65537)] := by
    refine ⟨⟨trivial, nofun⟩, ⟨⟨by decide, by decide, by decide, ?_⟩, nofun⟩, trivial⟩
    intro g hg
    change Note.arrived g ∈ [.posted _] at hg
    cases mem_singleton.mp hg
  have horder := (h 1 _ hrun).ordered
  have hlog : (foldl step (.new 1) [.post .recv none ompiAnyTag, .arrive (plainFrag 65537)]).log = [
        .received { kind := .recv, peer := none, tag := ompiAnyTag, index := 0 } (plainFrag 65537),
        .arrived (plainFrag 65537),
        .posted { kind := .recv, peer := none, tag := ompiAnyTag, index := 0 }] := by
    have hfound : matchIncoming 0 [{ kind := .recv, peer := none, tag := ompiAnyTag, index := 0 }]
        [] = some ({ kind := .recv, peer := none, tag := ompiAnyTag, index := 0 }, [], []) := by
      rw [matchIncoming]
      rfl
    change (matchOne _ (plainFrag 65537)).log = _
    rw [matchOne_of_received hfound (by decide)]
    rfl
  rw [hlog] at horder
  obtain ⟨g, hg, -, hidx, -⟩ := horder.1.send_order 1 (by decide) (by decide)
  rcases mem_cons.mp hg with heq | hg
  · cases heq
    cases hidx
  · cases mem_singleton.mp hg

end Ulfm
