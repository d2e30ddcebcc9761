import Ulfm.Pml.Fragments

/-!
# Sequence numbers of fragments that are thrown away

`expected_sequence` is incremented when a fragment is matched or queued. A fragment
that a revocation throws away before that, on its arrival or out of
`frags_cant_match`, leaves a hole: the fragments behind it stay parked. No hole
blocks anything as long as every such fragment lies behind all the fragments of its
peer that are kept (`LeavesNoHole`).
-/

namespace Ulfm

open List Function MatchComm Messages

namespace MatchComm

variable {D : Type} {c : MatchComm D} {f : Frag D} {e : MatchEvent D}

/-- Once the earlier fragments of its peer have come in, a fragment that has not been
thrown away is matched or unexpected. -/
def NoHole (c : MatchComm D) : Prop :=
  ∀ f, .arrived f ∈ c.log → .dropped f ∉ c.log → (c.procs f.src).draining = 0 →
    (∀ k, 0 < k → k < f.index → ∃ g, .arrived g ∈ c.log ∧ g.src = f.src ∧ g.index = k) →
    f ∉ (c.procs f.src).cantMatch ∧ ((∃ r, .received r f ∈ c.log) ∨ f ∈ (c.procs f.src).unexpected)

/-- The step throws no fragment away that has not been counted, or only behind the
fragments that it keeps; and it keeps no fragment behind one that has been thrown
away so. -/
def LeavesNoHole (c : MatchComm D) : MatchEvent D → Prop
  | .arrive f =>
    if c.drops f.tag then ∀ g ∈ (c.procs f.src).cantMatch, g.index < f.index
    else ∀ g, .dropped g ∈ c.log → g.src = f.src → (c.procs f.src).counted < g.index →
      f.index < g.index
  | .revoke collOnly => ∀ i < c.numProcs, ∀ f ∈ (c.procs i).cantMatch,
      ∀ g ∈ (c.procs i).cantMatch, (c.flagged collOnly).drops f.tag = true →
        (c.flagged collOnly).drops g.tag = false → g.index < f.index
  | _ => True

/-- The fragments that were thrown away uncounted lie behind the parked ones. -/
def Behind (c : MatchComm D) : Prop :=
  ∀ f, .dropped f ∈ c.log → (c.procs f.src).counted < f.index →
    ∀ g ∈ (c.procs f.src).cantMatch, g.index < f.index

theorem Behind.same {c' : MatchComm D} (h : Behind c) (hs : SameCounters c c')
    (hd : SameDrops c c') : Behind c' := by
  intro f hf hlt g hg
  obtain ⟨h1, h2, -⟩ := hs f.src
  exact h f ((hd.dropped f).mp hf) (h1 ▸ hlt) g (h2 ▸ hg)

theorem Behind.setProc (h : Behind c) {i : Nat} {p : CommProc D}
    (hcounted : (c.procs i).counted ≤ p.counted) (hsub : p.cantMatch ⊆ (c.procs i).cantMatch) :
    Behind (c.setProc i p) := by
  intro f hf hlt g hg
  by_cases hi : f.src = i
  · simp only [MatchComm.setProc, hi, update_self] at hlt hg
    subst hi
    exact h f hf (Nat.lt_of_le_of_lt hcounted hlt) g (hsub hg)
  · simp only [MatchComm.setProc, Function.update_of_ne hi] at hlt hg
    exact h f hf hlt g hg

theorem Behind.count_matchOne (h : Behind c) (f : Frag D) (i : Nat) :
    Behind ((c.count i).matchOne f) := by
  have hcount : Behind (c.count i) := h.setProc (Nat.le_succ _) (List.Subset.refl _)
  exact hcount.same (sameCounters_matchOne _ f) (sameDrops_matchOne _ f)

theorem Behind.arrive (h : Behind c) (hn : ∀ g, .dropped g ∈ c.log → g.src = f.src →
      (c.procs f.src).counted < g.index → c.drops f.tag = false → f.index < g.index)
    (hd : c.drops f.tag = true → ∀ g ∈ (c.procs f.src).cantMatch, g.index < f.index) :
    Behind (c.arrive f) := by
  rcases arrive_cases c f with ⟨hdrop, heq⟩ | ⟨hkeep, -, heq⟩ | ⟨-, -, ⟨-, heq⟩ | heq⟩ <;> rw [heq]
  · intro g hg hlt k hk
    rcases mem_cons.mp hg with hgf | hg
    · cases hgf
      exact hd hdrop k hk
    · exact h g hg hlt k hk
  · intro g hg hlt k hk
    by_cases hi : g.src = f.src
    · simp only [MatchComm.setProc, hi, update_self] at hlt hk
      rcases mem_append.mp hk with hk | hk
      · exact h g hg (hi ▸ hlt) k (hi ▸ hk)
      · rw [mem_singleton.mp hk]
        exact hn g hg hi hlt hkeep
    · simp only [MatchComm.setProc, Function.update_of_ne hi] at hlt hk
      exact h g hg hlt k hk
  · exact h.count_matchOne f f.src
  · exact (h.count_matchOne f f.src).setProc (Nat.le_refl _) (List.Subset.refl _)

theorem Behind.resume (h : Behind c) (src : Nat) : Behind (c.resume src) := by
  rcases resume_cases c src with ⟨-, heq⟩ | ⟨-, -, heq⟩ | ⟨-, f, -, heq⟩ <;> rw [heq]
  · exact h
  · exact h.setProc (Nat.le_refl _) (List.Subset.refl _)
  · refine Behind.count_matchOne ?_ f src
    exact h.setProc (Nat.le_refl _) eraseP_subset

theorem Behind.revokeComm (h : Behind c) (hm : Tracks c none) {collOnly : Bool}
    (hn : c.LeavesNoHole (.revoke collOnly)) : Behind (c.revokeComm collOnly) := by
  intro f hf hlt g hg
  have hcounted : ((c.revokeComm collOnly).procs f.src).counted = (c.procs f.src).counted :=
    congrFun revokeComm_counted f.src
  rw [hcounted] at hlt
  have hg' := (revokeComm_sublist f.src (.inr rfl)).subset hg
  rw [revokeComm_log] at hf
  rcases mem_append.mp hf with hf | hf
  · -- the fragment is thrown away now, out of the parked ones
    obtain ⟨k, hk, hkf⟩ := mem_map.mp hf
    cases hkf
    obtain ⟨i, hi, hin, hdrop⟩ := mem_lost.mp hk
    rcases hin with hin | hin
    · obtain ⟨rfl, -, hle⟩ := unexpected_src hm i f hin
      exact absurd hlt (Nat.not_lt.mpr hle)
    · obtain ⟨rfl, -⟩ := parked_src hm i f hin
      refine hn f.src hi f hin g hg' hdrop ?_
      rw [revokeComm_queue f.src (.inr rfl), if_pos hi, kept, mem_filter] at hg
      simpa using hg.2
  · exact h f hf hlt g hg'

theorem Behind.step (h : Behind c) (hm : Tracks c none) (hn : c.LeavesNoHole e) :
    Behind (c.step e) := by
  cases e with
  | arrive f =>
    have harrived : Behind (c.note (.arrived f)) := by
      refine Behind.same h (fun i => ⟨rfl, rfl, rfl⟩) ?_
      exact .note fun g hg => nomatch hg
    refine harrived.arrive ?_ ?_
    · intro g hg hsrc hlt hkeep
      have hkeep' : ¬ c.drops f.tag = true := by
        change c.drops f.tag = false at hkeep
        simp [hkeep]
      rw [LeavesNoHole, if_neg hkeep'] at hn
      refine hn g ?_ hsrc hlt
      simpa [MatchComm.note] using hg
    · intro hdrop
      change c.drops f.tag = true at hdrop
      rw [LeavesNoHole, if_pos hdrop] at hn
      exact hn
  | resume src => exact h.resume src
  | post kind peer tag =>
    exact h.same (sameCounters_recvReqStart kind peer tag) (sameDrops_recvReqStart kind peer tag)
  | cancel r => exact h.same (sameCounters_recvRequestCancel r) (sameDrops_recvRequestCancel r)
  | revoke collOnly => exact h.revokeComm hm hn

theorem dropped_of_gone (hm : Tracks c none) (hf : Gone f c.log)
    (hlt : (c.procs f.src).counted < f.index) : .dropped f ∈ c.log := by
  obtain ⟨n, hn, ht⟩ := hf
  cases n with
  | received r g =>
    cases ht
    exact absurd (received_counted hm r f hn) (Nat.not_le.mpr hlt)
  | dropped g =>
    cases ht
    exact hn
  | arrived g | posted r | probed r g | cancelled r => exact absurd ht id

theorem noHole_of (hm : Tracks c none) (hi : Idle c) (hb : Behind c) : NoHole c := by
  intro f hf hkeep hzero hlower
  have hcounted : f.index ≤ (c.procs f.src).counted := by
    by_contra hgt
    have hlt := Nat.lt_of_not_le hgt
    have hparked : f ∈ (c.procs f.src).cantMatch := by
      rcases uncounted hm f hf hlt with hnone | hin | hgone
      · cases hnone
      · exact hin
      · exact absurd (dropped_of_gone hm hgone hlt) hkeep
    have hnext := hi f.src hzero f hparked
    -- the next fragment to be counted has come in, and is neither parked nor dropped
    obtain ⟨g, hg, hsrc, hidx⟩ := hlower ((c.procs f.src).counted + 1) (Nat.succ_pos _) (by omega)
    have hglt : (c.procs g.src).counted < g.index := by
      rw [hsrc]
      omega
    rcases uncounted hm g hg hglt with hnone | hin | hgone
    · cases hnone
    · exact hi g.src (hsrc ▸ hzero) g hin (hsrc ▸ hidx)
    · have := hb g (dropped_of_gone hm hgone hglt) hglt f (hsrc ▸ hparked)
      omega
  refine ⟨fun hin => ?_, ?_⟩
  · have := (parked_window hm f.src f hin).1
    omega
  · rcases settled hm f hf hcounted with hnone | hin | ⟨n, hn, ht⟩
    · cases hnone
    · exact .inr hin
    · cases n with
      | received r g =>
        cases ht
        exact .inl ⟨r, hn⟩
      | dropped g =>
        cases ht
        exact absurd hn hkeep
      | arrived g | posted r | probed r g | cancelled r => exact absurd ht id

/-- The steps of a run in which no fragment is blocked. -/
def Unblocked (c : MatchComm D) (e : MatchEvent D) : Prop :=
  c.Admits e ∧ c.InWindow e ∧ c.LeavesNoHole e

end MatchComm

/-- For every order of arrivals, posts and revocations in which the fragments that
are thrown away uncounted lie behind the ones that are kept, no fragment stays
parked behind a hole. -/
theorem no_sequence_hole {D : Type} (n : Nat) (events : List (MatchEvent D))
    (hrun : Along MatchComm.step MatchComm.Unblocked (.new n) events) :
    (events.foldl MatchComm.step (.new n)).NoHole := by
  have hinv := hrun.invariant (I := fun c => c.Tracks none ∧ c.Idle ∧ c.Behind) ?_ ?_
  · exact noHole_of hinv.1 hinv.2.1 hinv.2.2
  · rintro c e ⟨hm, hi, hb⟩ ⟨ha, hw, hn⟩
    exact ⟨hm.step ha hw, hi.step hm ha hw, hb.step hm hn⟩
  · refine ⟨.new n, ?_, ?_⟩
    · intro i _ f hf
      cases hf
    · intro f hf
      cases hf

def taggedFrag (tag : ℤ) (index : Nat) : Frag Unit where
  hdrType := .hdrMatch
  src := 0
  tag := tag
  index := index
  data := ()

/-- Agreement traffic comes in after the revocation, and the message that is thrown
away is the last one. -/
theorem no_sequence_hole_last : Along MatchComm.step MatchComm.Unblocked (.new 1) [.revoke false,
        .arrive (taggedFrag (-27) 2), .arrive (taggedFrag 0 3)] ∧
      (foldl MatchComm.step (.new 1) [.revoke false,
        .arrive (taggedFrag (-27) 2), .arrive (taggedFrag 0 3)]).NoHole := by
  have hrun : Along step MatchComm.Unblocked (.new 1) [.revoke false,
      .arrive (taggedFrag (-27) 2), .arrive (taggedFrag 0 3)] := by
    refine ⟨⟨trivial, trivial, ?_⟩, ⟨⟨by decide, by decide, by decide, ?_⟩, ?_, ?_⟩,
      ⟨⟨by decide, by decide, by decide, ?_⟩, ?_, ?_⟩, trivial⟩
    · intro i _ f hf
      cases hf
    · intro g hg
      cases hg
    · change 2 ≤ 0 + 2 ^ 16
      decide
    · intro g hg
      cases hg
    · intro g hg _
      change Note.arrived g ∈ [.arrived (taggedFrag (-27) 2)] at hg
      cases mem_singleton.mp hg
      decide
    · change 3 ≤ 0 + 2 ^ 16
      decide
    · change ∀ g ∈ [taggedFrag (-27) 2], g.index < 3
      intro g hg
      rw [mem_singleton.mp hg]
      decide
  exact ⟨hrun, no_sequence_hole 1 _ hrun⟩

/-- After a revocation the first message of a peer is thrown away on its arrival. The
second one belongs to an agreement, and stays parked. -/
theorem dropped_frag_leaves_hole : ¬ ∀ (n : Nat) (events : List (MatchEvent Unit)),
    Along MatchComm.step MatchComm.Admits (.new n) events →
      (events.foldl MatchComm.step (.new n)).NoHole := by
  intro h
  have hrun : Along step MatchComm.Admits (.new 1) [.revoke false,
      .arrive (taggedFrag 0 1), .arrive (taggedFrag (-27) 2)] := by
    refine ⟨trivial, ⟨by decide, by decide, by decide, ?_⟩, ⟨by decide, by decide, by decide, ?_⟩,
      trivial⟩
    · intro g hg
      cases hg
    · intro g hg _
      change Note.arrived g ∈ [.dropped _, .arrived (taggedFrag 0 1)] at hg
      rcases mem_cons.mp hg with heq | hg
      · cases heq
      · cases mem_singleton.mp hg
        decide
  have hlog : (List.foldl step (.new 1) [.revoke false, .arrive (taggedFrag 0 1),
      .arrive (taggedFrag (-27) 2)]).log = [.arrived (taggedFrag (-27) 2),
        .dropped (taggedFrag 0 1), .arrived (taggedFrag 0 1)] := rfl
  have hparked : taggedFrag (-27) 2 ∈ ((List.foldl step (.new 1) [.revoke false,
      .arrive (taggedFrag 0 1), .arrive (taggedFrag (-27) 2)]).procs 0).cantMatch :=
    mem_singleton_self _
  refine (h 1 _ hrun (taggedFrag (-27) 2) ?_ ?_ rfl ?_).1 hparked
  · rw [hlog]
    exact mem_cons_self
  · rw [hlog]
    intro hd
    simp only [mem_cons, not_mem_nil, or_false, reduceCtorEq, false_or, Note.dropped.injEq] at hd
    cases hd
  · intro k hk hlt
    change k < 2 at hlt
    refine ⟨taggedFrag 0 1, ?_, rfl, ?_⟩
    · rw [hlog]
      exact mem_cons_of_mem _ (mem_cons_of_mem _ mem_cons_self)
    · change 1 = k
      omega

end Ulfm
