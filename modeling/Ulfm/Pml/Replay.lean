import Ulfm.Pml.Order

/-!
# Fragments that come in before their communicator

`mca_pml_ob1_add_comm` takes the fragments of the new communicator out of the list
`non_existing_communicator_pending` and sorts them into the queues of their peers
itself. It leaves what the receive path would leave, had the fragments come in after
the communicator was created and before any receive was posted.
-/

namespace Ulfm

open List Option MatchComm CommProc

/-- An entry of `non_existing_communicator_pending`: `hdr_ctx` and the rest. -/
structure PendingFrag (D : Type) where
  ctx : Nat
  frag : Frag D
deriving DecidableEq

namespace MatchComm

section Source

variable {D : Type}

/-- `expected_sequence++` and the append to `unexpected_frags`. -/
def enqueue (c : MatchComm D) (f : Frag D) : MatchComm D :=
  c.setProc f.src { c.procs f.src with
    counted := (c.procs f.src).counted + 1
    unexpected := (c.procs f.src).unexpected ++ [f] }

/-- The append to `frags_cant_match`. -/
def park (c : MatchComm D) (f : Frag D) : MatchComm D :=
  c.setProc f.src { c.procs f.src with cantMatch := (c.procs f.src).cantMatch ++ [f] }

/-- The search of `frags_cant_match` for the next fragment, which is removed. -/
def unpark (c : MatchComm D) (src : Nat) : Option (MatchComm D × Frag D) :=
  let p := c.procs src
  (p.cantMatch.find? fun f => f.seq = p.expectedSequence).map fun f =>
    (c.setProc src { p with
      cantMatch := p.cantMatch.eraseP fun f => f.seq = p.expectedSequence }, f)

/-- From the label `add_fragment_to_unexpected` on, where at most `rounds` jumps lead
back to it. -/
def addFragmentToUnexpected : Nat → MatchComm D → Frag D → MatchComm D
  | 0, c, f => if f.seq = (c.procs f.src).expectedSequence then c.enqueue f else c.park f
  | rounds + 1, c, f =>
    if f.seq = (c.procs f.src).expectedSequence then
      match (c.enqueue f).unpark f.src with
      | none => c.enqueue f
      | some (c', f') => addFragmentToUnexpected rounds c' f'
    else c.park f

/-- The traversal of `non_existing_communicator_pending`: what stays in the list, and the
communicator. -/
def grabPending (ctx : Nat) :
    List (PendingFrag D) → MatchComm D → List (PendingFrag D) × MatchComm D
  | [], c => ([], c)
  | item :: rest, c =>
    if item.ctx ≠ ctx then
      let result := grabPending ctx rest c
      (item :: result.1, result.2)
    else
      grabPending ctx rest <|
        c.addFragmentToUnexpected (c.procs item.frag.src).cantMatch.length item.frag

/-- `mca_pml_ob1_add_comm`: the list and the communicator, unless the context id is too
large. -/
def addComm (maxContextid ctx numProcs : Nat) (pending : List (PendingFrag D)) :
    Option (List (PendingFrag D) × MatchComm D) :=
  if maxContextid < ctx then none else some (grabPending ctx pending (.new numProcs))

/-- What the callback of the BTL does with a fragment whose communicator exists. -/
def receive (c : MatchComm D) (f : Frag D) : MatchComm D :=
  if f.hdrType = .hdrMatch then c.recvFragCallbackMatch f else c.recvFragMatch f

end Source

section Books

variable {D : Type} {c : MatchComm D} {f : Frag D} {frags hand : List (Frag D)}

/-- The books of a communicator that has got some fragments and no receive, while the
fragments in `hand` are between two queues. -/
structure Books (frags hand : List (Frag D)) (c : MatchComm D) : Prop where
  wild : c.wild = []
  specific : ∀ i, (c.procs i).specific = []
  revoked : c.revoked = false
  collRevoked : c.collRevoked = false
  frags : ∀ i, ((c.procs i).unexpected ++ (c.procs i).cantMatch ++
    hand.filter (·.src = i)).Perm (frags.filter (·.src = i))
  counted : ∀ i, (c.procs i).counted = (c.procs i).unexpected.length
  inOrder : ∀ i, (c.procs i).unexpected.map Frag.seq =
    (range (c.procs i).unexpected.length).map fun k => (k + 1) % 2 ^ 16

theorem Books.new (n : Nat) : Books [] [] (new n : MatchComm D) where
  wild := rfl
  specific _ := rfl
  revoked := rfl
  collRevoked := rfl
  frags _ := List.Perm.refl []
  counted _ := rfl
  inOrder _ := rfl

theorem Books.src_of_parked (h : Books frags hand c) {i : Nat}
    (hf : f ∈ (c.procs i).cantMatch) : f.src = i := by
  have hmem := (h.frags i).mem_iff.mp (mem_append_left _ (mem_append_right _ hf))
  simpa using (mem_filter.mp hmem).2

theorem Books.arrive (h : Books frags [] c) (f : Frag D) : Books (frags ++ [f]) [f] c :=
  { h with
    frags := fun i => by
      rw [filter_append]
      have hframe := h.frags i
      rw [filter_nil, append_nil] at hframe
      exact hframe.append_right _ }

theorem Books.setProc (h : Books frags hand c) {hand' : List (Frag D)} {src : Nat}
    {p : CommProc D} (hspecific : p.specific = [])
    (hfrags : (p.unexpected ++ p.cantMatch ++ hand'.filter (·.src = src)).Perm
      ((c.procs src).unexpected ++ (c.procs src).cantMatch ++ hand.filter (·.src = src)))
    (hhand : ∀ i ≠ src, hand'.filter (·.src = i) = hand.filter (·.src = i))
    (hcounted : p.counted = p.unexpected.length)
    (hinOrder : p.unexpected.map Frag.seq =
      (range p.unexpected.length).map fun k => (k + 1) % 2 ^ 16) :
    Books frags hand' (c.setProc src p) where
  wild := h.wild
  specific i := by
    by_cases hi : i = src
    · rw [hi, MatchComm.setProc]
      simpa using hspecific
    · simpa [MatchComm.setProc, hi] using h.specific i
  revoked := h.revoked
  collRevoked := h.collRevoked
  frags i := by
    by_cases hi : i = src
    · rw [hi, MatchComm.setProc]
      simpa using hfrags.trans (h.frags src)
    · rw [hhand i hi]
      simpa [MatchComm.setProc, hi] using h.frags i
  counted i := by
    by_cases hi : i = src
    · rw [hi, MatchComm.setProc]
      simpa using hcounted
    · simpa [MatchComm.setProc, hi] using h.counted i
  inOrder i := by
    by_cases hi : i = src
    · rw [hi, MatchComm.setProc]
      simpa using hinOrder
    · simpa [MatchComm.setProc, hi] using h.inOrder i

theorem filter_singleton_of_ne {i : Nat} (hi : i ≠ f.src) : [f].filter (·.src = i) = [] := by
  simp [Ne.symm hi]

theorem Books.enqueue (h : Books frags [f] c)
    (hseq : f.seq = (c.procs f.src).expectedSequence) : Books frags [] (c.enqueue f) := by
  have hcounted := h.counted f.src
  apply h.setProc
  · exact h.specific f.src
  · simp only [filter_nil, append_nil, decide_true, filter_cons_of_pos]
    rw [append_assoc, append_assoc]
    exact perm_append_comm.append_left _
  · intro i hi
    rw [filter_singleton_of_ne hi, filter_nil]
  · rw [length_append, hcounted]
    rfl
  · rw [map_append, length_append, length_singleton, range_succ,
      map_append, h.inOrder f.src, map_singleton, map_singleton, hseq,
      expectedSequence, hcounted]

theorem Books.park (h : Books frags [f] c) : Books frags [] (c.park f) := by
  apply h.setProc
  · exact h.specific f.src
  · simp
  · intro i hi
    rw [filter_singleton_of_ne hi, filter_nil]
  · exact h.counted f.src
  · exact h.inOrder f.src

theorem Books.unpark (h : Books frags [] c) {src : Nat} {c' : MatchComm D}
    (hfind : c.unpark src = some (c', f)) :
    Books frags [f] c' ∧ f.src = src ∧ f.seq = (c'.procs f.src).expectedSequence ∧
      (c'.procs src).cantMatch.length + 1 = (c.procs src).cantMatch.length := by
  rw [MatchComm.unpark, map_eq_some_iff] at hfind
  obtain ⟨g, hg, heq⟩ := hfind
  obtain ⟨rfl, rfl⟩ := Prod.mk.inj heq
  obtain ⟨l₁, l₂, hl, herase, hseq, -⟩ := eraseP_of_find? hg
  have hsrc : g.src = src := h.src_of_parked (by rw [hl]; simp)
  subst hsrc
  refine ⟨?_, rfl, ?_, ?_⟩
  · apply h.setProc
    · exact h.specific g.src
    · simp only [herase, filter_nil, append_nil, decide_true, filter_cons_of_pos]
      rw [hl, append_assoc, append_assoc]
      apply List.Perm.append_left
      apply List.Perm.append_left
      exact perm_append_singleton g l₂
    · intro i hi
      rw [filter_singleton_of_ne hi, filter_nil]
    · exact h.counted g.src
    · exact h.inOrder g.src
  · simpa [MatchComm.setProc, expectedSequence] using of_decide_eq_true hseq
  · simp only [MatchComm.setProc, Function.update_self, herase]
    rw [hl, length_append, length_append, length_cons]
    omega

theorem Books.matchOne (h : Books frags hand c) (f : Frag D) :
    (c.count f.src).matchOne f = c.enqueue f := by
  have hnone : matchIncoming f.tag (c.count f.src).wild ((c.count f.src).procs f.src).specific =
      none := by
    have hwild : (c.count f.src).wild = [] := h.wild
    have hspecific : ((c.count f.src).procs f.src).specific = [] := by
      simpa [count, MatchComm.setProc] using h.specific f.src
    rw [hwild, hspecific, matchIncoming]
  rw [MatchComm.matchOne]
  split
  · simp [count, MatchComm.setProc, MatchComm.enqueue]
  · next hsome =>
      rw [hnone] at hsome
      cases hsome

theorem Books.drops (h : Books frags hand c) (tag : ℤ) : c.drops tag = false := by
  simp [MatchComm.drops, h.revoked, h.collRevoked]

theorem Books.recvFragNext (h : Books frags [] c) (src : Nat) :
    c.recvFragNext src = match c.unpark src with
      | none => (c, false)
      | some (c', f) => (c'.enqueue f, true) := by
  cases hfind : c.unpark src with
  | none =>
    rw [MatchComm.unpark, map_eq_none_iff] at hfind
    rw [MatchComm.recvFragNext]
    simp only [hfind]
  | some found =>
    obtain ⟨c', f⟩ := found
    obtain ⟨hbooks, hsrc, -, -⟩ := h.unpark hfind
    rw [MatchComm.unpark, map_eq_some_iff] at hfind
    obtain ⟨g, hg, heq⟩ := hfind
    obtain ⟨rfl, rfl⟩ := Prod.mk.inj heq
    rw [MatchComm.recvFragNext]
    simp only [hg]
    rw [← hsrc] at hbooks ⊢
    rw [hbooks.matchOne g]

/-- No parked fragment of a peer is the next one. -/
def Stuck (c : MatchComm D) (i : Nat) : Prop :=
  ∀ g ∈ (c.procs i).cantMatch, g.seq ≠ (c.procs i).expectedSequence

theorem stuck_iff_unpark (c : MatchComm D) (i : Nat) : c.Stuck i ↔ c.unpark i = none := by
  rw [unpark, map_eq_none_iff, find?_eq_none, Stuck]
  exact forall₂_congr fun g _ => (decide_eq_true_iff (p := _)).not.symm

theorem Stuck.setProc {i src : Nat} {p : CommProc D} (h : c.Stuck i) (hi : i ≠ src) :
    (c.setProc src p).Stuck i := by
  simpa [Stuck, MatchComm.setProc, hi] using h

theorem Stuck.of_unpark {i src : Nat} {c' : MatchComm D} (h : c.Stuck i) (hi : i ≠ src)
    (hfind : c.unpark src = some (c', f)) : c'.Stuck i := by
  rw [unpark, map_eq_some_iff] at hfind
  obtain ⟨g, -, heq⟩ := hfind
  rw [← (Prod.mk.inj heq).1]
  exact h.setProc hi

theorem enqueue_cantMatch (c : MatchComm D) (f : Frag D) :
    ((c.enqueue f).procs f.src).cantMatch = (c.procs f.src).cantMatch := by
  simp [enqueue, MatchComm.setProc]

theorem addFragmentToUnexpected_park (rounds : Nat)
    (hseq : f.seq ≠ (c.procs f.src).expectedSequence) :
    c.addFragmentToUnexpected rounds f = c.park f := by
  cases rounds with
  | zero | succ rounds => rw [addFragmentToUnexpected, if_neg hseq]

/-- A fragment in sequence, and the parked ones behind it: the jumps back to the label do
what the loop of `mca_pml_ob1_recv_frag_match` does. -/
theorem Books.addFragment (rounds : Nat) (h : Books frags [f] c)
    (hseq : f.seq = (c.procs f.src).expectedSequence)
    (hrounds : (c.procs f.src).cantMatch.length ≤ rounds)
    (hother : ∀ i ≠ f.src, c.Stuck i) :
    Books frags [] (c.addFragmentToUnexpected rounds f) ∧
      (∀ i, (c.addFragmentToUnexpected rounds f).Stuck i) ∧
      c.addFragmentToUnexpected rounds f = drain (rounds + 1) (c.enqueue f) f.src := by
  have henqueued := h.enqueue hseq
  have hother' : ∀ i ≠ f.src, (c.enqueue f).Stuck i := fun i hi => (hother i hi).setProc hi
  induction rounds generalizing c f with
  | zero =>
    have hempty : ((c.enqueue f).procs f.src).cantMatch = [] := by
      rw [enqueue_cantMatch]
      exact length_eq_zero_iff.mp (Nat.le_zero.mp hrounds)
    have hnone : (c.enqueue f).unpark f.src = none := by
      rw [← stuck_iff_unpark, Stuck, hempty]
      exact forall_mem_nil _
    rw [addFragmentToUnexpected, if_pos hseq, drain, henqueued.recvFragNext, hnone]
    refine ⟨henqueued, fun i => ?_, rfl⟩
    by_cases hi : i = f.src
    · rw [hi]
      exact (stuck_iff_unpark _ _).mpr hnone
    · exact hother' i hi
  | succ rounds ih =>
    rw [addFragmentToUnexpected, if_pos hseq, drain, henqueued.recvFragNext]
    cases hfind : (c.enqueue f).unpark f.src with
    | none =>
      refine ⟨henqueued, fun i => ?_, rfl⟩
      by_cases hi : i = f.src
      · rw [hi]
        exact (stuck_iff_unpark _ _).mpr hfind
      · exact hother' i hi
    | some found =>
      obtain ⟨c', g⟩ := found
      obtain ⟨hbooks, hsrc, hseq', hlength⟩ := henqueued.unpark hfind
      rw [enqueue_cantMatch] at hlength
      have hother'' : ∀ i ≠ g.src, c'.Stuck i := by
        intro i hi
        rw [hsrc] at hi
        exact (hother' i hi).of_unpark hi hfind
      simp only [if_true]
      rw [← hsrc]
      apply ih hbooks hseq' _ hother'' (hbooks.enqueue hseq')
      · exact fun i hi => (hother'' i hi).setProc hi
      · rw [hsrc]
        omega

theorem Books.grab (h : Books frags [] c) (hstuck : ∀ i, c.Stuck i) (f : Frag D) :
    Books (frags ++ [f]) [] (c.addFragmentToUnexpected (c.procs f.src).cantMatch.length f) ∧
      (∀ i, (c.addFragmentToUnexpected (c.procs f.src).cantMatch.length f).Stuck i) ∧
      c.addFragmentToUnexpected (c.procs f.src).cantMatch.length f = c.receive f := by
  have harrived := h.arrive f
  have hreceive : c.receive f = c.recvFragMatch f := by
    rw [receive]
    split_ifs
    · exact recvFragCallbackMatch_eq c f
    · rfl
  rw [hreceive, recvFragMatch, recvFragFirst, if_neg (by simp [h.drops])]
  by_cases hseq : f.seq = (c.procs f.src).expectedSequence
  · rw [if_neg (not_not.mpr hseq), h.matchOne f]
    simp only [if_true]
    rw [enqueue_cantMatch]
    exact harrived.addFragment _ hseq (Nat.le_refl _) fun i _ => hstuck i
  · rw [if_pos hseq, addFragmentToUnexpected_park _ hseq]
    refine ⟨harrived.park, fun i => ?_, rfl⟩
    by_cases hi : i = f.src
    · subst hi
      intro g hg
      have hexpected : ((c.park f).procs f.src).expectedSequence =
          (c.procs f.src).expectedSequence := by
        simp [MatchComm.park, MatchComm.setProc, expectedSequence]
      rw [hexpected]
      have hmem : g ∈ (c.procs f.src).cantMatch ++ [f] := by
        simpa [MatchComm.park, MatchComm.setProc] using hg
      rcases mem_append.mp hmem with hold | hnew
      · exact hstuck f.src g hold
      · rw [mem_singleton.mp hnew]
        exact hseq
    · exact (hstuck i).setProc hi

theorem Books.grabPending (ctx : Nat) (h : Books frags [] c) (hstuck : ∀ i, c.Stuck i)
    (pending : List (PendingFrag D)) :
    (grabPending ctx pending c).1 = pending.filter (·.ctx ≠ ctx) ∧ (grabPending ctx pending c).2 =
        ((pending.filter (·.ctx = ctx)).map (·.frag)).foldl receive c ∧
      Books (frags ++ (pending.filter (·.ctx = ctx)).map (·.frag)) []
        (grabPending ctx pending c).2 ∧
      ∀ i, (grabPending ctx pending c).2.Stuck i := by
  induction pending generalizing c frags with
  | nil => exact ⟨rfl, rfl, by simpa [MatchComm.grabPending] using h, hstuck⟩
  | cons item rest ih =>
    rw [MatchComm.grabPending]
    by_cases hctx : item.ctx = ctx
    · obtain ⟨hbooks, hstuck', hreceive⟩ := h.grab hstuck item.frag
      obtain ⟨hlist, hcomm, hrest⟩ := ih hbooks hstuck'
      rw [if_neg (not_not.mpr hctx), filter_cons_of_neg (by simpa using hctx),
        filter_cons_of_pos (by simpa using hctx), map_cons, foldl_cons,
        ← hreceive]
      rw [append_assoc] at hrest
      exact ⟨hlist, hcomm, hrest⟩
    · obtain ⟨hlist, hrest⟩ := ih h hstuck
      rw [if_pos hctx, filter_cons_of_pos (by simpa using hctx),
        filter_cons_of_neg (by simpa using hctx)]
      exact ⟨congrArg (item :: ·) hlist, hrest⟩

end Books

end MatchComm

/-- `mca_pml_ob1_add_comm` leaves the queues that the receive path leaves when the early
fragments of the communicator come in, in their order, right after its creation. No
fragment is lost or duplicated: the unexpected queue of a peer holds the ones in sequence,
the others are parked, and those of other contexts stay pending. -/
theorem add_comm_replays {D : Type} {maxContextid ctx : Nat} (hctx : ctx ≤ maxContextid)
    (numProcs : Nat) (pending : List (PendingFrag D)) :
    ∃ c : MatchComm D, MatchComm.addComm maxContextid ctx numProcs pending =
        some (pending.filter (·.ctx ≠ ctx), c) ∧
      c = ((pending.filter (·.ctx = ctx)).map (·.frag)).foldl MatchComm.receive (.new numProcs) ∧
      ∀ i, ((c.procs i).unexpected ++ (c.procs i).cantMatch).Perm
          (((pending.filter (·.ctx = ctx)).map (·.frag)).filter (·.src = i)) ∧
        (c.procs i).unexpected.map Frag.seq =
          (range (c.procs i).unexpected.length).map (fun k => (k + 1) % 2 ^ 16) ∧
        (c.procs i).expectedSequence = ((c.procs i).unexpected.length + 1) % 2 ^ 16 ∧
        ∀ g ∈ (c.procs i).cantMatch, g.seq ≠ (c.procs i).expectedSequence := by
  have hstuck : ∀ i, (MatchComm.new numProcs : MatchComm D).Stuck i := by
    intro i g hg
    cases hg
  obtain ⟨hlist, hcomm, hbooks, hstuck'⟩ :=
    (MatchComm.Books.new numProcs).grabPending ctx hstuck pending
  refine ⟨_, ?_, hcomm, fun i => ⟨?_, hbooks.inOrder i, ?_, hstuck' i⟩⟩
  · rw [addComm, if_neg (Nat.not_lt.mpr hctx), ← hlist]
  · have hfrags := hbooks.frags i
    rw [filter_nil, append_nil, nil_append] at hfrags
    exact hfrags
  · rw [expectedSequence, hbooks.counted i]

/-- Three fragments of a peer, the last one first, and one of another context. -/
theorem add_comm_replays_early : ∃ c : MatchComm Unit, MatchComm.addComm 65535 3 2
        [⟨3, plainFrag 2⟩, ⟨4, plainFrag 1⟩, ⟨3, plainFrag 4⟩, ⟨3, plainFrag 1⟩] =
      some ([⟨4, plainFrag 1⟩], c) ∧
    (c.procs 0).unexpected = [plainFrag 1, plainFrag 2] ∧
    (c.procs 0).cantMatch = [plainFrag 4] := by
  obtain ⟨c, hc, hreplay, -⟩ := add_comm_replays (D := Unit) (show 3 ≤ 65535 by decide) 2
    [⟨3, plainFrag 2⟩, ⟨4, plainFrag 1⟩, ⟨3, plainFrag 4⟩, ⟨3, plainFrag 1⟩]
  have hcomm : addComm 65535 3 2
      [⟨3, plainFrag 2⟩, ⟨4, plainFrag 1⟩, ⟨3, plainFrag 4⟩, ⟨3, plainFrag 1⟩] =
      some (_, _) := rfl
  rw [hcomm] at hc
  obtain ⟨-, hc⟩ := Prod.mk.inj (Option.some.inj hc)
  refine ⟨c, ?_, ?_, ?_⟩
  · rw [← hc]
    rfl
  · rw [← hc]
    rfl
  · rw [← hc]
    rfl

end Ulfm
