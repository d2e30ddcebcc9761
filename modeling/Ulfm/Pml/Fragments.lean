import Ulfm.Pml.Queues

/-!
# The sections of the code and the fragments

`Tracks` is the part of the invariant about the fragments, for a communicator. Each
section that the code runs with the matching lock held keeps it as long as a
fragment comes in less than 65536 before its turn. A call of
`mca_pml_ob1_recv_frag_match` that is not going on has left no fragment parked that
could be counted next (`Idle`).
-/

namespace Ulfm

open List Function Option CommProc Messages

namespace MatchComm

variable {D : Type} {c : MatchComm D} {hand : Option (Frag D)} {f : Frag D} {e : MatchEvent D}

/-- The fragments of a communicator; `hand` is the one that a section is handling. -/
def Tracks (c : MatchComm D) (hand : Option (Frag D)) : Prop :=
  Messages c.numProcs (fun i => (c.procs i).counted) (fun i => (c.procs i).cantMatch)
    (fun i => (c.procs i).unexpected) hand c.log

theorem setProc_field {β : Type} (g : CommProc D → β) (i : Nat) (p : CommProc D) :
    (fun j => g ((c.setProc i p).procs j)) = update (fun j => g (c.procs j)) i (g p) := by
  funext j
  by_cases hj : j = i
  · subst hj
    simp [setProc]
  · simp [setProc, hj]

theorem setProc_field_eq {β : Type} {g : CommProc D → β} {i : Nat} {p : CommProc D}
    (h : g p = g (c.procs i)) :
    (fun j => g ((c.setProc i p).procs j)) = fun j => g (c.procs j) := by
  rw [setProc_field, h]
  exact update_eq_self i _

theorem update_same {β : Type} (g : CommProc D → β) (i : Nat) :
    (fun j => g (c.procs j)) = update (fun j => g (c.procs j)) i (g (c.procs i)) :=
  (update_eq_self i _).symm

theorem Tracks.setProc {i : Nat} {p : CommProc D} {counted : Nat → Nat}
    {cantMatch unexpected : Nat → List (Frag D)}
    (hm : Messages c.numProcs counted cantMatch unexpected hand c.log)
    (hcounted : counted = update (fun j => (c.procs j).counted) i p.counted)
    (hcant : cantMatch = update (fun j => (c.procs j).cantMatch) i p.cantMatch)
    (hunexp : unexpected = update (fun j => (c.procs j).unexpected) i p.unexpected) :
    Tracks (c.setProc i p) hand := by
  rw [Tracks, setProc_field CommProc.counted, setProc_field CommProc.cantMatch,
    setProc_field CommProc.unexpected, ← hcounted, ← hcant, ← hunexp]
  exact hm

theorem Tracks.setProc_same (h : Tracks c hand) {i : Nat} {p : CommProc D}
    (hcounted : p.counted = (c.procs i).counted) (hcant : p.cantMatch = (c.procs i).cantMatch)
    (hunexp : p.unexpected = (c.procs i).unexpected) : Tracks (c.setProc i p) hand := by
  rw [Tracks, setProc_field_eq hcounted, setProc_field_eq hcant, setProc_field_eq hunexp]
  exact h

theorem Tracks.note (h : Tracks c hand) {n : Note D} (htake : ∀ f, ¬ n.Takes f)
    (harrive : ∀ f, n ≠ .arrived f) : Tracks (c.note n) hand :=
  Messages.note h htake harrive

/-! ## The sections of a fragment -/

/-- The request leaves its queue with an entry about it. -/
def without (c : MatchComm D) (f : Frag D) (ws ss : List RecvReq) (n : Note D) : MatchComm D :=
  ({ c with wild := ws }.setProc f.src { c.procs f.src with specific := ss }).note n

theorem Tracks.probed (h : Tracks c (some f)) {r : RecvReq} {ws ss : List RecvReq} :
    Tracks (c.without f ws ss (.probed r f)) (some f) := by
  have hset : Tracks ({ c with wild := ws }.setProc f.src
      { c.procs f.src with specific := ss }) (some f) :=
    Tracks.setProc_same (c := { c with wild := ws }) h rfl rfl rfl
  exact hset.note (fun g => id) fun g hg => nomatch hg

theorem Tracks.received (h : Tracks c (some f)) (hlast : f.index = (c.procs f.src).counted)
    {r : RecvReq} {ws ss : List RecvReq} : Tracks (c.without f ws ss (.received r f)) none := by
  have hset : Tracks ({ c with wild := ws }.setProc f.src
      { c.procs f.src with specific := ss }) (some f) :=
    Tracks.setProc_same (c := { c with wild := ws }) h rfl rfl rfl
  refine Messages.take hset (fun g => ⟨Eq.symm, Eq.symm⟩) (fun g hg => nomatch hg) ?_
  intro q g heq
  cases heq
  have hcounted := congrFun (setProc_field_eq (g := counted) (c := { c with wild := ws })
    (i := f.src) (p := { c.procs f.src with specific := ss }) rfl) f.src
  exact Nat.le_of_eq (hlast.trans hcounted.symm)

theorem Tracks.matchOne (h : Tracks c (some f)) (hlast : f.index = (c.procs f.src).counted) :
    Tracks (c.matchOne f) none := by
  fun_induction MatchComm.matchOne c f with
  | case1 c hm =>
    exact Tracks.setProc (queue h hlast) (update_same counted f.src)
      (update_same cantMatch f.src) rfl
  | case2 c r wild specific hm c' hprobe ih =>
    refine ih h.probed ?_
    change f.index = (update c.procs f.src _ f.src).counted
    rw [update_self]
    exact hlast
  | case3 c r wild specific hm c' hprobe => exact h.received hlast

/-- The two states park and count the same fragments. -/
def SameCounters (c c' : MatchComm D) : Prop :=
  ∀ i, (c'.procs i).counted = (c.procs i).counted ∧ (c'.procs i).cantMatch = (c.procs i).cantMatch ∧
    (c'.procs i).draining = (c.procs i).draining

theorem SameCounters.setProc {i : Nat} {p : CommProc D} (h1 : p.counted = (c.procs i).counted)
    (h2 : p.cantMatch = (c.procs i).cantMatch) (h3 : p.draining = (c.procs i).draining) :
    SameCounters c (c.setProc i p) := fun j =>
  ⟨congrFun (setProc_field_eq h1) j, congrFun (setProc_field_eq h2) j,
    congrFun (setProc_field_eq h3) j⟩

theorem SameCounters.trans {c₁ c₂ c₃ : MatchComm D} (h : SameCounters c₁ c₂)
    (h' : SameCounters c₂ c₃) : SameCounters c₁ c₃ := fun j =>
  ⟨(h' j).1.trans (h j).1, (h' j).2.1.trans (h j).2.1, (h' j).2.2.trans (h j).2.2⟩

theorem sameCounters_matchOne (c : MatchComm D) (f : Frag D) : SameCounters c (c.matchOne f) := by
  fun_induction MatchComm.matchOne c f with
  | case1 c hm => exact .setProc rfl rfl rfl
  | case2 c r wild specific hm c' hprobe ih =>
    have hset : SameCounters c c' := SameCounters.setProc (c := { c with wild := wild }) rfl rfl rfl
    exact hset.trans ih
  | case3 c r wild specific hm c' hprobe =>
    exact SameCounters.setProc (c := { c with wild := wild }) rfl rfl rfl

/-- The two states have the same flags and have thrown the same fragments away. -/
structure SameDrops (c c' : MatchComm D) : Prop where
  revoked : c'.revoked = c.revoked
  collRevoked : c'.collRevoked = c.collRevoked
  dropped : ∀ f, .dropped f ∈ c'.log ↔ .dropped f ∈ c.log

theorem SameDrops.trans {c₁ c₂ c₃ : MatchComm D} (h : SameDrops c₁ c₂) (h' : SameDrops c₂ c₃) :
    SameDrops c₁ c₃ :=
  ⟨h'.revoked.trans h.revoked, h'.collRevoked.trans h.collRevoked, fun f =>
    (h'.dropped f).trans (h.dropped f)⟩

theorem SameDrops.setProc (i : Nat) (p : CommProc D) : SameDrops c (c.setProc i p) :=
  ⟨rfl, rfl, fun _ => Iff.rfl⟩

theorem SameDrops.note {n : Note D} (hn : ∀ f, n ≠ .dropped f) : SameDrops c (c.note n) := by
  refine ⟨rfl, rfl, fun f => ?_⟩
  simp [MatchComm.note, (hn f).symm]

theorem sameDrops_matchOne (c : MatchComm D) (f : Frag D) : SameDrops c (c.matchOne f) := by
  fun_induction MatchComm.matchOne c f with
  | case1 c hm => exact .setProc f.src _
  | case2 c r wild specific hm c' hprobe ih =>
    have hset : SameDrops c c' := ⟨rfl, rfl, fun _ => Iff.rfl⟩
    exact (hset.trans (.note (n := .probed r f) fun g hg => nomatch hg)).trans ih
  | case3 c r wild specific hm c' hprobe =>
    have hset : SameDrops c c' := ⟨rfl, rfl, fun _ => Iff.rfl⟩
    exact hset.trans (.note fun g hg => nomatch hg)

theorem seq_eq_expected_iff (hlo : (c.procs f.src).counted < f.index)
    (hhi : f.index ≤ (c.procs f.src).counted + 2 ^ 16) :
    f.seq = (c.procs f.src).expectedSequence ↔ f.index = (c.procs f.src).counted + 1 := by
  simp only [Frag.seq, expectedSequence]
  omega

/-- What the network does: each fragment of a member comes in once. -/
def Sent (c : MatchComm D) (f : Frag D) : Prop :=
  f.src < c.numProcs ∧ 0 < f.index ∧ f.tag ≠ ompiAnyTag ∧
    ∀ g, .arrived g ∈ c.log → g.src = f.src → g.index ≠ f.index

theorem Tracks.arrived (h : Tracks c none) (hf : c.Sent f) :
    Tracks (c.note (.arrived f)) (some f) := by
  obtain ⟨h1, h2, h3, hfresh⟩ := hf
  exact Messages.arrive h ⟨h1, h2, h3⟩ hfresh

theorem Tracks.counted_lt (h : Tracks c none) (hf : c.Sent f) :
    (c.procs f.src).counted < f.index := by
  obtain ⟨-, hpos, -, hfresh⟩ := hf
  by_contra hle
  obtain ⟨g, hg, hsrc, hidx⟩ := counted_arrived h f.src f.index hpos (Nat.le_of_not_lt hle)
  exact hfresh g hg hsrc hidx

theorem Tracks.drop (h : Tracks c (some f)) : Tracks (c.note (.dropped f)) none := by
  refine Messages.take h (fun g => ⟨Eq.symm, Eq.symm⟩) (fun g hg => nomatch hg) ?_
  intro r g heq
  cases heq

theorem Tracks.park (h : Tracks c (some f)) (hlo : (c.procs f.src).counted < f.index)
    (hhi : f.index ≤ (c.procs f.src).counted + 2 ^ 16) :
    Tracks (c.setProc f.src
      { c.procs f.src with cantMatch := (c.procs f.src).cantMatch ++ [f] }) none :=
  Tracks.setProc (Messages.park h hlo hhi) (update_same counted f.src) rfl
    (update_same unexpected f.src)

theorem Tracks.count (h : Tracks c (some f)) (hnext : f.index = (c.procs f.src).counted + 1) :
    Tracks (c.count f.src) (some f) ∧ f.index = ((c.count f.src).procs f.src).counted := by
  refine ⟨Tracks.setProc (Messages.count h hnext) rfl (update_same cantMatch f.src)
    (update_same unexpected f.src), ?_⟩
  simp only [MatchComm.count, MatchComm.setProc, update_self]
  exact hnext

theorem arrive_cases (c : MatchComm D) (f : Frag D) :
    (c.drops f.tag = true ∧ c.arrive f = c.note (.dropped f)) ∨
      (c.drops f.tag = false ∧ f.seq ≠ (c.procs f.src).expectedSequence ∧ c.arrive f =
        c.setProc f.src { c.procs f.src with cantMatch := (c.procs f.src).cantMatch ++ [f] }) ∨
      (c.drops f.tag = false ∧ f.seq = (c.procs f.src).expectedSequence ∧
        ((c.procs f.src).cantMatch = [] ∧ c.arrive f = (c.count f.src).matchOne f ∨
          c.arrive f = ((c.count f.src).matchOne f).enter f.src)) := by
  rw [arrive]
  by_cases hdrop : c.drops f.tag = true
  · simp [hdrop, recvFragFirst]
  · rw [Bool.not_eq_true] at hdrop
    by_cases hseq : f.seq = (c.procs f.src).expectedSequence
    · refine .inr (.inr ⟨hdrop, hseq, ?_⟩)
      by_cases hfast : f.hdrType = .hdrMatch ∧ !c.drops f.tag ∧ c.inSequence f
      · refine .inl ⟨?_, if_pos hfast⟩
        have hempty := hfast.2.2
        simp only [inSequence, Bool.and_eq_true, List.isEmpty_iff] at hempty
        exact hempty.2
      · refine .inr ?_
        rw [if_neg hfast]
        simp [recvFragFirst, hdrop, hseq]
    · refine .inr (.inl ⟨hdrop, hseq, ?_⟩)
      simp [inSequence, recvFragFirst, hdrop, hseq]

theorem resume_cases (c : MatchComm D) (src : Nat) :
    ((c.procs src).draining = 0 ∧ c.resume src = c) ∨
      ((c.procs src).draining ≠ 0 ∧ ((c.procs src).cantMatch.find? fun f =>
          f.seq = (c.procs src).expectedSequence) = none ∧ c.resume src = c.leave src) ∨
      ((c.procs src).draining ≠ 0 ∧ ∃ f, ((c.procs src).cantMatch.find? fun f =>
          f.seq = (c.procs src).expectedSequence) = some f ∧
        c.resume src = ((c.setProc src { c.procs src with
          cantMatch := (c.procs src).cantMatch.eraseP fun f =>
            f.seq = (c.procs src).expectedSequence }).count src).matchOne f) := by
  rw [resume]
  by_cases hzero : (c.procs src).draining = 0
  · exact .inl ⟨hzero, if_pos hzero⟩
  · refine .inr ?_
    rw [if_neg hzero, recvFragNext]
    cases hfind : (c.procs src).cantMatch.find? fun f => f.seq = (c.procs src).expectedSequence with
    | none => exact .inl ⟨hzero, rfl, rfl⟩
    | some f => exact .inr ⟨hzero, f, rfl, rfl⟩

theorem Tracks.find_parked (h : Tracks c hand) {src : Nat}
    (hfind : ((c.procs src).cantMatch.find? fun f =>
      f.seq = (c.procs src).expectedSequence) = some f) :
    f.src = src ∧ f.index = (c.procs src).counted + 1 := by
  have hmem := mem_of_find?_eq_some hfind
  have hseq : f.seq = (c.procs src).expectedSequence := by
    simpa using find?_some hfind
  obtain ⟨rfl, -⟩ := parked_src h src f hmem
  obtain ⟨hlo, hhi⟩ := parked_window h f.src f hmem
  exact ⟨rfl, (seq_eq_expected_iff hlo hhi).mp hseq⟩

theorem Tracks.unpark (h : Tracks c none) (hfind : ((c.procs f.src).cantMatch.find? fun g =>
    g.seq = (c.procs f.src).expectedSequence) = some f) :
    Tracks (c.setProc f.src { c.procs f.src with
      cantMatch := (c.procs f.src).cantMatch.eraseP fun g =>
        g.seq = (c.procs f.src).expectedSequence }) (some f) := by
  obtain ⟨before, after, hsplit, herase, -⟩ := eraseP_of_find? hfind
  refine Tracks.setProc (Messages.unpark h hsplit) (update_same counted f.src) ?_
    (update_same unexpected f.src)
  rw [herase]

theorem Tracks.arrive (h : Tracks c (some f)) (hlo : (c.procs f.src).counted < f.index)
    (hhi : f.index ≤ (c.procs f.src).counted + 2 ^ 16) : Tracks (c.arrive f) none := by
  have hnext := seq_eq_expected_iff hlo hhi
  rcases arrive_cases c f with ⟨-, heq⟩ | ⟨-, -, heq⟩ | ⟨-, hseq, ⟨-, heq⟩ | heq⟩ <;> rw [heq]
  · exact h.drop
  · exact h.park hlo hhi
  · obtain ⟨hcount, hlast⟩ := h.count (hnext.mp hseq)
    exact hcount.matchOne hlast
  · obtain ⟨hcount, hlast⟩ := h.count (hnext.mp hseq)
    exact (hcount.matchOne hlast).setProc_same rfl rfl rfl

theorem Tracks.resume (h : Tracks c none) (src : Nat) : Tracks (c.resume src) none := by
  rcases resume_cases c src with ⟨-, heq⟩ | ⟨-, -, heq⟩ | ⟨-, f, hfind, heq⟩ <;> rw [heq]
  · exact h
  · exact h.setProc_same rfl rfl rfl
  · obtain ⟨rfl, hnext⟩ := h.find_parked hfind
    obtain ⟨hcount, hlast⟩ := (h.unpark hfind).count (by
      simp only [MatchComm.setProc, update_self]
      exact hnext)
    exact hcount.matchOne hlast

/-! ## The requests -/

section Start

variable {r : RecvReq} {i : Nat}

def start (c : MatchComm D) (r : RecvReq) : MatchComm D :=
  { c with started := c.started + 1 }.note (.posted r)

theorem Tracks.start (h : Tracks c hand) (r : RecvReq) : Tracks (c.start r) hand :=
  Messages.note h (fun _ => id) fun _ hg => nomatch hg

theorem Tracks.append (h : Tracks c hand) (r : RecvReq) : Tracks (c.append r) hand := by
  rw [MatchComm.append]
  split_ifs
  · exact h
  · split
    · exact h
    · exact h.setProc_same rfl rfl rfl

theorem Tracks.matchUnexpected (h : Tracks c none)
    (hfind : recvReqMatchSpecificProc r (c.procs i) = some f) :
    Tracks (c.matchUnexpected r i f) none := by
  obtain ⟨before, after, hsplit, herase, -⟩ := eraseP_of_find? hfind
  rw [MatchComm.matchUnexpected]
  split_ifs
  · exact h.note (fun g => id) fun g hg => nomatch hg
  · have hf : f ∈ (c.procs i).unexpected := hsplit ▸ mem_append_right _ mem_cons_self
    have hset : Tracks (c.setProc i { c.procs i with
        unexpected := (c.procs i).unexpected.eraseP fun f => r.findsTag f.tag }) (some f) := by
      refine Tracks.setProc (unqueue h hsplit) (update_same counted i)
        (update_same cantMatch i) ?_
      rw [herase]
    refine Messages.take hset (fun g => ⟨Eq.symm, Eq.symm⟩) (fun g hg => nomatch hg) ?_
    intro q g heq
    cases heq
    obtain ⟨rfl, -, hle⟩ := unexpected_src h i f hf
    have hcounted := congrFun (setProc_field_eq (g := counted) (c := c) (i := f.src)
      (p := { c.procs f.src with
        unexpected := (c.procs f.src).unexpected.eraseP fun f => r.findsTag f.tag }) rfl) f.src
    exact Nat.le_trans hle (Nat.le_of_eq hcounted.symm)

/-- What the start of a request can do: it waits, or it is matched with the first
unexpected message of a peer that it finds. -/
theorem recvReqStart_cases (c : MatchComm D) (kind : RecvKind) (peer : Option Nat) (tag : ℤ) :
    ∃ r : RecvReq, r.index = c.started ∧ r.peer = peer ∧
      ((c.recvReqStart kind peer tag = (c.start r).append r ∧
          (peer = none ∧ (c.start r).recvReqMatchWild r = none ∨
            ∃ i, peer = some i ∧ recvReqMatchSpecificProc r (c.procs i) = none)) ∨
        ∃ i f last, (peer = none ∨ peer = some i) ∧
          recvReqMatchSpecificProc r (c.procs i) = some f ∧
          c.recvReqStart kind peer tag =
            ({ c with lastProbed := last }.start r).matchUnexpected r i f) := by
  refine ⟨{ kind := kind, peer := peer, tag := tag, index := c.started }, rfl, rfl, ?_⟩
  cases peer with
  | none =>
    simp only [recvReqStart]
    split
    · next hfind => exact .inl ⟨rfl, .inl ⟨trivial, hfind⟩⟩
    · next i f hfind =>
        obtain ⟨j, -, hj⟩ := exists_of_findSome?_eq_some hfind
        obtain ⟨g, hg, heq⟩ := map_eq_some_iff.mp hj
        cases heq
        exact .inr ⟨i, f, i, .inl trivial, hg, rfl⟩
  | some i =>
    simp only [recvReqStart]
    split
    · next hfind => exact .inl ⟨rfl, .inr ⟨i, rfl, hfind⟩⟩
    · next f hfind => exact .inr ⟨i, f, c.lastProbed, .inr rfl, hfind, rfl⟩

theorem Tracks.recvReqStart (h : Tracks c none) (kind : RecvKind) (peer : Option Nat) (tag : ℤ) :
    Tracks (c.recvReqStart kind peer tag) none := by
  obtain ⟨r, -, -, ⟨heq, -⟩ | ⟨i, f, last, -, hfind, heq⟩⟩ := recvReqStart_cases c kind peer tag <;>
    rw [heq]
  · exact (h.start r).append r
  · have hlast : Tracks { c with lastProbed := last } none := h
    exact (hlast.start r).matchUnexpected hfind

theorem sameDrops_recvReqStart (kind : RecvKind) (peer : Option Nat) (tag : ℤ) :
    SameDrops c (c.recvReqStart kind peer tag) := by
  have hstart : ∀ (c : MatchComm D) r, SameDrops c (c.start r) := by
    intro c r
    have hcount : SameDrops c { c with started := c.started + 1 } := ⟨rfl, rfl, fun _ => Iff.rfl⟩
    exact hcount.trans (.note fun g hg => nomatch hg)
  obtain ⟨r, -, -, ⟨heq, -⟩ | ⟨i, f, last, -, -, heq⟩⟩ := recvReqStart_cases c kind peer tag <;>
    rw [heq]
  · refine (hstart c r).trans ?_
    rw [MatchComm.append]
    split_ifs
    · exact ⟨rfl, rfl, fun _ => Iff.rfl⟩
    · split <;> exact ⟨rfl, rfl, fun _ => Iff.rfl⟩
  · have hlast : SameDrops c { c with lastProbed := last } := ⟨rfl, rfl, fun _ => Iff.rfl⟩
    refine (hlast.trans (hstart _ r)).trans ?_
    rw [MatchComm.matchUnexpected]
    split_ifs
    · exact .note fun g hg => nomatch hg
    · exact (SameDrops.setProc i _).trans (.note fun g hg => nomatch hg)

theorem sameDrops_recvRequestCancel (r : RecvReq) : SameDrops c (c.recvRequestCancel r) := by
  rw [recvRequestCancel]
  split
  · split_ifs
    · have hwild : SameDrops c { c with wild := c.wild.erase r } := ⟨rfl, rfl, fun _ => Iff.rfl⟩
      exact hwild.trans (.note fun g hg => nomatch hg)
    · exact ⟨rfl, rfl, fun _ => Iff.rfl⟩
  · split_ifs
    · exact (SameDrops.setProc _ _).trans (.note fun g hg => nomatch hg)
    · exact ⟨rfl, rfl, fun _ => Iff.rfl⟩

theorem Tracks.recvRequestCancel (h : Tracks c hand) (r : RecvReq) :
    Tracks (c.recvRequestCancel r) hand := by
  rw [MatchComm.recvRequestCancel]
  split
  · split_ifs
    · exact Tracks.note (c := { c with wild := c.wild.erase r }) h (fun g => id)
        fun g hg => nomatch hg
    · exact h
  · split_ifs
    · refine Tracks.note (n := .cancelled r) ?_ (fun g => id) fun g hg => nomatch hg
      exact h.setProc_same rfl rfl rfl
    · exact h

end Start

/-! ## Revocation -/

section Revoke

variable {collOnly : Bool}

/-- The communicator with the flags of the revocation. -/
def flagged (c : MatchComm D) (collOnly : Bool) : MatchComm D :=
  { c with collRevoked := true, revoked := c.revoked || !collOnly }

/-- The fragments that a revocation throws away. -/
def lost (c : MatchComm D) (collOnly : Bool) : List (Frag D) :=
  (range c.numProcs).flatMap fun i =>
    ((c.flagged collOnly).purged (c.procs i).unexpected ++
      (c.flagged collOnly).purged (c.procs i).cantMatch)

theorem revokeComm_log : (c.revokeComm collOnly).log = (c.lost collOnly).map .dropped ++ c.log := by
  simp only [revokeComm, lost, map_flatMap]
  rfl

theorem revokeComm_queue {g : CommProc D → List (Frag D)} (i : Nat)
    (hg : g = CommProc.unexpected ∨ g = CommProc.cantMatch) :
    g ((c.revokeComm collOnly).procs i) =
      if i < c.numProcs then (c.flagged collOnly).kept (g (c.procs i)) else g (c.procs i) := by
  simp only [revokeComm]
  rcases hg with rfl | rfl <;> split_ifs <;> rfl

theorem mem_lost : f ∈ c.lost collOnly ↔ ∃ i < c.numProcs,
    (f ∈ (c.procs i).unexpected ∨ f ∈ (c.procs i).cantMatch) ∧
      (c.flagged collOnly).drops f.tag = true := by
  simp only [lost, purged, mem_flatMap, mem_range, mem_append, mem_filter]
  constructor
  · rintro ⟨i, hi, ⟨hf, hd⟩ | ⟨hf, hd⟩⟩
    · exact ⟨i, hi, .inl hf, hd⟩
    · exact ⟨i, hi, .inr hf, hd⟩
  · rintro ⟨i, hi, hf | hf, hd⟩
    · exact ⟨i, hi, .inl ⟨hf, hd⟩⟩
    · exact ⟨i, hi, .inr ⟨hf, hd⟩⟩

theorem revokeComm_sublist {g : CommProc D → List (Frag D)} (i : Nat)
    (hg : g = CommProc.unexpected ∨ g = CommProc.cantMatch) :
    (g ((c.revokeComm collOnly).procs i)).Sublist (g (c.procs i)) := by
  rw [revokeComm_queue i hg]
  split_ifs
  · exact filter_sublist
  · exact List.Sublist.refl _

theorem kept_or_lost {g : CommProc D → List (Frag D)} {i : Nat}
    (hg : g = CommProc.unexpected ∨ g = CommProc.cantMatch) (hf : f ∈ g (c.procs i)) :
    f ∈ g ((c.revokeComm collOnly).procs i) ∨ f ∈ c.lost collOnly := by
  rw [revokeComm_queue i hg, mem_lost]
  by_cases hi : i < c.numProcs
  · rw [if_pos hi]
    by_cases hd : (c.flagged collOnly).drops f.tag = true
    · refine .inr ⟨i, hi, ?_, hd⟩
      rcases hg with rfl | rfl
      · exact .inl hf
      · exact .inr hf
    · exact .inl (mem_filter.mpr ⟨hf, by simpa using hd⟩)
  · rw [if_neg hi]
    exact .inl hf

theorem Tracks.mem_src (h : Tracks c hand) {g : CommProc D → List (Frag D)} {i : Nat}
    (hg : g = CommProc.unexpected ∨ g = CommProc.cantMatch) (hf : f ∈ g (c.procs i)) :
    i < c.numProcs ∧ .arrived f ∈ c.log := by
  have hsrc : f.src = i ∧ .arrived f ∈ c.log := by
    rcases hg with rfl | rfl
    · obtain ⟨h1, h2, -⟩ := unexpected_src h i f hf
      exact ⟨h1, h2⟩
    · exact parked_src h i f hf
  exact ⟨hsrc.1 ▸ (arrived_wf h f hsrc.2).1, hsrc.2⟩

theorem Tracks.not_mem_of_lost (h : Tracks c hand) {g : CommProc D → List (Frag D)}
    (hg : g = CommProc.unexpected ∨ g = CommProc.cantMatch) (hf : f ∈ c.lost collOnly) (i : Nat) :
    f ∉ g ((c.revokeComm collOnly).procs i) := by
  intro hin
  obtain ⟨-, -, -, hd⟩ := mem_lost.mp hf
  have hi := (h.mem_src hg ((revokeComm_sublist i hg).subset hin)).1
  rw [revokeComm_queue i hg, if_pos hi, kept, mem_filter] at hin
  simp [hd] at hin

theorem revokeComm_counted :
    (fun i => ((c.revokeComm collOnly).procs i).counted) = fun i => (c.procs i).counted := by
  funext i
  simp only [MatchComm.revokeComm]
  split_ifs <;> rfl

theorem Tracks.revokeComm (h : Tracks c none) (collOnly : Bool) :
    Tracks (c.revokeComm collOnly) none := by
  rw [Tracks, revokeComm_counted, revokeComm_log]
  refine purge h ?_ ?_ ?_ ?_ ?_ ?_ ?_
  · exact fun i => revokeComm_sublist i (.inr rfl)
  · exact fun i => revokeComm_sublist i (.inl rfl)
  · exact fun i f hf => kept_or_lost (.inr rfl) hf
  · exact fun i f hf => kept_or_lost (.inl rfl) hf
  · intro f hf
    obtain ⟨i, -, hin | hin, -⟩ := mem_lost.mp hf
    · exact (h.mem_src (.inl rfl) hin).2
    · exact (h.mem_src (.inr rfl) hin).2
  · exact fun f hf i => h.not_mem_of_lost (.inr rfl) hf i
  · exact fun f hf i => h.not_mem_of_lost (.inl rfl) hf i

end Revoke

/-! ## Every step -/

/-- What the network and the callers can do. -/
def Admits (c : MatchComm D) : MatchEvent D → Prop
  | .arrive f => c.Sent f
  | _ => True

/-- A fragment comes in less than 65536 before its turn. -/
def InWindow (c : MatchComm D) : MatchEvent D → Prop
  | .arrive f => f.index ≤ (c.procs f.src).counted + 2 ^ 16
  | _ => True

theorem Tracks.new (n : Nat) : Tracks (new n : MatchComm D) none := by
  refine ⟨?_, ?_, ?_, ?_, ?_, ?_, ?_, ?_, ?_, ?_, ?_, ?_, ?_, ?_, ?_⟩
  all_goals simp [MatchComm.new, CommProc.new, Gone]
  omega

theorem Tracks.step (h : Tracks c none) (ha : c.Admits e) (hw : c.InWindow e) :
    Tracks (c.step e) none := by
  cases e with
  | arrive f => exact (h.arrived ha).arrive (h.counted_lt ha) hw
  | resume src => exact h.resume src
  | post kind peer tag => exact h.recvReqStart kind peer tag
  | cancel r => exact h.recvRequestCancel r
  | revoke collOnly => exact h.revokeComm collOnly

/-- When no call is going to look at the parked fragments of a peer, the next
fragment to be counted is not among them. -/
def Idle (c : MatchComm D) : Prop :=
  ∀ i, (c.procs i).draining = 0 → ∀ f ∈ (c.procs i).cantMatch, f.index ≠ (c.procs i).counted + 1

theorem Idle.same {c' : MatchComm D} (h : Idle c) (hs : SameCounters c c') : Idle c' := by
  intro i hi f hf
  obtain ⟨h1, h2, h3⟩ := hs i
  rw [h1]
  exact h i (h3 ▸ hi) f (h2 ▸ hf)

theorem Idle.setProc (h : Idle c) {i : Nat} {p : CommProc D}
    (hp : p.draining = 0 → ∀ f ∈ p.cantMatch, f.index ≠ p.counted + 1) : Idle (c.setProc i p) := by
  intro j hj f hf
  by_cases hij : j = i
  · subst hij
    simp only [MatchComm.setProc, update_self] at hj hf ⊢
    exact hp hj f hf
  · simp only [MatchComm.setProc, update_of_ne hij] at hj hf ⊢
    exact h j hj f hf

theorem Idle.arrive (h : Idle c) (hlo : (c.procs f.src).counted < f.index)
    (hhi : f.index ≤ (c.procs f.src).counted + 2 ^ 16) : Idle (c.arrive f) := by
  rcases arrive_cases c f with ⟨-, heq⟩ | ⟨-, hseq, heq⟩ | ⟨-, -, ⟨hempty, heq⟩ | heq⟩
  · rw [heq]
    exact h
  · rw [heq]
    refine h.setProc ?_
    intro hzero g hg
    rcases mem_append.mp hg with hg | hg
    · exact h f.src hzero g hg
    · rw [mem_singleton.mp hg]
      exact fun hnext => hseq ((seq_eq_expected_iff hlo hhi).mpr hnext)
  · rw [heq]
    -- nothing is parked on the fast path
    refine (Idle.setProc h ?_).same (sameCounters_matchOne _ f)
    intro _ g hg
    rw [hempty] at hg
    cases hg
  · rw [heq]
    intro j hj g hg
    obtain ⟨h1, h2, h3⟩ := sameCounters_matchOne (c.count f.src) f j
    by_cases hij : j = f.src
    · subst hij
      simp [enter, MatchComm.setProc] at hj
    · simp only [enter, MatchComm.setProc, update_of_ne hij] at hj hg ⊢
      rw [h1]
      rw [h2] at hg
      rw [h3] at hj
      simp only [count, MatchComm.setProc, update_of_ne hij] at hj hg ⊢
      exact h j hj g hg

theorem Idle.resume (h : Idle c) (hc : Tracks c none) (src : Nat) : Idle (c.resume src) := by
  rcases resume_cases c src with ⟨-, heq⟩ | ⟨-, hfind, heq⟩ | ⟨hzero, f, -, heq⟩
  · rw [heq]
    exact h
  · rw [heq]
    refine h.setProc ?_
    intro _ g hg hnext
    obtain ⟨hsrc, -⟩ := parked_src hc src g hg
    obtain ⟨hlo, hhi⟩ := parked_window hc src g hg
    subst hsrc
    have := find?_eq_none.mp hfind g hg
    simp only [decide_eq_true_eq] at this
    exact this ((seq_eq_expected_iff hlo hhi).mpr hnext)
  · rw [heq]
    refine Idle.same ?_ (sameCounters_matchOne _ f)
    refine Idle.setProc (Idle.setProc h ?_) ?_
    · exact fun hd => absurd hd hzero
    · intro hd
      simp only [MatchComm.setProc, update_self] at hd
      exact absurd hd hzero

theorem sameCounters_recvReqStart (kind : RecvKind) (peer : Option Nat) (tag : ℤ) :
    SameCounters c (c.recvReqStart kind peer tag) := by
  have hmatch : ∀ (c : MatchComm D) r i f, SameCounters c (c.matchUnexpected r i f) := by
    intro c r i f
    rw [MatchComm.matchUnexpected]
    split_ifs
    · exact fun j => ⟨rfl, rfl, rfl⟩
    · exact SameCounters.setProc rfl rfl rfl
  have happend : ∀ (c : MatchComm D) r, SameCounters c (c.append r) := by
    intro c r
    rw [MatchComm.append]
    split_ifs
    · exact fun j => ⟨rfl, rfl, rfl⟩
    · split
      · exact fun j => ⟨rfl, rfl, rfl⟩
      · exact SameCounters.setProc rfl rfl rfl
  obtain ⟨r, -, -, ⟨heq, -⟩ | ⟨i, f, last, -, -, heq⟩⟩ := recvReqStart_cases c kind peer tag <;>
    rw [heq]
  · exact happend (c.start r) r
  · exact hmatch ({ c with lastProbed := last }.start r) r i f

theorem sameCounters_recvRequestCancel (r : RecvReq) : SameCounters c (c.recvRequestCancel r) := by
  rw [recvRequestCancel]
  split
  · split_ifs <;> exact fun j => ⟨rfl, rfl, rfl⟩
  · split_ifs
    · exact SameCounters.setProc (c := c) rfl rfl rfl
    · exact fun j => ⟨rfl, rfl, rfl⟩

theorem Idle.revokeComm (h : Idle c) (collOnly : Bool) : Idle (c.revokeComm collOnly) := by
  intro i hi f hf
  have hsub : f ∈ (c.procs i).cantMatch := (revokeComm_sublist i (.inr rfl)).subset hf
  have hsame : ((c.revokeComm collOnly).procs i).draining = (c.procs i).draining ∧
      ((c.revokeComm collOnly).procs i).counted = (c.procs i).counted := by
    simp only [MatchComm.revokeComm]
    split_ifs <;> exact ⟨rfl, rfl⟩
  rw [hsame.2]
  exact h i (hsame.1 ▸ hi) f hsub

theorem Idle.step (h : Idle c) (hc : Tracks c none) (ha : c.Admits e) (hw : c.InWindow e) :
    Idle (c.step e) := by
  cases e with
  | arrive f => exact Idle.arrive (c := c.note (.arrived f)) h (hc.counted_lt ha) hw
  | resume src => exact h.resume hc src
  | post kind peer tag => exact h.same (sameCounters_recvReqStart kind peer tag)
  | cancel r => exact h.same (sameCounters_recvRequestCancel r)
  | revoke collOnly => exact h.revokeComm collOnly

end MatchComm

end Ulfm
