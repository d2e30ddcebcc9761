import Ulfm.Pml.Definitions
import Ulfm.Foundation.Trace

/-!
# The matching order

`Note.Ordered` is the order that MPI asks of a match, said of the log of a run: the
earlier messages of the sender that the request accepts are gone, and the earlier
requests that accept the message are completed. The code compares the 16 low bits
of the number of a message and the 32 low bits of the number of a request, so it
keeps this order as long as no message comes in 65536 or more before its turn and
no request waits while the counter of the requests wraps around (`InRange`).
-/

namespace Ulfm

open List Option

variable {D : Type}

/-- What it means for a receive to match a message. -/
def RecvReq.Accepts (r : RecvReq) (f : Frag D) : Prop :=
  (r.peer = none ∨ r.peer = some f.src) ∧ (r.tag = f.tag ∨ (r.tag = ompiAnyTag ∧ 0 ≤ f.tag))

/-- The entry completes or cancels the request. -/
def Note.Completes (r : RecvReq) : Note D → Prop
  | .received q _ => q = r
  | .probed q _ => q = r
  | .cancelled q => q = r
  | _ => False

/-- The entry gives the message to a request or throws it away. -/
def Note.Takes (f : Frag D) : Note D → Prop
  | .received _ g => g = f
  | .dropped g => g = f
  | _ => False

/-- The request has been completed or cancelled. -/
def Completed (r : RecvReq) (log : List (Note D)) : Prop := ∃ n ∈ log, n.Completes r

/-- The message has been given to a request or thrown away. -/
def Gone (f : Frag D) (log : List (Note D)) : Prop := ∃ n ∈ log, n.Takes f

/-- The match of a request and a message, given what has happened before it. -/
structure WellMatched (r : RecvReq) (f : Frag D) (earlier : List (Note D)) : Prop where
  accepts : r.Accepts f
  arrived : .arrived f ∈ earlier
  open_request : ¬ Completed r earlier
  open_message : ¬ Gone f earlier
  /-- The messages of the sender are taken in the order of their sends. -/
  send_order : ∀ k, 0 < k → k < f.index → ∃ g, .arrived g ∈ earlier ∧ g.src = f.src ∧
    g.index = k ∧ (r.Accepts g → Gone g earlier)
  /-- The message is given to the earliest request. -/
  post_order : ∀ q, .posted q ∈ earlier → q.index < r.index → q.waits = true → q.Accepts f →
    Completed q earlier

def Note.Ordered : Note D → List (Note D) → Prop
  | .received r f, earlier => WellMatched r f earlier
  | .probed r f, earlier => WellMatched r f earlier
  | _, _ => True

/-! ## The search of the posted queues -/

theorem sequence_lt_iff {r q : RecvReq} (h : r.index / 2 ^ 32 = q.index / 2 ^ 32) :
    r.sequence < q.sequence ↔ r.index < q.index := by
  simp only [RecvReq.sequence]
  omega

theorem sequence_eq_iff {r q : RecvReq} (h : r.index / 2 ^ 32 = q.index / 2 ^ 32) :
    r.sequence = q.sequence ↔ r.index = q.index := by
  simp only [RecvReq.sequence]
  omega

/-- The queue of the requests from any source and the queue of those from one peer. -/
structure Queued (wild specific : List RecvReq) : Prop where
  wild_sorted : wild.Pairwise fun r q => r.index < q.index
  specific_sorted : specific.Pairwise fun r q => r.index < q.index
  comparable : ∀ r ∈ wild ++ specific, ∀ q ∈ wild ++ specific, r.index / 2 ^ 32 = q.index / 2 ^ 32
  distinct : ∀ r ∈ wild, ∀ q ∈ specific, r.index ≠ q.index

namespace Queued

variable {w s : RecvReq} {wild specific : List RecvReq}

theorem tail_left (h : Queued (w :: wild) specific) : Queued wild specific where
  wild_sorted := h.wild_sorted.of_cons
  specific_sorted := h.specific_sorted
  comparable r hr q hq := h.comparable r (mem_cons_of_mem w hr) q (mem_cons_of_mem w hq)
  distinct r hr := h.distinct r (mem_cons_of_mem w hr)

theorem tail_right (h : Queued wild (s :: specific)) : Queued wild specific where
  wild_sorted := h.wild_sorted
  specific_sorted := h.specific_sorted.of_cons
  comparable r hr q hq := by
    refine h.comparable r ?_ q ?_
    · rcases mem_append.mp hr with hw | hs
      · exact mem_append_left _ hw
      · exact mem_append_right _ (mem_cons_of_mem s hs)
    · rcases mem_append.mp hq with hw | hs
      · exact mem_append_left _ hw
      · exact mem_append_right _ (mem_cons_of_mem s hs)
  distinct r hr q hq := h.distinct r hr q (mem_cons_of_mem s hq)

theorem heads (h : Queued (w :: wild) (s :: specific)) :
    w.sequence ≠ s.sequence ∧ (w.sequence < s.sequence ↔ w.index < s.index) := by
  have hs : s ∈ (w :: wild) ++ s :: specific := mem_append_right _ mem_cons_self
  have hepoch := h.comparable w mem_cons_self s hs
  refine ⟨?_, sequence_lt_iff hepoch⟩
  intro heq
  exact h.distinct w mem_cons_self s mem_cons_self ((sequence_eq_iff hepoch).mp heq)

end Queued

/-- `r` is the earliest request of the two queues that takes the tag, and `ws` and
`ss` are the queues without it. -/
structure EarliestOf (tag : ℤ) (wild specific : List RecvReq) (r : RecvReq)
    (ws ss : List RecvReq) : Prop where
  takes : r.takesTag tag = true
  least_wild : ∀ q ∈ wild, q.takesTag tag = true → r.index ≤ q.index
  least_specific : ∀ q ∈ specific, q.takesTag tag = true → r.index ≤ q.index
  removed : (r ∈ wild ∧ ws = wild.erase r ∧ ss = specific) ∨
    (r ∈ specific ∧ ws = wild ∧ ss = specific.erase r)

namespace EarliestOf

variable {tag : ℤ} {w s r : RecvReq} {wild specific ws ss : List RecvReq}

theorem cons_left (h : EarliestOf tag wild specific r ws ss) (hw : ¬ w.takesTag tag = true) :
    EarliestOf tag (w :: wild) specific r (w :: ws) ss := by
  have hne : r ≠ w := fun heq => hw (heq ▸ h.takes)
  refine ⟨h.takes, ?_, h.least_specific, ?_⟩
  · intro q hq hqt
    rcases mem_cons.mp hq with rfl | hq
    · exact absurd hqt hw
    · exact h.least_wild q hq hqt
  · rcases h.removed with ⟨hmem, hws, hss⟩ | ⟨hmem, hws, hss⟩
    · refine .inl ⟨mem_cons_of_mem w hmem, ?_, hss⟩
      rw [erase_cons_tail (by simpa using hne.symm), hws]
    · exact .inr ⟨hmem, by rw [hws], hss⟩

theorem cons_right (h : EarliestOf tag wild specific r ws ss) (hs : ¬ s.takesTag tag = true) :
    EarliestOf tag wild (s :: specific) r ws (s :: ss) := by
  have hne : r ≠ s := fun heq => hs (heq ▸ h.takes)
  refine ⟨h.takes, h.least_wild, ?_, ?_⟩
  · intro q hq hqt
    rcases mem_cons.mp hq with rfl | hq
    · exact absurd hqt hs
    · exact h.least_specific q hq hqt
  · rcases h.removed with ⟨hmem, hws, hss⟩ | ⟨hmem, hws, hss⟩
    · exact .inl ⟨hmem, hws, by rw [hss]⟩
    · refine .inr ⟨mem_cons_of_mem s hmem, hws, ?_⟩
      rw [erase_cons_tail (by simpa using hne.symm), hss]

theorem head_left (hw : w.takesTag tag = true) (hsorted : ∀ q ∈ wild, w.index < q.index)
    (hleast : ∀ q ∈ specific, w.index < q.index) :
    EarliestOf tag (w :: wild) specific w wild specific := by
  refine ⟨hw, ?_, ?_, .inl ⟨mem_cons_self, by simp, rfl⟩⟩
  · intro q hq _
    rcases mem_cons.mp hq with rfl | hq
    · exact Nat.le_refl _
    · exact Nat.le_of_lt (hsorted q hq)
  · intro q hq _
    exact Nat.le_of_lt (hleast q hq)

theorem head_right (hs : s.takesTag tag = true) (hsorted : ∀ q ∈ specific, s.index < q.index)
    (hleast : ∀ q ∈ wild, s.index < q.index) :
    EarliestOf tag wild (s :: specific) s wild specific := by
  refine ⟨hs, ?_, ?_, .inr ⟨mem_cons_self, rfl, by simp⟩⟩
  · intro q hq _
    exact Nat.le_of_lt (hleast q hq)
  · intro q hq _
    rcases mem_cons.mp hq with rfl | hq
    · exact Nat.le_refl _
    · exact Nat.le_of_lt (hsorted q hq)

end EarliestOf

theorem matchIncoming_spec (tag : ℤ) {wild specific : List RecvReq} (h : Queued wild specific) :
    match matchIncoming tag wild specific with
    | none => ∀ q ∈ wild ++ specific, ¬ q.takesTag tag = true
    | some (r, ws, ss) => EarliestOf tag wild specific r ws ss := by
  fun_induction matchIncoming tag wild specific with
  | case1 => simp
  | case2 w wild htakes =>
    exact .head_left htakes (pairwise_cons.mp h.wild_sorted).1 (by simp)
  | case3 w wild htakes ih =>
    have hrec := ih h.tail_left
    cases hm : matchIncoming tag wild [] with
    | none =>
      simp only [hm] at hrec
      simpa [htakes] using hrec
    | some found =>
      simp only [hm] at hrec
      exact hrec.cons_left htakes
  | case4 s specific htakes =>
    exact .head_right htakes (pairwise_cons.mp h.specific_sorted).1 (by simp)
  | case5 s specific htakes ih =>
    have hrec := ih h.tail_right
    cases hm : matchIncoming tag [] specific with
    | none =>
      simp only [hm] at hrec
      simpa [htakes] using hrec
    | some found =>
      simp only [hm] at hrec
      exact hrec.cons_right htakes
  | case6 w wild s specific heq => exact absurd heq h.heads.1
  | case7 w wild s specific hne hlt htakes =>
    have hfirst : w.index < s.index := h.heads.2.mp hlt
    refine .head_left htakes (pairwise_cons.mp h.wild_sorted).1 ?_
    intro q hq
    rcases mem_cons.mp hq with rfl | hq
    · exact hfirst
    · exact Nat.lt_trans hfirst ((pairwise_cons.mp h.specific_sorted).1 q hq)
  | case8 w wild s specific hne hlt htakes ih =>
    have hrec := ih h.tail_left
    cases hm : matchIncoming tag wild (s :: specific) with
    | none =>
      simp only [hm] at hrec
      simpa [htakes] using hrec
    | some found =>
      simp only [hm] at hrec
      exact hrec.cons_left htakes
  | case9 w wild s specific hne hlt htakes =>
    have hdistinct := h.distinct w mem_cons_self s mem_cons_self
    have hfirst : s.index < w.index := by
      have := h.heads.2
      omega
    refine .head_right htakes (pairwise_cons.mp h.specific_sorted).1 ?_
    intro q hq
    rcases mem_cons.mp hq with rfl | hq
    · exact hfirst
    · exact Nat.lt_trans hfirst ((pairwise_cons.mp h.wild_sorted).1 q hq)
  | case10 w wild s specific hne hlt htakes ih =>
    have hrec := ih h.tail_right
    cases hm : matchIncoming tag (w :: wild) specific with
    | none =>
      simp only [hm] at hrec
      simp only [map_none]
      intro q hq
      rcases mem_append.mp hq with hq | hq
      · exact hrec q (mem_append_left _ hq)
      · rcases mem_cons.mp hq with rfl | hq
        · exact htakes
        · exact hrec q (mem_append_right _ hq)
    | some found =>
      simp only [hm] at hrec
      exact hrec.cons_right htakes

end Ulfm
