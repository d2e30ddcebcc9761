import Ulfm.Tuned.Allgather

/-!
# The rounds of the allgather algorithms

Each algorithm follows a schedule that says which blocks a process has before a round. The ring
passes on the block that came last, recursive doubling joins aligned groups of blocks, and the
neighbour exchange passes pairs of blocks to alternating sides.
-/

namespace Ulfm

open Script

variable {E : Type}

theorem int32Count_of_lt {count : ℕ} (h : count < 2 ^ 31) : int32Count count = count := by
  have hmod : count % 2 ^ 32 = count := Nat.mod_eq_of_lt (h.trans (by decide))
  rw [int32Count, hmod, if_pos h]

theorem int32Count_neg {count : ℕ} (h : 2 ^ 31 ≤ count) (hlt : count < 2 ^ 32) :
    int32Count count < 0 := by
  rw [int32Count, Nat.mod_eq_of_lt hlt, if_neg h.not_gt]
  omega

section Sendrecv

variable {rank dest source soff scount roff rcount : ℕ} {buf : Buf (Option E)} {msg msg' : List E}

theorem follows_tunedSendrecv (hne : dest ≠ rank) (hscount : scount < 2 ^ 31)
    (hrcount : rcount < 2 ^ 31) (hread : readAll (slice buf soff scount) = some msg)
    (hlength : msg'.length ≤ rcount) :
    Follows (tunedSendrecv rank dest source soff scount roff rcount buf)
      (roundEvents (some (dest, msg)) (some (source, msg'))) (blit buf roff (msg'.map some)) := by
  have hcounts : ¬(int32Count scount < 0 ∨ int32Count rcount < 0) := by
    rw [int32Count_of_lt hscount, int32Count_of_lt hrcount]
    exact not_or.2 ⟨(Int.natCast_nonneg _).not_gt, (Int.natCast_nonneg _).not_gt⟩
  rw [tunedSendrecv, if_neg hcounts, int32Count_of_lt hscount, int32Count_of_lt hrcount,
    Int.toNat_natCast, Int.toNat_natCast]
  dsimp only
  rw [if_neg fun h => hne h.1, hread]
  refine follows_postFor.bind_cons (follows_sendTo.bind_cons ?_)
  refine follows_waitFor.bind_pure ?_
  rw [if_neg hlength.not_gt]
  exact follows_pure _

theorem tunedSendrecv_fault (h : 2 ^ 31 ≤ scount) (hlt : scount < 2 ^ 32) :
    tunedSendrecv rank dest source soff scount roff rcount buf = fault := by
  rw [tunedSendrecv, if_pos (Or.inl (int32Count_neg h hlt))]

end Sendrecv

theorem Schedule.Valid.follows_round {S : Schedule} {n T p t rc : ℕ} (hS : S.Valid n T)
    (hp : p < n) (ht : t < T) {data : ℕ → ℕ → E} (hne : S.dest p t ≠ p)
    (hcount : S.count t * rc < 2 ^ 31) {buf : Buf (Option E)}
    (h : Laid rc data (S.place p t) buf) :
    ∃ buf', Follows (tunedSendrecv p (S.dest p t) (S.source p t) (S.first p t * rc)
      (S.count t * rc) (S.into p t * rc) (S.count t * rc) buf) (S.events rc data p t) buf' ∧
      Laid rc data (S.place p (t + 1)) buf' :=
  ⟨_, follows_tunedSendrecv hne hcount hcount (hS.send hp ht h) length_blocksMsg.le,
    hS.receive hp ht h⟩

/-- A call of `MPI_Allgather` by all the processes. -/
structure AllgatherCall (E : Type) where
  size : ℕ
  sizePos : 0 < size
  rcount : ℕ
  rcountInt : rcount < 2 ^ 31
  layout : Layout
  /-- The processes that give `MPI_IN_PLACE`. -/
  inPlace : ℕ → Bool
  /-- What the processes contribute. -/
  data : ℕ → ℕ → E

namespace AllgatherCall

variable (r : AllgatherCall E)

/-- Nothing is in the receive buffer, but for the own block with `MPI_IN_PLACE`. -/
def args (rank : ℕ) : AllgatherArgs E where
  rank := rank
  size := r.size
  rcount := r.rcount
  layout := r.layout
  sbuf := if r.inPlace rank then none else some (slice (r.data rank) 0 r.rcount)
  rbuf j :=
    if r.inPlace rank ∧ rank * r.rcount ≤ j ∧ j < rank * r.rcount + r.rcount then
      some (r.data rank (j - rank * r.rcount))
    else none

/-- In every run all the processes return, and the block `i` of each receive buffer is the
contribution of the process `i`. -/
def Correct (prog : ℕ → Script (List E) (Buf (Option E))) : Prop :=
  ∃ out, Computes r.size prog out ∧
    ∀ p < r.size, Laid r.rcount r.data (fun s => if s < r.size then some s else none) (out p)

variable {r} {p t : ℕ}

theorem slice_eq_blocksMsg (b : ℕ) :
    slice (r.data b) 0 r.rcount = blocksMsg r.rcount r.data (fun _ => b) 1 := by
  rw [slice, List.range'_eq_map_range, List.map_map, blocksMsg, Nat.one_mul]
  apply List.map_congr_left
  intro j hj
  rw [Nat.mod_eq_of_lt (List.mem_range.1 hj), Function.comp_apply, Nat.zero_add]

theorem laid_none (buf : Buf (Option E)) : Laid r.rcount r.data (fun _ => none) buf := nofun

theorem laid_ownBlock : Laid r.rcount r.data (fun s => if s = p then some p else none)
    (r.args p).ownBlock := by
  rw [AllgatherArgs.ownBlock]
  cases hplace : r.inPlace p with
  | true =>
    intro s b hb k hk
    dsimp only at hb
    split_ifs at hb with hs
    obtain rfl := Option.some.inj hb
    subst hs
    simp only [args, hplace, if_true, true_and]
    rw [if_pos ⟨Nat.le_add_right _ _, Nat.add_lt_add_left hk _⟩, Nat.add_sub_cancel_left]
  | false =>
    simp only [args, hplace, if_false, Bool.false_eq_true, false_and]
    have hnone : Laid r.rcount r.data (fun _ => none) fun _ => none := laid_none _
    have hwrite := @Laid.write _ r.rcount p 1 r.data _ (fun _ => p) _ hnone
    rw [← slice_eq_blocksMsg] at hwrite
    intro s b hb
    refine hwrite s b ?_
    dsimp only at hb ⊢
    split_ifs at hb with hs
    rw [if_pos (by omega), hb]

theorem correct_of_schedule {S : Schedule} {T : ℕ} (hS : S.Valid r.size T)
    {prog : ℕ → Script (List E) (Buf (Option E))}
    (hlast : ∀ p < r.size, ∀ s < r.size, S.place p T s = some s)
    (hprog : ∀ p < r.size, ∃ buf, Follows (prog p)
      ((List.range' 0 T).flatMap (S.events r.rcount r.data p)) buf ∧
        Laid r.rcount r.data (S.place p T) buf) : r.Correct prog := by
  apply hS.computes
  intro p hp
  obtain ⟨buf, hfollows, hbuf⟩ := hprog p hp
  refine ⟨buf, hbuf.mono fun s b hb => ?_, hfollows⟩
  split_ifs at hb with hs
  rw [hlast p hp s hs, hb]

theorem not_correct_of_neverReturns {prog : ℕ → Script (List E) (Buf (Option E))}
    (hp : p < r.size) (h : NeverReturns (prog p)) : ¬r.Correct prog := by
  rintro ⟨out, hout, -⟩
  exact not_computes_of_neverReturns hp h hout

end AllgatherCall

end Ulfm
