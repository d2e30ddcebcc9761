import Mathlib.Data.List.GetD
import Ulfm.Eta.Rounds

/-!
# Agreement on the value

All the processes that return hold the same value. The array `in` is indexed with the
size of a structure that has room for four bytes, while the messages are stored one
after the other in their real size: for a value of another size a process reads parts
of several messages as one.
-/

namespace Ulfm

open List

namespace Eta

variable {np : ℕ} {cfg : Config np} {w : World np} {knows marks : Fin np → ℕ → Prop}

theorem Inv.holds_of_returned (h : Inv cfg w knows marks) {p q x : Fin np}
    (hp : (w.procs p).phase = .returned) (hq : (w.procs q).phase = .returned)
    (hx : (w.exchange knows).Holds (contributes x) ((w.procs q).round + 1) q) :
    (w.exchange knows).Holds (contributes x) ((w.procs p).round + 1) p := by
  by_contra hnot
  have hstart : ∀ i s, contributes x i s → s < 1 := fun i s hc => hc.2.le.trans_lt Nat.one_pos
  have hslack := Exchange.slack_of_start (E := w.exchange knows) hstart
  obtain ⟨k, -, hk⟩ := hx.exists_first
  have hkn : k ≤ np := by simpa using hk.le_card hstart
  have hpq : p ≠ q := by
    rintro rfl
    exact hnot hx
  obtain ⟨hkp, hlate, htold⟩ := h.missed hslack hp hk hkn hnot
  rcases (h.taking p q).returned hp hpq with ht | hc | hall
  · exact htold ht
  · rcases (h.taking p q).missed hc hq with ht | ⟨s, hst, -, hknows⟩ | hall
    · exact htold ht
    · exact hnot ((h.sound.holds_of_knows hslack hknows hk (by omega)).mono (by omega))
    · omega
  · omega

theorem Inv.holds_alive (h : Inv cfg w knows marks) {p x : Fin np}
    (hp : (w.procs p).phase = .returned) (hx : w.dead x = false) :
    (w.exchange knows).Holds (contributes x) ((w.procs p).round + 1) p := by
  have hpos := (h.sending p).round_pos (by rw [hp]; exact fun hc => (nomatch hc))
  have hself : (w.exchange knows).Holds (contributes x) 1 x := .inr (.inl ⟨rfl, rfl⟩)
  rcases eq_or_ne p x with rfl | hne
  · exact hself.mono (Nat.le_add_left 1 _)
  · have htaken : 1 ≤ w.taken p x := by
      rcases (h.taking p x).returned hp hne with ht | hc | hall
      · obtain ⟨s, hs, hknows⟩ := (h.taking p x).told.1 ht
        have := h.sound.two_le x s hknows
        omega
      · rw [(h.taking p x).crashed hc] at hx
        cases hx
      · omega
    exact (hself.forward htaken).mono (by omega)

/-- For a value of four bytes, or a single process, and an operation that does not depend on
order and repetition, any two processes that return have the same value, and this value is the
reduction of contributions that include those of all the processes that are alive. -/
theorem eta_value_agreement (cfg : Config np) (hsize : cfg.valueSize = 4 ∨ np ≤ 1)
    (hop : SemilatticeOn (fun bs => bs.length = cfg.valueSize) cfg.reduce)
    (events : List (Event np)) (hw : events.foldl (World.step cfg) (World.init np) = w) :
    (∀ p q, (w.procs p).phase = .returned → (w.procs q).phase = .returned →
      (w.procs p).out.estValue = (w.procs q).out.estValue) ∧
    ∀ p, (w.procs p).phase = .returned → ∃ contributors : List (Fin np),
      (∀ i, w.dead i = false → i ∈ contributors) ∧
      reduceList cfg.reduce (contributors.map cfg.contrib) = some (w.procs p).out.estValue := by
  obtain ⟨knows, marks, h⟩ := inv_run hsize hop events
  rw [hw] at h
  have hvalue : ∀ p, (w.procs p).phase = .returned → ∃ l : List (Fin np),
      (∀ x, x ∈ l ↔ (w.exchange knows).Holds (contributes x) ((w.procs p).round + 1) p) ∧
      reduceList cfg.reduce (l.map cfg.contrib) = some (w.procs p).out.estValue :=
    fun p hp => ((h.sending p).out (by rw [hp]; exact fun hc => (nomatch hc))).value
  refine ⟨fun p q hp hq => ?_, fun p hp => ?_⟩
  · obtain ⟨l, hl, hredl⟩ := hvalue p hp
    obtain ⟨k, hk, hredk⟩ := hvalue q hq
    have hmem : ∀ x, x ∈ l ↔ x ∈ k := by
      intro x
      rw [hl x, hk x]
      exact ⟨h.holds_of_returned hq hp, h.holds_of_returned hp hq⟩
    have hlength : ∀ bs ∈ l.map cfg.contrib, bs.length = cfg.valueSize := by
      intro bs hbs
      obtain ⟨x, -, rfl⟩ := mem_map.1 hbs
      exact cfg.length_contrib x
    have hcongr : reduceList cfg.reduce (l.map cfg.contrib) =
        reduceList cfg.reduce (k.map cfg.contrib) := by
      refine hop.reduceList_congr hlength fun bs => ?_
      simp only [mem_map, hmem]
    rw [hredl, hredk] at hcongr
    exact Option.some.inj hcongr
  · obtain ⟨l, hl, hred⟩ := hvalue p hp
    exact ⟨l, fun i hi => (hl i).2 (h.holds_alive hp hi), hred⟩

section Runs

def allSucceed (_ : Fin np) : Completion := .success

/-- Two processes that combine values with `MPI_BAND`. -/
def bandPair (size : ℕ) (a b : UInt8) : Config 2 where
  valueSize := size
  contrib i := replicate size (if i = 0 then a else b)
  length_contrib _ := length_replicate
  reduce := bandBytes 0 0

/-- A round of two processes in which nothing fails. -/
def pairRound : List (Event 2) :=
  [.post 0, .post 0, .post 1, .post 1, .waitAll 0 allSucceed allSucceed,
    .waitAll 1 allSucceed allSucceed]

/-- Three rounds, after which both processes return. -/
def pairEvents : List (Event 2) := [.start 0 [], .start 1 []] ++ pairRound ++ pairRound ++ pairRound

theorem eta_value_agreement_pair :
    ((pairEvents.foldl (World.step (bandPair 4 15 60)) (World.init 2)).procs 0).out.estValue =
      ((pairEvents.foldl (World.step (bandPair 4 15 60)) (World.init 2)).procs 1).out.estValue ∧
    ∃ contributors : List (Fin 2),
      (∀ i, (pairEvents.foldl (World.step (bandPair 4 15 60)) (World.init 2)).dead i = false →
        i ∈ contributors) ∧
      reduceList (bandBytes 0 0) (contributors.map (bandPair 4 15 60).contrib) =
        some ((pairEvents.foldl (World.step (bandPair 4 15 60))
          (World.init 2)).procs 0).out.estValue := by
  have h0 : ((pairEvents.foldl (World.step (bandPair 4 15 60)) (World.init 2)).procs 0).phase =
      .returned := by decide +kernel
  have h1 : ((pairEvents.foldl (World.step (bandPair 4 15 60)) (World.init 2)).procs 1).phase =
      .returned := by decide +kernel
  obtain ⟨hsame, hred⟩ := eta_value_agreement (bandPair 4 15 60) (.inl rfl)
    (bandBytes_semilatticeOn 0 0 4) pairEvents rfl
  exact ⟨hsame 0 1 h0 h1, hred 0 h0⟩

/-- With a value of eight bytes, all of whose bits are set at both processes, the two
processes return two different values, and none is the reduction of contributions. -/
theorem eight_bytes_disagree : SemilatticeOn (fun bs => bs.length = (bandPair 8 255 255).valueSize)
      (bandPair 8 255 255).reduce ∧
    ((pairEvents.foldl (World.step (bandPair 8 255 255)) (World.init 2)).procs 0).phase =
      .returned ∧
    ((pairEvents.foldl (World.step (bandPair 8 255 255)) (World.init 2)).procs 1).phase =
      .returned ∧
    ((pairEvents.foldl (World.step (bandPair 8 255 255)) (World.init 2)).procs 0).out.estValue =
      [0, 0, 0, 0, 0, 0, 0, 0] ∧
    ((pairEvents.foldl (World.step (bandPair 8 255 255)) (World.init 2)).procs 1).out.estValue =
      [0, 0, 0, 0, 255, 255, 255, 255] ∧
    reduceList (bandPair 8 255 255).reduce ([0, 1].map (bandPair 8 255 255).contrib) =
      some [255, 255, 255, 255, 255, 255, 255, 255] :=
  ⟨bandBytes_semilatticeOn 0 0 8, by decide +kernel, by decide +kernel, by decide +kernel,
    by decide +kernel, by decide +kernel⟩

end Runs

/-! ### The places of the messages -/

section Slots

theorem knows_ofBytes_zero_cons (bs : List UInt8) : (Msg.ofBytes (0 :: bs)).knows ≠ 1#32 := by
  intro h
  have hnat := congrArg BitVec.toNat h
  simp [Msg.ofBytes, readWord, decodeLE] at hnat
  omega

variable {cfg : Config np}

theorem Proc.storeOver_of_none {arrived : Fin np → Option Msg} {l : List (Fin np)}
    (h : ∀ i ∈ l, arrived i = none) (p : Proc np) : Proc.storeOver cfg arrived l p = p := by
  induction l generalizing p with
  | nil => rfl
  | cons i l ih =>
    have hcons : Proc.storeOver cfg arrived (i :: l) p = Proc.storeOver cfg arrived l p := by
      simp only [Proc.storeOver, foldl_cons, h i mem_cons_self]
    rw [hcons]
    exact ih (fun j hj => h j (mem_cons_of_mem _ hj)) p

theorem Proc.storeAll_single (p : Proc np) (i : Fin np) (m : Msg) :
    p.storeAll cfg (fun j => if j = i then some m else none) = p.store cfg i m := by
  obtain ⟨l₁, l₂, hl⟩ := append_of_mem (mem_finRange i)
  have hnodup : (l₁ ++ i :: l₂).Nodup := hl ▸ nodup_finRange np
  have hnone : ∀ j, j ≠ i → (if j = i then some m else none) = none := fun j hj => if_neg hj
  have h₁ : ∀ j ∈ l₁, (if j = i then some m else none) = none := fun j hj =>
    hnone j fun e => (nodup_append.1 hnodup).2.2 j hj i (by simp) e
  have h₂ : ∀ j ∈ l₂, (if j = i then some m else none) = none := fun j hj =>
    hnone j fun e => (nodup_cons.1 (nodup_append.1 hnodup).2.1).1 (e ▸ hj)
  have hsplit : p.storeAll cfg (fun j => if j = i then some m else none) =
      Proc.storeOver cfg (fun j => if j = i then some m else none) l₂
        ((Proc.storeOver cfg (fun j => if j = i then some m else none) l₁ p).store cfg i m) := by
    change Proc.storeOver cfg _ (finRange np) p = _
    rw [hl]
    simp only [Proc.storeOver, foldl_append, foldl_cons, if_true]
  rw [hsplit, Proc.storeOver_of_none h₁, Proc.storeOver_of_none h₂]

/-- A process that has received nothing else reads a zero where the first field of
the message of rank `1` should be, unless both strides are the same. -/
theorem Proc.inAt_store_one {p : Proc np} {i : Fin np} (hp : p.inBytes = fun _ => 0)
    (hi : (i : ℕ) = 1) (hsize : cfg.valueSize ≠ 4) :
    (p.store cfg i ⟨1#32, 0#32, List.replicate cfg.valueSize 0⟩).inAt cfg i ≠
      ⟨1#32, 0#32, List.replicate cfg.valueSize 0⟩ := by
  set m : Msg := ⟨1#32, 0#32, replicate cfg.valueSize 0⟩ with hm
  have hbytes : m.bytes = 1 :: replicate (7 + cfg.valueSize) 0 := by
    simp only [hm, Msg.bytes]
    rw [show wordBytes 1#32 = [1, 0, 0, 0] by decide, show wordBytes 0#32 = [0, 0, 0, 0] by decide,
      replicate_add]
    rfl
  have hzero : (p.store cfg i m).inBytes 12 = 0 := by
    simp only [Proc.store, hp, hi, Nat.one_mul]
    split
    · next hin =>
        obtain ⟨k, hk⟩ : ∃ k, 12 - cfg.msgSize = k + 1 := by
          refine ⟨12 - cfg.msgSize - 1, ?_⟩
          rw [Config.msgSize, sizeofMsg] at hin ⊢
          omega
        rw [hk, hbytes, getD_cons_succ]
        by_cases hlt : k < (replicate (7 + cfg.valueSize) (0 : UInt8)).length
        · rw [getD_eq_getElem _ _ hlt, getElem_replicate]
        · rw [getD_eq_default _ _ (not_lt.1 hlt)]
    · rfl
  have hrange : range cfg.msgSize = 0 :: (range (7 + cfg.valueSize)).map (· + 1) := by
    rw [Config.msgSize, sizeofMsg, show 12 - 4 + cfg.valueSize = 7 + cfg.valueSize + 1 by omega,
      range_succ_eq_map]
  intro heq
  have hknows := congrArg Msg.knows heq
  rw [Proc.inAt, hrange, map_cons] at hknows
  simp only [hi, sizeofMsg, Nat.one_mul, Nat.add_zero, hzero] at hknows
  exact knows_ofBytes_zero_cons _ hknows

/-- After a call of `ompi_request_wait_all`, the loop over the completed requests
reads of every peer the message that was received from it, for all processes, all
contents of the array and all messages, if and only if the value has four bytes or
there is no peer. -/
theorem eta_message_slots_iff (cfg : Config np) :
    (∀ (me : Fin np) (p : Proc np) (arrived : Fin np → Option Msg), arrived me = none →
      (∀ i m, arrived i = some m → m.estValue.length = cfg.valueSize) →
      ∀ i m, arrived i = some m → (p.storeAll cfg arrived).inAt cfg i = m) ↔
    cfg.valueSize = 4 ∨ np ≤ 1 := by
  constructor
  · intro h
    by_contra hcon
    obtain ⟨hsize, hnp⟩ := not_or.1 hcon
    have hnp : 1 < np := not_le.1 hnp
    have hne : (⟨0, by omega⟩ : Fin np) ≠ ⟨1, hnp⟩ := by simp
    -- process 0 has received nothing before, and now a message of process 1
    set m : Msg := ⟨1#32, 0#32, replicate cfg.valueSize 0⟩ with hm
    have hread := h ⟨0, by omega⟩ (Proc.start cfg ⟨0, by omega⟩ [])
      (fun j => if j = ⟨1, hnp⟩ then some m else none) (if_neg hne) (fun i m' hi => ?_)
      ⟨1, hnp⟩ m (if_pos rfl)
    · rw [Proc.storeAll_single] at hread
      exact Proc.inAt_store_one rfl rfl hsize hread
    · split at hi
      · cases hi
        simp [hm]
      · cases hi
  · rintro (hsize | hnp) me p arrived hme hlen i m hi
    · exact Proc.inAt_storeAll hsize (fun i m hi => (hlen i m hi).trans hsize) hi
    · have hfin : i = me := Fin.ext (by omega)
      rw [hfin, hme] at hi
      cases hi

theorem eta_message_slots_iff_four_bytes :
    ((Proc.start (bandPair 4 15 60) 0 []).storeAll (bandPair 4 15 60)
        fun j => if j = 1 then some ⟨0#32, 0#32, [60, 60, 60, 60]⟩ else none).inAt
      (bandPair 4 15 60) 1 = ⟨0#32, 0#32, [60, 60, 60, 60]⟩ := by
  refine (eta_message_slots_iff (bandPair 4 15 60)).2 (.inl rfl) 0 _ _ rfl ?_ 1 _ rfl
  decide +revert

/-- Two processes have called the function with a value of eight bytes and have posted
their requests. Process 0 has received the message of process 1 and reads another one. -/
theorem eight_bytes_misread : (([.start 0 [], .start 1 [], .post 0, .post 0, .post 1, .post 1].foldl
        (World.step (bandPair 8 255 255)) (World.init 2)).arrived 0 allSucceed) 1 =
      some ⟨0#32, 0#32, [255, 255, 255, 255, 255, 255, 255, 255]⟩ ∧
    ((([.start 0 [], .start 1 [], .post 0, .post 0, .post 1, .post 1].foldl
        (World.step (bandPair 8 255 255)) (World.init 2)).procs 0).storeAll (bandPair 8 255 255)
      (([.start 0 [], .start 1 [], .post 0, .post 0, .post 1, .post 1].foldl
        (World.step (bandPair 8 255 255)) (World.init 2)).arrived 0 allSucceed)).inAt
      (bandPair 8 255 255) 1 = ⟨0#32, 0#32, [0, 0, 0, 0, 255, 255, 255, 255]⟩ :=
  ⟨by decide +kernel, by decide +kernel⟩

end Slots

end Eta

end Ulfm
