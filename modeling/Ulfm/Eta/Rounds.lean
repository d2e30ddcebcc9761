import Ulfm.Eta.Invariant

/-!
# The rounds of a process

The return of `ompi_request_wait_all` keeps the invariant: the loop over the completed
requests takes messages and marks ranks, and the end of a round decides whether the
process knows.
-/

namespace Ulfm

open Function Finset Nat Exchange

namespace Eta

variable {np : ℕ} {cfg : Config np} {w : World np} {knows marks : Fin np → ℕ → Prop}
  {me : Fin np} {recv send : Fin np → Completion}

namespace World

/-- The world after the loop over the completed requests, before the end of the round. -/
def harvested (cfg : Config np) (w : World np) (me : Fin np) (recv send : Fin np → Completion) :
    World np :=
  { w with
    procs := Function.update w.procs me
      (((w.procs me).storeAll cfg (w.arrived me recv)).harvest cfg recv send)
    taken := fun j i =>
      if j = me ∧ w.receives me recv i then w.taken j i + 1 else w.taken j i }

theorem waitAll_eq (cfg : Config np) (w : World np) (me : Fin np)
    (recv send : Fin np → Completion) :
    w.waitAll cfg me recv send = (w.harvested cfg me recv send).setProc me
      (if ((w.harvested cfg me recv send).procs me).nr ≠ 0 then
        (w.harvested cfg me recv send).procs me
      else ((w.harvested cfg me recv send).procs me).endRound) := by
  simp only [harvested, setProc, waitAll, update_self, update_idem]
  rfl

@[simp] theorem harvested_procs_self : (w.harvested cfg me recv send).procs me =
    ((w.procs me).storeAll cfg (w.arrived me recv)).harvest cfg recv send :=
  update_self ..

theorem harvested_procs_of_ne {i : Fin np} (hi : i ≠ me) :
    (w.harvested cfg me recv send).procs i = w.procs i :=
  Function.update_of_ne hi ..

/-- The next message of `i` for `me`. -/
def next (w : World np) (me i : Fin np) : Msg := ((w.sent i me)[w.taken me i]?).getD ⟨0, 0, []⟩

theorem receives_iff {i : Fin np} : w.receives me recv i = true ↔ (w.procs me).Receives recv i := by
  simp [receives, Proc.Receives]

end World

theorem Carries.length_estValue {E : Exchange (Fin np)} {i : Fin np} {r s : ℕ} {m : Msg}
    (hop : SemilatticeOn (fun bs => bs.length = cfg.valueSize) cfg.reduce)
    (h : Carries cfg E marks i r s m) : m.estValue.length = cfg.valueSize := by
  obtain ⟨l, -, hl⟩ := h.value
  refine hop.reduceList_mem (fun bs hbs => ?_) hl
  obtain ⟨x, -, rfl⟩ := List.mem_map.1 hbs
  exact cfg.length_contrib x

section Harvest

variable (h : Inv cfg w knows marks) (hphase : (w.procs me).phase = .waiting)
  (hreport : w.MayReport me recv send)
include hphase

theorem not_idle : (w.procs me).phase ≠ .idle := by
  rw [hphase]
  exact fun hp => (by cases hp)

include h

theorem Inv.receives_round {i : Fin np} (hi : (w.procs me).Receives recv i) :
    me ≠ i ∧ w.taken me i + 1 = (w.procs me).round :=
  (h.taking me i).isOpen (by rw [Proc.Posted, hphase]; trivial) hi.1

include hreport

theorem Inv.carries_next {i : Fin np} (hi : (w.procs me).Receives recv i) :
    w.arrived me recv i = some (w.next me i) ∧
      Carries cfg (w.exchange knows) marks i (w.procs me).round (w.procs me).round
        (w.next me i) := by
  have hreceives := World.receives_iff.2 hi
  have hlt := hreport.1 i hreceives
  have hsome : (w.sent i me)[w.taken me i]? = some (w.next me i) := by
    rw [World.next, List.getElem?_eq_getElem hlt]
    rfl
  refine ⟨?_, ?_⟩
  · rw [World.arrived, if_pos hreceives, hsome]
  · have hcarries := (h.sending i).carries me _ _ hsome
    rw [(h.receives_round hphase hi).2] at hcarries
    exact hcarries

section

variable (hsize : cfg.valueSize = 4 ∨ np ≤ 1)
  (hop : SemilatticeOn (fun bs => bs.length = cfg.valueSize) cfg.reduce)
include hsize hop

theorem Inv.harvested_spec :
    Proc.Harvested cfg recv send (w.next me) { w.procs me with nr := 0, nbrecv := 0 }
      ((w.harvested cfg me recv send).procs me) (List.finRange np) := by
  rw [World.harvested_procs_self]
  refine Proc.harvest_storeAll (fun i hi => ?_) (fun i hi => ?_)
    ((h.sending me).out (not_idle hphase)).flag send
  · obtain hfour | hnp := hsize
    · refine Proc.inAt_storeAll hfour (fun j m hm => ?_) (h.carries_next hphase hreport hi).1
      have hreceives : w.receives me recv j := by
        by_contra hc
        rw [World.arrived, if_neg hc] at hm
        cases hm
      obtain ⟨harrived, hcarries⟩ := h.carries_next hphase hreport (World.receives_iff.1 hreceives)
      obtain rfl := Option.some.inj (harrived.symm.trans hm)
      rw [hcarries.length_estValue hop, hfour]
    · exact absurd (Fin.ext (by omega)) (h.receives_round hphase hi).1
  · exact (h.carries_next hphase hreport hi).2.flag

theorem Inv.visited (i : Fin np) :
    Proc.Visited recv send (w.next me) (w.procs me)
      ((w.harvested cfg me recv send).procs me) i := by
  have hv := (h.harvested_spec hphase hreport hsize hop).visited i (List.mem_finRange i)
  exact ⟨hv.crashed, hv.acked, hv.told, hv.knowsIKnow, hv.recvOpen, hv.sendOpen⟩

end

end Harvest

section Holds

variable (h : Inv cfg w knows marks) (hphase : (w.procs me).phase = .waiting)
  {origin origin' : Fin np → ℕ → Prop} (horigin : ∀ i, i ≠ me → origin' i = origin i)
  (horigin_me : ∀ s, s ≠ (w.procs me).round → (origin' me s ↔ origin me s))
include h hphase horigin horigin_me

theorem Inv.holds_harvested {i : Fin np} {s : ℕ} (hs : i ≠ me ∨ s ≤ (w.procs me).round) :
    ((w.harvested cfg me recv send).exchange knows).Holds origin' s i ↔
      (w.exchange knows).Holds origin s i := by
  refine holds_congr (i := me) (r := (w.procs me).round) (fun j hj => ⟨?_, horigin j hj⟩)
    (fun s hs j => ?_) (fun s hs => horigin_me s hs.ne) (fun j _ => ?_) hs
  · funext k
    exact if_neg fun hc => hj hc.1
  · change s ≤ (if me = me ∧ w.receives me recv j then w.taken me j + 1 else w.taken me j) ↔
      s ≤ w.taken me j
    split_ifs with hc
    · have hround := (h.receives_round hphase (World.receives_iff.1 hc.2)).2
      omega
    · exact Iff.rfl
  · exact ((h.taking j me).le_sent).trans ((h.sending me).length j)

theorem Inv.holds_harvested_succ (hle : ∀ s, origin me s → origin' me s) :
    ((w.harvested cfg me recv send).exchange knows).Holds origin' ((w.procs me).round + 1) me ↔
      (w.exchange knows).Holds origin ((w.procs me).round + 1) me ∨
        origin' me (w.procs me).round ∨ ∃ i, (w.procs me).Receives recv i ∧
          (w.exchange knows).Holds origin (w.procs me).round i := by
  have htaken : ∀ i,
      (w.procs me).round ≤ ((w.harvested cfg me recv send).exchange knows).taken me i ↔
      (w.procs me).round ≤ w.taken me i ∨ (w.procs me).Receives recv i := by
    intro i
    change _ ≤ (if me = me ∧ w.receives me recv i then w.taken me i + 1 else w.taken me i) ↔ _
    split_ifs with hc
    · have hi := World.receives_iff.1 hc.2
      exact iff_of_true (h.receives_round hphase hi).2.ge (.inr hi)
    · refine (or_iff_left fun hi => hc ⟨rfl, World.receives_iff.2 hi⟩).symm
  have hround : ∀ i, ((w.harvested cfg me recv send).exchange knows).Holds origin'
      (w.procs me).round i ↔ (w.exchange knows).Holds origin (w.procs me).round i :=
    fun i => h.holds_harvested hphase horigin horigin_me (.inr (le_refl _))
  simp only [Exchange.Holds, hround, htaken]
  constructor
  · rintro (hi | hi | ⟨i, hi | hi, hr⟩)
    · exact .inl (.inl hi)
    · exact .inr (.inl hi)
    · exact .inl (.inr (.inr ⟨i, hi, hr⟩))
    · exact .inr (.inr ⟨i, hi, hr⟩)
  · rintro ((hi | hi | ⟨i, hi, hr⟩) | hi | ⟨i, hi, hr⟩)
    · exact .inl hi
    · exact .inr (.inl (hle _ hi))
    · exact .inr (.inr ⟨i, .inl hi, hr⟩)
    · exact .inr (.inl hi)
    · exact .inr (.inr ⟨i, .inr hi, hr⟩)

end Holds

theorem Carries.congr {E E' : Exchange (Fin np)} {marks' : Fin np → ℕ → Prop} {i : Fin np}
    {r s : ℕ} {m : Msg} (h : Carries cfg E marks i r s m) (hknows : E'.knows i r ↔ E.knows i r)
    (hpf : E'.Holds marks' s i ↔ E.Holds marks s i)
    (hvalue : ∀ x, E'.Holds (contributes x) s i ↔ E.Holds (contributes x) s i) :
    Carries cfg E' marks' i r s m := by
  obtain ⟨l, hl, hred⟩ := h.value
  exact ⟨h.flag, h.knows.trans hknows.symm, h.pf.trans hpf.symm, l,
    fun x => (hl x).trans (hvalue x).symm, hred⟩

theorem exists_reduce_foldl (hop : SemilatticeOn (fun bs => bs.length = cfg.valueSize) cfg.reduce)
    {next : Fin np → Msg} {held : Fin np → Fin np → Prop} {l : List (Fin np)} {v : List UInt8}
    (hv : reduceList cfg.reduce (l.map cfg.contrib) = some v) {senders : List (Fin np)}
    (hnext : ∀ i ∈ senders, ∃ k : List (Fin np), (∀ x, x ∈ k ↔ held x i) ∧
      reduceList cfg.reduce (k.map cfg.contrib) = some (next i).estValue) :
    ∃ k : List (Fin np), (∀ x, x ∈ k ↔ x ∈ l ∨ ∃ i ∈ senders, held x i) ∧
      reduceList cfg.reduce (k.map cfg.contrib) =
        some (senders.foldl (fun v i => cfg.reduce (next i).estValue v) v) := by
  have hlength : ∀ k : List (Fin np), ∀ bs ∈ k.map cfg.contrib, bs.length = cfg.valueSize := by
    intro k bs hbs
    obtain ⟨x, -, rfl⟩ := List.mem_map.1 hbs
    exact cfg.length_contrib x
  induction senders generalizing l v with
  | nil => exact ⟨l, fun x => by simp, hv⟩
  | cons i senders ih =>
    obtain ⟨k, hk, hred⟩ := hnext i List.mem_cons_self
    have hboth := hop.reduceList_append (hlength k) (hlength l) hred hv
    rw [← List.map_append] at hboth
    obtain ⟨k', hk', hred'⟩ := ih hboth fun j hj => hnext j (List.mem_cons_of_mem i hj)
    refine ⟨k', fun x => ?_, hred'⟩
    rw [hk' x, List.mem_append, hk x]
    simp only [List.mem_cons, or_and_right, exists_or, exists_eq_left]
    rw [or_comm (a := held x i), or_assoc]

section Step

variable (h : Inv cfg w knows marks) (halive : w.dead me = false)
  (hphase : (w.procs me).phase = .waiting) (hreport : w.MayReport me recv send)
  (hsize : cfg.valueSize = 4 ∨ np ≤ 1)
  (hop : SemilatticeOn (fun bs => bs.length = cfg.valueSize) cfg.reduce)

/-- The rounds in which a failure has been found, after the loop. -/
def marksAfter (w : World np) (marks : Fin np → ℕ → Prop) (me : Fin np)
    (recv send : Fin np → Completion) (i : Fin np) (s : ℕ) : Prop :=
  marks i s ∨ i = me ∧ s = (w.procs me).round ∧ ∃ j, (w.procs me).Fails recv send j

theorem marksAfter_of_ne {i : Fin np} (hi : i ≠ me) :
    marksAfter w marks me recv send i = marks i := by
  funext s
  exact propext (or_iff_left fun hc => hi hc.1)

theorem marksAfter_self {s : ℕ} (hs : s ≠ (w.procs me).round) :
    marksAfter w marks me recv send me s ↔ marks me s :=
  or_iff_left fun hc => hs hc.2.1

include h hphase hreport hsize hop

theorem Inv.carries_out_harvested : Carries cfg ((w.harvested cfg me recv send).exchange knows)
      (marksAfter w marks me recv send) me (w.procs me).round ((w.procs me).round + 1)
      ((w.harvested cfg me recv send).procs me).out := by
  have hspec := h.harvested_spec hphase hreport hsize hop
  obtain ⟨hflag, hknows, hpf, l, hl, hvalue⟩ := (h.sending me).out (not_idle hphase)
  have hpos := (h.sending me).round_pos (not_idle hphase)
  refine ⟨?_, ?_, ?_, ?_⟩
  · rw [hspec.knows]
    exact hflag
  · rw [hspec.knows]
    exact hknows
  · rw [h.holds_harvested_succ hphase (fun i hi => marksAfter_of_ne hi)
      (fun s hs => marksAfter_self hs) (fun s hs => .inl hs), hspec.pf, hpf]
    constructor
    · rintro (hp | ⟨i, -, hi | ⟨hi, hmsg⟩⟩)
      · exact .inl hp
      · exact .inr (.inl (.inr ⟨rfl, rfl, i, hi⟩))
      · exact .inr (.inr ⟨i, hi, (h.carries_next hphase hreport hi).2.pf.1 hmsg⟩)
    · rintro (hp | (hp | ⟨-, -, i, hi⟩) | ⟨i, hi, hr⟩)
      · exact .inl hp
      · exact .inl (.inr (.inl hp))
      · exact .inr ⟨i, List.mem_finRange i, .inl hi⟩
      · exact .inr ⟨i, List.mem_finRange i, .inr ⟨hi, (h.carries_next hphase hreport hi).2.pf.2 hr⟩⟩
  · have hnext : ∀ i ∈ (List.finRange np).filter fun i => (w.procs me).Receives recv i,
        ∃ k : List (Fin np),
          (∀ x, x ∈ k ↔ (w.exchange knows).Holds (contributes x) (w.procs me).round i) ∧
          reduceList cfg.reduce (k.map cfg.contrib) = some (w.next me i).estValue := by
      intro i hi
      have hi : (w.procs me).Receives recv i := by simpa using hi
      exact (h.carries_next hphase hreport hi).2.value
    obtain ⟨k, hk, hred⟩ := exists_reduce_foldl hop hvalue hnext
    refine ⟨k, fun x => ?_, ?_⟩
    · have horigin : ∀ s, s ≠ (w.procs me).round →
          (contributes x me s ↔ contributes x me s) := fun _ _ => Iff.rfl
      rw [hk x, hl x, h.holds_harvested_succ hphase (fun _ _ => rfl) horigin (fun _ => id)]
      refine or_congr_right ?_
      have hnot : ¬contributes x me (w.procs me).round := by
        intro hc
        have := hc.2
        omega
      simp [hnot]
    · rw [hspec.estValue]
      exact hred

omit hphase hreport hsize hop in
theorem Inv.sound_harvested (hmono : ∀ i j,
    w.taken i j ≤ (w.harvested cfg me recv send).taken i j) :
    ((w.harvested cfg me recv send).exchange knows).Sound := by
  refine ⟨h.sound.two_le, fun i r hknows => ?_⟩
  rcases h.sound.rule i r hknows with ⟨j, s, hsr, htaken, hj⟩ | hcard
  · exact .inl ⟨j, s, hsr, htaken.trans (hmono i j), hj⟩
  · right
    refine le_trans (Nat.add_le_add_right (card_le_card fun j hj => ?_) 2) hcard
    obtain ⟨-, hne, hlt⟩ := mem_filter.1 hj
    exact mem_filter.2 ⟨mem_univ j, hne, (hmono i j).trans_lt hlt⟩

theorem Inv.sending_harvested (i : Fin np) :
    Sending cfg ((w.harvested cfg me recv send).exchange knows)
      (marksAfter w marks me recv send) i ((w.harvested cfg me recv send).procs i) (w.sent i) := by
  have h0 := h.sending i
  have hholds : ∀ s, i ≠ me ∨ s ≤ (w.procs me).round →
      (((w.harvested cfg me recv send).exchange knows).Holds (marksAfter w marks me recv send) s i ↔
        (w.exchange knows).Holds marks s i) ∧
      ∀ x, ((w.harvested cfg me recv send).exchange knows).Holds (contributes x) s i ↔
        (w.exchange knows).Holds (contributes x) s i := by
    intro s hs
    refine ⟨?_, fun x => ?_⟩
    · exact h.holds_harvested hphase (fun i hi => marksAfter_of_ne hi)
        (fun s hs => marksAfter_self hs) hs
    · exact h.holds_harvested hphase (fun _ _ => rfl) (fun _ _ => Iff.rfl) hs
  rcases eq_or_ne i me with rfl | hi
  · have hspec := h.harvested_spec hphase hreport hsize hop
    have hpos := h0.round_pos (not_idle hphase)
    have hphase' : ((w.harvested cfg i recv send).procs i).phase = .waiting :=
      hspec.phase.trans hphase
    have hround' : ((w.harvested cfg i recv send).procs i).round = (w.procs i).round := hspec.round
    refine ⟨fun hp => ?_, fun _ => ?_, fun _ => ?_, fun s hs => ?_, fun s hs => ?_,
      fun k hp => ?_, fun j k m hm => ?_, fun j => ?_, fun j k hp => ?_, fun j _ hneed => ?_,
      fun _ => ?_, fun hp => ?_⟩
    · rw [hphase'] at hp
      cases hp
    · rw [hround']
      exact hpos
    · rw [hround']
      exact h0.round_le (by rw [hphase]; exact fun hp => (by cases hp))
    · rw [hround']
      exact h0.known s hs
    · rw [hround']
      rcases hs with hs | ⟨-, hs, -⟩
      · exact h0.marked s hs
      · exact ⟨hs ▸ hpos, hs.le⟩
    · rw [hphase'] at hp
      cases hp
    · have hk : k < (w.sent i j).length := (List.getElem?_eq_some_iff.1 hm).1
      obtain ⟨hpf, hvalue⟩ := hholds (k + 1) (.inr (le_trans hk (h0.length j)))
      exact (h0.carries j k m hm).congr Iff.rfl hpf hvalue
    · rw [hround']
      exact h0.length j
    · rw [hphase'] at hp
      cases hp
    · have hv := h.visited hphase hreport hsize hop j
      rw [hround']
      refine h0.length_posted j (by rw [Proc.Posted, hphase]; trivial) ?_
      simp only [Proc.needToSend, ne_eq, isSet_crashed, isSet_knowsIKnow, Bool.and_eq_true,
        Bool.not_eq_true', decide_eq_true_eq] at hneed ⊢
      refine ⟨⟨hneed.1.1, ?_⟩, ?_⟩
      · by_contra hc
        have hc' := hv.crashed.2 (.inl (Bool.not_eq_false _ ▸ hc))
        rw [hneed.1.2] at hc'
        cases hc'
      · by_contra hc
        have hc' := hv.knowsIKnow (Bool.not_eq_false _ ▸ hc)
        rw [hneed.2] at hc'
        cases hc'
    · rw [hround']
      exact h.carries_out_harvested hphase hreport hsize hop
    · rw [hphase'] at hp
      cases hp
  · rw [World.harvested_procs_of_ne hi]
    have hmarks : marksAfter w marks me recv send i = marks i := marksAfter_of_ne hi
    refine ⟨h0.idle, h0.round_pos, h0.round_le, h0.known, ?_, ?_, fun j k m hm => ?_, h0.length,
      h0.length_open, h0.length_posted, fun hp => ?_, h0.stopped⟩
    · rw [hmarks]
      exact h0.marked
    · rw [hmarks]
      exact h0.fresh
    · obtain ⟨hpf, hvalue⟩ := hholds (k + 1) (.inl hi)
      exact (h0.carries j k m hm).congr Iff.rfl hpf hvalue
    · obtain ⟨hpf, hvalue⟩ := hholds ((w.procs i).round + 1) (.inl hi)
      exact (h0.out hp).congr Iff.rfl hpf hvalue

omit h hphase hreport hsize hop in
theorem World.taken_harvested (cfg : Config np) (w : World np) (me : Fin np)
    (recv send : Fin np → Completion) (i : Fin np) : (w.harvested cfg me recv send).taken me i =
    if (w.procs me).Receives recv i then w.taken me i + 1 else w.taken me i := by
  simp only [World.harvested, true_and, World.receives_iff]

omit h hphase hreport hsize hop in
theorem World.taken_le_harvested (cfg : Config np) (w : World np) (me : Fin np)
    (recv send : Fin np → Completion) (i j : Fin np) :
    w.taken i j ≤ (w.harvested cfg me recv send).taken i j := by
  simp only [World.harvested]
  split_ifs
  · exact le_succ _
  · exact le_refl _

include halive

theorem Inv.taking_harvested_self (j : Fin np) :
    Taking knows me j ((w.harvested cfg me recv send).procs me)
      ((w.harvested cfg me recv send).taken me j) (w.sent j me).length (w.dead j)
      (w.procs j).phase (w.taken j me) := by
  have h0 := h.taking me j
  have hspec := h.harvested_spec hphase hreport hsize hop
  have hv := h.visited hphase hreport hsize hop j
  have hphase' : ((w.harvested cfg me recv send).procs me).phase = .waiting :=
    hspec.phase.trans hphase
  have hround' : ((w.harvested cfg me recv send).procs me).round = (w.procs me).round := hspec.round
  have hposted : (w.procs me).Posted j := by
    rw [Proc.Posted, hphase]
    trivial
  have hle := World.taken_le_harvested cfg w me recv send me j
  have htaken := World.taken_harvested cfg w me recv send j
  have hreceived : (w.procs me).Receives recv j → me ≠ j ∧ w.taken me j + 1 = (w.procs me).round :=
    h.receives_round hphase
  have hdead : ((w.harvested cfg me recv send).procs me).Crashed j → w.dead j = true := by
    intro hc
    rcases hv.crashed.1 hc with hc | ⟨hopen, hf⟩ | ⟨hopen, hf⟩
    · exact h0.crashed hc
    · exact hreport.2.1 j hopen hf
    · exact hreport.2.2.1 j hopen hf
  have htold : (w.procs me).Told j → ((w.harvested cfg me recv send).procs me).Told j :=
    fun ht => hv.told.2 (.inl ht)
  have hcrashed : (w.procs me).Crashed j → ((w.harvested cfg me recv send).procs me).Crashed j :=
    fun hc => hv.crashed.2 (.inl hc)
  rw [htaken] at hle ⊢
  refine ⟨?_, ?_, fun k hp => ?_, fun hj => ⟨?_, fun hc => ?_⟩, ?_, hdead, fun _ hj => ?_,
    fun _ hopen => ?_, fun _ hopen hj => ?_, fun hp => ?_, fun hc hr => ?_⟩
  · split_ifs with hr
    · exact hreport.1 j (World.receives_iff.2 hr)
    · exact h0.le_sent
  · rw [hround']
    split_ifs with hr
    · exact (hreceived hr).2.le
    · exact h0.le_round
  · rw [hphase'] at hp
    cases hp
  · rw [if_neg fun hr => (hreceived hr).1 hj]
    exact (h0.self hj).1
  · have hd := hdead hc
    rw [← hj, halive] at hd
    cases hd
  · -- the last message that was taken is the one that may tell
    have hmsg : (w.procs me).Receives recv j →
        ((w.next me j).knows = 1#32 ↔ knows j (w.taken me j + 1)) := by
      intro hr
      rw [(hreceived hr).2]
      exact (h.carries_next hphase hreport hr).2.knows
    have hiff : ((w.harvested cfg me recv send).procs me).Told j ↔
        (w.procs me).Told j ∨ (w.procs me).Receives recv j ∧ (w.next me j).knows = 1#32 := hv.told
    rw [hiff, h0.told]
    split_ifs with hr
    · rw [and_iff_right hr, hmsg hr]
      constructor
      · rintro (⟨s, hs, hk⟩ | hk)
        · exact ⟨s, hs.trans (le_succ _), hk⟩
        · exact ⟨_, le_refl _, hk⟩
      · rintro ⟨s, hs, hk⟩
        rcases le_succ_iff.1 hs with hs | rfl
        · exact .inl ⟨s, hs, hk⟩
        · exact .inr hk
    · exact or_iff_left fun hc => hr hc.1
  · rw [hround']
    rcases h0.settled (not_idle hphase) hj with hs | hs | hs
    · exact .inl (hs.trans (Nat.add_le_add_right hle 1))
    · exact .inr (.inl (htold hs))
    · exact .inr (.inr (hcrashed hs))
  · obtain ⟨hopen, hpending⟩ := hv.recvOpen.1 hopen
    rw [hround', if_neg fun hr => by rw [hr.2] at hpending; cases hpending]
    exact h0.isOpen hposted hopen
  · rw [hround']
    cases hwas : (w.procs me).recvOpen j with
    | false =>
      rcases h0.complete hposted hwas hj with hs | hs | hs
      · exact .inl (hs.trans hle)
      · exact .inr (.inl (htold hs))
      · exact .inr (.inr (hcrashed hs))
    | true =>
      cases hc : recv j with
      | success =>
        have hr : (w.procs me).Receives recv j := ⟨hwas, hc⟩
        rw [if_pos hr]
        exact .inl (hreceived hr).2.ge
      | procFailed => exact .inr (.inr (hv.crashed.2 (.inr (.inl ⟨hwas, hc⟩))))
      | pending =>
        rw [hv.recvOpen.2 ⟨hwas, hc⟩] at hopen
        cases hopen
  · rw [hphase'] at hp
    cases hp
  · -- a rank that has returned is marked late, after it has heard that this process knows
    by_cases hold : (w.procs me).Crashed j
    · rcases h0.missed hold hr with hs | ⟨s, hst, hsb, hs⟩ | hs
      · exact .inl (htold hs)
      · exact .inr (.inl ⟨s, hst.trans (Nat.add_le_add_right hle 1), hsb, hs⟩)
      · exact .inr (.inr (hs.trans hle))
    · have hj : me ≠ j := by
        rintro rfl
        rw [hdead hc] at halive
        cases halive
      have hlate : ((w.harvested cfg me recv send).procs me).Told j ∨
          (w.procs me).round ≤ w.taken me j + 1 := by
        rcases h0.settled (not_idle hphase) hj with hs | hs | hs
        · exact .inr hs
        · exact .inl (htold hs)
        · exact absurd hs hold
      have hback : w.taken j me ≤ (w.procs me).round :=
        (h.taking j me).le_sent.trans ((h.sending me).length j)
      rcases hlate with hs | hs
      · exact .inl hs
      · rcases (h.taking j me).returned hr hj.symm with ht | ht | ht
        · obtain ⟨s, hst, hk⟩ := (h.taking j me).told.1 ht
          exact .inr (.inl ⟨s, by omega, hst, hk⟩)
        · rw [(h.taking j me).crashed ht] at halive
          cases halive
        · exact .inr (.inr (by omega))

theorem Inv.harvested : Inv cfg (w.harvested cfg me recv send) knows
    (marksAfter w marks me recv send) := by
  have hspec := h.harvested_spec hphase hreport hsize hop
  have hphase' : ∀ j, ((w.harvested cfg me recv send).procs j).phase = (w.procs j).phase := by
    intro j
    rcases eq_or_ne j me with rfl | hj
    · exact hspec.phase
    · rw [World.harvested_procs_of_ne hj]
  refine ⟨h.sound_harvested fun i j => World.taken_le_harvested cfg w me recv send i j,
    h.sending_harvested hphase hreport hsize hop, fun i j => ?_⟩
  rw [hphase' j]
  rcases eq_or_ne i me with rfl | hi
  · refine (h.taking_harvested_self halive hphase hreport hsize hop j).mono (le_refl _) id id ?_
    exact World.taken_le_harvested cfg w i recv send j i
  · rw [World.harvested_procs_of_ne hi]
    have htaken : (w.harvested cfg me recv send).taken i j = w.taken i j := if_neg fun hc => hi hc.1
    rw [htaken]
    exact (h.taking i j).mono (le_refl _) id id (World.taken_le_harvested cfg w me recv send j i)

end Step

section Counts

theorem countP_finRange (f : Fin np → Bool) :
    (List.finRange np).countP f = (Finset.univ.filter fun i => f i = true).card := by
  rw [List.countP_eq_length_filter, card_def, filter_val, Fin.univ_def]
  simp

theorem told_or_crashed {p : Proc np} (hself : ¬p.Crashed me ∧ ¬p.Told me)
    (hcount : (np : ℤ) - 1 ≤ p.nbknow + p.nbcrashed) {j : Fin np} (hj : me ≠ j) :
    p.Told j ∨ p.Crashed j := by
  have hsum : p.nbknow + p.nbcrashed =
      (univ.filter fun i => p.Told i ∨ p.Crashed i).card := by
    rw [Proc.nbknow, Proc.nbcrashed, countP_finRange, countP_finRange, ← card_union_of_disjoint]
    · congr 1
      ext i
      rw [mem_union, mem_filter, mem_filter, mem_filter, Proc.Told,
        Proc.Crashed, isSet_crashed, isSet_toldMeHeKnows]
      cases (p.procStatus i)[0] with
      | true => simp
      | false => simp
    · rw [disjoint_filter]
      intro i _ hi hc
      simp [hc] at hi
  have hsub : (univ.filter fun i => p.Told i ∨ p.Crashed i) ⊆ univ.erase me := by
    intro i hi
    rw [mem_erase]
    refine ⟨?_, mem_univ i⟩
    rintro rfl
    exact (mem_filter.1 hi).2.elim hself.2 hself.1
  have hcard : (univ.erase me).card = np - 1 := by
    rw [card_erase_of_mem (mem_univ me), Finset.card_univ, Fintype.card_fin]
  have heq := eq_of_subset_of_card_le hsub (by omega)
  have hmem : j ∈ univ.erase me := mem_erase.2 ⟨hj.symm, mem_univ j⟩
  rw [← heq] at hmem
  exact (mem_filter.1 hmem).2

theorem exists_told_of_nbknow {p : Proc np} (h : 0 < p.nbknow) : ∃ j, p.Told j := by
  rw [Proc.nbknow, List.countP_pos_iff] at h
  obtain ⟨j, -, hj⟩ := h
  simp only [isSet_crashed, isSet_toldMeHeKnows, Bool.and_eq_true] at hj
  exact ⟨j, hj.2⟩

theorem Inv.missing_add_nbrecv (h : Inv cfg w knows marks)
    (hphase : (w.procs me).phase = .waiting) (hreport : w.MayReport me recv send)
    (hsize : cfg.valueSize = 4 ∨ np ≤ 1)
    (hop : SemilatticeOn (fun bs => bs.length = cfg.valueSize) cfg.reduce) :
    (((w.harvested cfg me recv send).exchange knows).missing me (w.procs me).round).card +
      ((w.harvested cfg me recv send).procs me).nbrecv + 1 ≤ np := by
  have hspec := h.harvested_spec hphase hreport hsize hop
  set missing := ((w.harvested cfg me recv send).exchange knows).missing me (w.procs me).round
  set received := univ.filter fun i => (w.procs me).Receives recv i
  have hnbrecv : ((w.harvested cfg me recv send).procs me).nbrecv = received.card := by
    rw [hspec.nbrecv, countP_finRange, Nat.zero_add]
    simp [received, Proc.Receives, Proc.recvOpen]
  have hdisjoint : Disjoint missing received := by
    rw [disjoint_left]
    intro i hi hr
    have hr : (w.procs me).Receives recv i := (mem_filter.1 hr).2
    obtain ⟨-, -, hlt⟩ := mem_filter.1 hi
    have htaken : (w.harvested cfg me recv send).taken me i = (w.procs me).round := by
      rw [World.taken_harvested, if_pos hr]
      exact (h.receives_round hphase hr).2
    exact absurd htaken (Nat.ne_of_lt hlt)
  have hsub : missing ∪ received ⊆ univ.erase me := by
    intro i hi
    refine mem_erase.2 ⟨?_, mem_univ i⟩
    rcases mem_union.1 hi with hi | hi
    · exact (mem_filter.1 hi).2.1
    · exact ((h.receives_round hphase (mem_filter.1 hi).2).1).symm
  have hcard := card_le_card hsub
  rw [card_union_of_disjoint hdisjoint, card_erase_of_mem (mem_univ me),
    Finset.card_univ, Fintype.card_fin, ← hnbrecv] at hcard
  have hpos := me.pos
  omega

end Counts

section EndRound

variable (h : Inv cfg w knows marks) (halive : w.dead me = false)
  (hphase : (w.procs me).phase = .waiting)
  (hdone : ∀ j, (w.procs me).recvOpen j = false)
include h

theorem Inv.not_self : ¬(w.procs me).Crashed me ∧ ¬(w.procs me).Told me := by
  obtain ⟨htaken, hcrashed⟩ := (h.taking me me).self rfl
  refine ⟨hcrashed, fun ht => ?_⟩
  obtain ⟨s, hs, hk⟩ := (h.taking me me).told.1 ht
  have := h.sound.two_le me s hk
  omega

include halive hphase

theorem Inv.break (hcount : (np : ℤ) - 1 ≤ (w.procs me).nbknow + (w.procs me).nbcrashed)
    (hknows : (w.procs me).out.knows = 1#32) :
    Inv cfg (w.setProc me { w.procs me with phase := .returned }) knows marks := by
  have h0 := h.sending me
  have hidle := not_idle hphase
  have hme := w.setProc_procs_self me { w.procs me with phase := .returned }
  have hne : ∀ i, i ≠ me →
      (w.setProc me { w.procs me with phase := .returned }).procs i = w.procs i :=
    fun i hi => w.setProc_procs_of_ne hi _
  refine ⟨h.sound, fun i => ?_, fun i j => ?_⟩
  · rcases eq_or_ne i me with rfl | hi
    · rw [hme]
      refine ⟨fun hp => (by cases hp), fun _ => h0.round_pos hidle, fun hp => absurd rfl hp,
        h0.known, h0.marked, fun k hp => (by cases hp), h0.carries, h0.length,
        fun j k hp => (by cases hp), fun j hp => hp.elim, fun _ => h0.out hidle,
        fun _ => .inl ⟨?_, ?_⟩⟩
      · exact (h0.out hidle).knows.1 hknows
      · exact h0.round_le (by rw [hphase]; exact fun hp => (by cases hp))
    · rw [hne i hi]
      exact h.sending i
  · have hreturned : (w.procs i).Crashed j →
        ((w.setProc me { w.procs me with phase := .returned }).procs j).phase = .returned →
        (w.procs j).phase = .returned := by
      intro hc hr
      rcases eq_or_ne j me with rfl | hj
      · rw [(h.taking i j).crashed hc] at halive
        cases halive
      · rw [hne j hj] at hr
        exact hr
    have h1 := h.taking i j
    rcases eq_or_ne i me with rfl | hi
    · rw [hme]
      refine ⟨h1.le_sent, h1.le_round, fun k hp => (by cases hp), h1.self, h1.told, h1.crashed,
        fun _ hj => h1.settled hidle hj, fun hp => hp.elim, fun hp => hp.elim, fun _ hj => ?_,
        fun hc hr => h1.missed hc (hreturned hc hr)⟩
      rcases told_or_crashed h.not_self hcount hj with ht | hc
      · exact .inl ht
      · exact .inr (.inl hc)
    · rw [hne i hi]
      exact ⟨h1.le_sent, h1.le_round, h1.lt_round, h1.self, h1.told, h1.crashed, h1.settled,
        h1.isOpen, h1.complete, h1.returned, fun hc hr => h1.missed hc (hreturned hc hr)⟩

/-- The rounds in which a process knows, after the end of a round. -/
def knowsAfter (w : World np) (knows : Fin np → ℕ → Prop) (me i : Fin np) (s : ℕ) : Prop :=
  knows i s ∨ i = me ∧ s = (w.procs me).round + 1 ∧
    (0 < (w.procs me).nbknow ∨ (np : ℤ) - (w.procs me).round + 1 ≤ (w.procs me).nbrecv)

omit h halive hphase in
theorem knowsAfter_iff {i : Fin np} {s : ℕ} (hs : i = me → s ≤ (w.procs me).round) :
    knowsAfter w knows me i s ↔ knows i s := by
  refine or_iff_left fun hc => ?_
  have := hs hc.1
  omega

omit halive in
theorem Inv.sound_knowsAfter (hmissing : ((w.exchange knows).missing me (w.procs me).round).card +
      (w.procs me).nbrecv + 1 ≤ np) : (w.exchange (knowsAfter w knows me)).Sound := by
  have hpos := (h.sending me).round_pos (not_idle hphase)
  refine ⟨fun i s hs => ?_, fun i r hs => ?_⟩
  · rcases hs with hs | ⟨-, hs, -⟩
    · exact h.sound.two_le i s hs
    · omega
  · rcases hs with hs | ⟨rfl, hr, hcond⟩
    · rcases h.sound.rule i r hs with ⟨j, s, hsr, htaken, hj⟩ | hcard
      · exact .inl ⟨j, s, hsr, htaken, .inl hj⟩
      · exact .inr hcard
    · obtain rfl : r = (w.procs i).round := succ.inj hr
      rcases hcond with hknow | hnbrecv
      · obtain ⟨j, hj⟩ := exists_told_of_nbknow hknow
        obtain ⟨s, hst, hs⟩ := (h.taking i j).told.1 hj
        exact .inl ⟨j, s, hst.trans (h.taking i j).le_round, hst, .inl hs⟩
      · right
        change ((w.exchange knows).missing i (w.procs i).round).card + 2 ≤ (w.procs i).round
        omega

theorem Inv.nextRound (hdone : ∀ j, (w.procs me).recvOpen j = false)
    (hmissing : ((w.exchange knows).missing me (w.procs me).round).card +
      (w.procs me).nbrecv + 1 ≤ np) {q : Proc np}
    (hq : q = { w.procs me with
      out := { (w.procs me).out with
        knows := if 0 < (w.procs me).nbknow ∨
          (np : ℤ) - (w.procs me).round + 1 ≤ (w.procs me).nbrecv then 1#32 else 0#32 }
      round := (w.procs me).round + 1
      phase := if (w.procs me).round + 1 ≤ np + 1 then .posting 0 else .returned }) :
    Inv cfg (w.setProc me q) (knowsAfter w knows me) marks := by
  have h0 := h.sending me
  have hidle := not_idle hphase
  have hround : (w.procs me).round ≤ np + 1 :=
    h0.round_le (by rw [hphase]; exact fun hp => (by cases hp))
  have hposted : ∀ j, (w.procs me).Posted j := by
    intro j
    rw [Proc.Posted, hphase]
    trivial
  have hqround : q.round = (w.procs me).round + 1 := by rw [hq]
  have hqphase : q.phase = .posting 0 ∨ q.phase = .returned ∧ (w.procs me).round = np + 1 := by
    rw [hq]
    change (if _ then _ else _) = _ ∨ (if _ then _ else _) = _ ∧ _
    split_ifs with hle
    · exact .inl rfl
    · exact .inr ⟨rfl, by omega⟩
  have hqposted : ∀ j, ¬q.Posted j := by
    intro j hp
    rw [Proc.Posted] at hp
    rcases hqphase with hp' | ⟨hp', -⟩
    · rw [hp'] at hp
      exact absurd hp (Nat.not_lt_zero _)
    · rw [hp'] at hp
      exact hp
  have hqidle : q.phase ≠ .idle := by
    rcases hqphase with hp' | ⟨hp', -⟩
    · rw [hp']
      exact fun hp => (by cases hp)
    · rw [hp']
      exact fun hp => (by cases hp)
  have hqstatus : q.procStatus = (w.procs me).procStatus := by rw [hq]
  have hqcrashed : ∀ j, q.Crashed j ↔ (w.procs me).Crashed j := by
    intro j
    rw [Proc.Crashed, Proc.Crashed, hqstatus]
  have hqtold : ∀ j, q.Told j ↔ (w.procs me).Told j := by
    intro j
    rw [Proc.Told, Proc.Told, hqstatus]
  have hme := w.setProc_procs_self me q
  have hne : ∀ i, i ≠ me → (w.setProc me q).procs i = w.procs i :=
    fun i hi => w.setProc_procs_of_ne hi q
  have hholds : ∀ origin s i, (w.exchange (knowsAfter w knows me)).Holds origin s i ↔
      (w.exchange knows).Holds origin s i := fun _ _ _ => holds_of_taken_eq rfl
  have hfresh : ¬marks me ((w.procs me).round + 1) := by
    intro hm
    have := (h0.marked _ hm).2
    omega
  have htaken : ∀ j, (w.exchange knows).taken me j < (w.procs me).round + 1 :=
    fun j => lt_succ_of_le (h.taking me j).le_round
  refine ⟨h.sound_knowsAfter hphase hmissing, fun i => ?_, fun i j => ?_⟩
  · rcases eq_or_ne i me with rfl | hi
    · rw [hme]
      refine ⟨fun hp => absurd hp hqidle, fun _ => ?_, fun hp => ?_, fun s hs => ?_, fun s hs => ?_,
        fun k hp => ?_, fun j k m hm => ?_, fun j => ?_, fun j k hp hk hneed => ?_,
        fun j hp => absurd hp (hqposted j), fun _ => ?_, fun hp => ?_⟩
      · rw [hqround]
        exact Nat.le_add_left 1 _
      · rcases hqphase with hp' | ⟨hp', -⟩
        · by_contra hgt
          rw [hq] at hp'
          rw [hqround] at hgt
          simp [hgt] at hp'
        · exact absurd hp' hp
      · rw [hqround]
        rcases hs with hs | ⟨-, hs, -⟩
        · exact (h0.known s hs).trans (le_succ _)
        · exact hs.le
      · rw [hqround]
        exact ⟨(h0.marked s hs).1, (h0.marked s hs).2.trans (le_succ _)⟩
      · rw [hqround]
        exact hfresh
      · have hk : k < (w.sent i j).length := (List.getElem?_eq_some_iff.1 hm).1
        refine (h0.carries j k m hm).congr (knowsAfter_iff fun _ => ?_) (hholds ..)
          fun x => hholds ..
        exact le_trans hk (h0.length j)
      · rw [hqround]
        exact (h0.length j).trans (le_succ _)
      · rw [hqround]
        refine congrArg (· + 1) (h0.length_posted j (hposted j) ?_)
        rw [Proc.needToSend, ← hqstatus]
        exact hneed
      · obtain ⟨-, -, hpf, l, hl, hvalue⟩ := h0.out hidle
        have hqpf : q.out.pf = (w.procs i).out.pf := by rw [hq]
        have hqest : q.out.estValue = (w.procs i).out.estValue := by rw [hq]
        have hqknows : q.out.knows = if 0 < (w.procs i).nbknow ∨
            (np : ℤ) - (w.procs i).round + 1 ≤ (w.procs i).nbrecv then 1#32 else 0#32 := by rw [hq]
        rw [hqround]
        refine ⟨?_, ?_, ?_, l, fun x => ?_, ?_⟩
        · rw [hqknows]
          split_ifs
          · exact .inr rfl
          · exact .inl rfl
        · have hnot : ¬knows i ((w.procs i).round + 1) := by
            intro hk
            have := h0.known _ hk
            omega
          have hafter : (w.exchange (knowsAfter w knows i)).knows i ((w.procs i).round + 1) ↔
              0 < (w.procs i).nbknow ∨ (np : ℤ) - (w.procs i).round + 1 ≤ (w.procs i).nbrecv := by
            change knows i _ ∨ _ ↔ _
            rw [or_iff_right hnot, and_iff_right rfl, and_iff_right rfl]
          change _ ↔ (w.exchange (knowsAfter w knows i)).knows i ((w.procs i).round + 1)
          rw [hqknows, hafter]
          split_ifs with hc
          · exact iff_of_true rfl hc
          · exact iff_of_false (fun h1 => by cases h1) hc
        · rw [hqpf]
          change _ ↔ (w.exchange (knowsAfter w knows i)).Holds marks _ i
          rw [hholds, hpf, holds_succ_iff htaken hfresh]
        · change _ ↔ (w.exchange (knowsAfter w knows i)).Holds (contributes x) _ i
          rw [hholds, hl x, holds_succ_iff htaken fun hc => absurd hc.2 (succ_ne_zero _)]
        · rw [hqest]
          exact hvalue
      · rcases hqphase with hp' | ⟨-, hr⟩
        · rw [hp'] at hp
          cases hp
        · exact .inr (by rw [hqround, hr])
    · rw [hne i hi]
      have h1 := h.sending i
      have hk : ∀ s, knowsAfter w knows me i s ↔ knows i s :=
        fun s => knowsAfter_iff fun hc => absurd hc hi
      refine ⟨h1.idle, h1.round_pos, h1.round_le, fun s hs => h1.known s ((hk s).1 hs), h1.marked,
        h1.fresh, fun j k m hm => ?_, h1.length, h1.length_open, h1.length_posted, fun hp => ?_,
        fun hp => ?_⟩
      · exact (h1.carries j k m hm).congr (hk _) (hholds ..) fun x => hholds ..
      · exact (h1.out hp).congr (hk _) (hholds ..) fun x => hholds ..
      · exact (h1.stopped hp).imp_left fun hs => ⟨(hk _).2 hs.1, hs.2⟩
  · have h1 := h.taking i j
    have hreturned : (w.procs i).Crashed j →
        ((w.setProc me q).procs j).phase = .returned → (w.procs j).phase = .returned := by
      intro hc hr
      rcases eq_or_ne j me with rfl | hj
      · rw [h1.crashed hc] at halive
        cases halive
      · rw [hne j hj] at hr
        exact hr
    have htold : (∃ s ≤ w.taken i j, knowsAfter w knows me j s) ↔ ∃ s ≤ w.taken i j, knows j s := by
      refine exists_congr fun s => and_congr_right fun hs => knowsAfter_iff ?_
      rintro rfl
      exact hs.trans (h1.le_sent.trans ((h.sending j).length i))
    have hmissed : (w.procs i).Crashed j → ((w.setProc me q).procs j).phase = .returned →
        (w.procs i).Told j ∨ (∃ s ≤ w.taken i j + 1, s ≤ w.taken j i ∧ knowsAfter w knows me i s) ∨
          np ≤ w.taken i j := by
      intro hc hr
      rcases h1.missed hc (hreturned hc hr) with hs | ⟨s, hst, hsb, hs⟩ | hs
      · exact .inl hs
      · exact .inr (.inl ⟨s, hst, hsb, .inl hs⟩)
      · exact .inr (.inr hs)
    rcases eq_or_ne i me with rfl | hi
    · rw [hme]
      have hcomplete : i ≠ j → (w.procs i).round ≤ w.taken i j ∨ q.Told j ∨ q.Crashed j := by
        rw [hqtold, hqcrashed]
        exact h1.complete (hposted j) (hdone j)
      refine ⟨h1.le_sent, ?_, fun k _ => ?_, ?_, ?_, fun hc => h1.crashed ((hqcrashed j).1 hc),
        fun _ hj => ?_, fun hp => absurd hp (hqposted j), fun hp => absurd hp (hqposted j),
        fun hp hj => ?_, fun hc hr => ?_⟩
      · rw [hqround]
        exact h1.le_round.trans (le_succ _)
      · rw [hqround]
        exact lt_succ_of_le h1.le_round
      · rw [hqcrashed]
        exact h1.self
      · rw [hqtold, h1.told]
        exact htold.symm
      · rw [hqround]
        exact (hcomplete hj).imp_left succ_le_succ
      · rcases hqphase with hp' | ⟨-, hr⟩
        · rw [hp'] at hp
          cases hp
        · rcases hcomplete hj with hs | hs | hs
          · rw [hr] at hs
            exact .inr (.inr hs)
          · exact .inl hs
          · exact .inr (.inl hs)
      · rw [hqtold]
        exact hmissed ((hqcrashed j).1 hc) hr
    · rw [hne i hi]
      exact ⟨h1.le_sent, h1.le_round, h1.lt_round, h1.self, h1.told.trans htold.symm, h1.crashed,
        h1.settled, h1.isOpen, h1.complete, h1.returned, hmissed⟩

end EndRound

section Run

variable (hsize : cfg.valueSize = 4 ∨ np ≤ 1)
  (hop : SemilatticeOn (fun bs => bs.length = cfg.valueSize) cfg.reduce)
include hsize hop

theorem Inv.waitAll (h : Inv cfg w knows marks) (halive : w.dead me = false)
    (hphase : (w.procs me).phase = .waiting) (hreport : w.MayReport me recv send) :
    ∃ knows', Inv cfg (w.waitAll cfg me recv send) knows' (marksAfter w marks me recv send) := by
  have hspec := h.harvested_spec hphase hreport hsize hop
  have hinv := h.harvested halive hphase hreport hsize hop
  have hphase' : ((w.harvested cfg me recv send).procs me).phase = .waiting :=
    hspec.phase.trans hphase
  have hround' : ((w.harvested cfg me recv send).procs me).round = (w.procs me).round := hspec.round
  have hmissing := h.missing_add_nbrecv hphase hreport hsize hop
  rw [← hround'] at hmissing
  rw [World.waitAll_eq]
  by_cases hnr : ((w.harvested cfg me recv send).procs me).nr = 0
  · have hdone : ∀ j, ((w.harvested cfg me recv send).procs me).recvOpen j = false := by
      intro j
      have hnot := (hspec.nr.1 hnr).2 j (List.mem_finRange j)
      by_contra hopen
      exact hnot (.inl ((h.visited hphase hreport hsize hop j).recvOpen.1 (by simpa using hopen)))
    rw [if_neg (not_not.2 hnr), Proc.endRound]
    by_cases hstop : (np : ℤ) - 1 ≤ ((w.harvested cfg me recv send).procs me).nbknow +
        ((w.harvested cfg me recv send).procs me).nbcrashed ∧
        ((w.harvested cfg me recv send).procs me).out.knows = 1#32
    · rw [if_pos hstop]
      exact ⟨knows, hinv.break halive hphase' hstop.1 hstop.2⟩
    · rw [if_neg hstop]
      exact ⟨_, hinv.nextRound halive hphase' hdone hmissing rfl⟩
  · rw [if_pos hnr]
    have hsame : (w.harvested cfg me recv send).setProc me
        ((w.harvested cfg me recv send).procs me) = w.harvested cfg me recv send := by
      rw [World.setProc, update_eq_self]
    rw [hsame]
    exact ⟨knows, hinv⟩

theorem Inv.step (h : Inv cfg w knows marks) (e : Event np) :
    ∃ knows' marks', Inv cfg (w.step cfg e) knows' marks' := by
  cases e with
  | start me cranks =>
    rw [World.step]
    split_ifs with hstart
    · exact ⟨knows, marks, h.start hstart.1 hstart.2.1 hstart.2.2⟩
    · exact ⟨knows, marks, h⟩
  | post me =>
    rw [World.step]
    cases hphase : (w.procs me).phase with
    | posting i =>
      by_cases hi : w.dead me = false ∧ i < np
      · simp only [hi, and_self, dite_true]
        exact ⟨knows, marks, h.post hphase⟩
      · simp only [hi, dite_false]
        exact ⟨knows, marks, h⟩
    | idle | waiting | returned => exact ⟨knows, marks, h⟩
  | waitAll me recv send =>
    rw [World.step]
    split_ifs with hwait
    · obtain ⟨knows', hinv⟩ := h.waitAll hsize hop hwait.1 hwait.2.1 hwait.2.2
      exact ⟨knows', _, hinv⟩
    · exact ⟨knows, marks, h⟩
  | crash i => exact ⟨knows, marks, h.crash i⟩

theorem inv_run (events : List (Event np)) :
    ∃ knows marks, Inv cfg (events.foldl (World.step cfg) (World.init np)) knows marks := by
  induction events using List.reverseRecOn with
  | nil => exact ⟨_, _, inv_init cfg⟩
  | append_singleton events e ih =>
    obtain ⟨knows, marks, h⟩ := ih
    rw [List.foldl_append]
    exact h.step hsize hop e

end Run

/-- Information that a process returned without was first held by `q`: the process had not
taken what `q` sent after that, and was not told by `q` that it knows. -/
theorem Inv.missed (h : Inv cfg w knows marks) {origin : Fin np → ℕ → Prop} {p q : Fin np} {k : ℕ}
    (hslack : (w.exchange knows).Slack origin) (hp : (w.procs p).phase = .returned)
    (hk : (w.exchange knows).First origin q k) (hkn : k ≤ np)
    (hnot : ¬(w.exchange knows).Holds origin ((w.procs p).round + 1) p) :
    k ≤ (w.procs p).round ∧ w.taken p q < k ∧ ¬(w.procs p).Told q := by
  have hbefore : ∀ s ≤ (w.procs p).round + 1, ¬(w.exchange knows).Holds origin s p :=
    fun s hs hh => hnot (hh.mono hs)
  -- the information has been on its way for fewer rounds than `p` has run
  have hkp : k ≤ (w.procs p).round := by
    rcases (h.sending p).stopped hp with ⟨hknows, -⟩ | hround
    · by_contra hlt
      exact hbefore _ (Nat.le_succ _) (h.sound.holds_of_knows hslack hknows hk (by omega))
    · omega
  have hlate : w.taken p q < k := by
    by_contra hge
    exact hbefore (k + 1) (Nat.succ_le_succ hkp) (hk.1.forward (not_lt.1 hge))
  refine ⟨hkp, hlate, fun ht => ?_⟩
  obtain ⟨s, hs, hknows⟩ := (h.taking p q).told.1 ht
  exact hk.2 s (by omega) (h.sound.holds_of_knows hslack hknows hk (by omega))

end Eta

end Ulfm
