import Ulfm.Failure.Notification

/-!
# Acknowledged failures

`ompi_comm_failure_ack_internal` stores how long the group of all failed
processes is, and `ompi_comm_failure_get_acked_internal` reads that many of its
processes. This is sound because the group only grows at its end: the prefix
that a communicator has acknowledged stays the same (`Prefixed`). What the answer
leaves out are the members of the remote group of an inter-communicator, and
processes whose failure was notified when no communicator of the table had them.
-/

namespace Ulfm

open List Function Option ProcGroup Communicator

variable {P : Type} [DecidableEq P]

namespace FtProcess

/-- In the run, the communicator `c` has been acknowledged and not freed since,
and the process `m` was known to have failed at its last acknowledgement. -/
def KnownAtAck (w₀ : FtProcess P) (as : List (FtAction P)) (c : Nat) (m : P) : Prop :=
  ∃ pre post v, as = pre ++ .ack c :: post ∧ .ack c ∉ post ∧ .free c ∉ post ∧
    w₀.exec pre = some v ∧ v.active m = false

/-- In the run, the failure of `m` was notified when no communicator of the table
had `m` as a member. -/
def Stray (w₀ : FtProcess P) (as : List (FtAction P)) (m : P) : Prop :=
  ∃ pre v, pre ++ [.fail m] <+: as ∧ w₀.exec pre = some v ∧ v.active m = true ∧ ¬ v.Tabled m

/-- The answer for a communicator: each member known to have failed at the last
acknowledgement, once. -/
def AnswersAcked (w₀ : FtProcess P) (as : List (FtAction P)) (w : FtProcess P) (c : Nat)
    (comm : Communicator P) : Prop :=
  (comm.failureGetAcked w.allFailed).procs.Nodup ∧
    ∀ m, m ∈ comm.failureGetAcked w.allFailed ↔ m ∈ comm ∧ KnownAtAck w₀ as c m

section Runs

variable {w₀ : FtProcess P} {as : List (FtAction P)} {a : FtAction P} {c : Nat} {m : P}

omit [DecidableEq P] in
theorem concat_eq_append_cons {pre post : List (FtAction P)} {b : FtAction P}
    (h : as ++ [a] = pre ++ b :: post) :
    (post = [] ∧ pre = as ∧ b = a) ∨ ∃ post', post = post' ++ [a] ∧ as = pre ++ b :: post' := by
  rcases eq_nil_or_concat post with rfl | ⟨post', e, rfl⟩
  · have hsplit := append_inj' h rfl
    exact .inl ⟨rfl, hsplit.1.symm, (cons.inj hsplit.2).1.symm⟩
  · have hassoc : as ++ [a] = (pre ++ b :: post') ++ [e] := by rw [h]; simp
    have hsplit := append_inj' hassoc rfl
    have he : a = e := (cons.inj hsplit.2).1
    subst he
    exact .inr ⟨post', concat_eq_append, hsplit.1⟩

theorem knownAtAck_nil : ¬ KnownAtAck w₀ [] c m := by
  rintro ⟨pre, post, v, h, -⟩
  simp at h

theorem knownAtAck_ack {v : FtProcess P} (hv : w₀.exec as = some v) :
    KnownAtAck w₀ (as ++ [.ack c]) c m ↔ v.active m = false := by
  constructor
  · rintro ⟨pre, post, v', h, hack, -, hv', hm⟩
    rcases concat_eq_append_cons h with ⟨-, rfl, -⟩ | ⟨post', rfl, -⟩
    · rw [hv] at hv'
      cases hv'
      exact hm
    · simp at hack
  · intro hm
    exact ⟨as, [], v, rfl, by simp, by simp, hv, hm⟩

theorem not_knownAtAck_free : ¬ KnownAtAck w₀ (as ++ [.free c]) c m := by
  rintro ⟨pre, post, v, h, -, hfree, -⟩
  rcases concat_eq_append_cons h with ⟨-, -, heq⟩ | ⟨post', rfl, -⟩
  · cases heq
  · simp at hfree

theorem knownAtAck_concat (hack : a ≠ .ack c) (hfree : a ≠ .free c) :
    KnownAtAck w₀ (as ++ [a]) c m ↔ KnownAtAck w₀ as c m := by
  constructor
  · rintro ⟨pre, post, v, h, hnack, hnfree, hv, hm⟩
    rcases concat_eq_append_cons h with ⟨-, -, heq⟩ | ⟨post', rfl, rfl⟩
    · exact absurd heq.symm hack
    · exact ⟨pre, post', v, rfl, fun hin => hnack (mem_append_left _ hin),
        fun hin => hnfree (mem_append_left _ hin), hv, hm⟩
  · rintro ⟨pre, post, v, rfl, hnack, hnfree, hv, hm⟩
    refine ⟨pre, post ++ [a], v, by simp, ?_, ?_, hv, hm⟩
    · rw [mem_append, mem_singleton]
      exact fun hin => hin.elim hnack fun heq => hack heq.symm
    · rw [mem_append, mem_singleton]
      exact fun hin => hin.elim hnfree fun heq => hfree heq.symm

theorem stray_nil : ¬ Stray w₀ [] m := by
  rintro ⟨pre, v, h, -⟩
  simpa using List.IsPrefix.length_le h

theorem stray_concat {v : FtProcess P} (hv : w₀.exec as = some v) : Stray w₀ (as ++ [a]) m ↔
      Stray w₀ as m ∨ (a = .fail m ∧ v.active m = true ∧ ¬ v.Tabled m) := by
  constructor
  · rintro ⟨pre, v', hpre, hv', hm, ht⟩
    rw [prefix_concat_iff] at hpre
    rcases hpre with heq | hpre
    · have hsplit := append_inj' heq rfl
      rw [hsplit.1, hv] at hv'
      cases hv'
      exact .inr ⟨(cons.inj hsplit.2).1.symm, hm, ht⟩
    · exact .inl ⟨pre, v', hpre, hv', hm, ht⟩
  · rintro (⟨pre, v', hpre, hv', hm, ht⟩ | ⟨rfl, hm, ht⟩)
    · exact ⟨pre, v', hpre.trans (prefix_append _ _), hv', hm, ht⟩
    · exact ⟨as, v, prefix_rfl, hv, hm, ht⟩

end Runs

/-- The bookkeeping of the failures along a run. The group of all failed processes
holds the processes that have failed, less the stray ones, and its first
`any_source_offset` processes are those of them that were known to have failed
at the last acknowledgement. -/
structure Prefixed (w₀ : FtProcess P) (as : List (FtAction P)) (w : FtProcess P) : Prop where
  mem_allFailed : ∀ m, m ∈ w.allFailed ↔ w.active m = false ∧ ¬ Stray w₀ as m
  stray_inactive : ∀ m, Stray w₀ as m → w.active m = false
  known_inactive : ∀ c m, KnownAtAck w₀ as c m → w.active m = false
  absent : ∀ c m, w.comms c = none → ¬ KnownAtAck w₀ as c m
  offset_le : ∀ c comm, w.comms c = some comm → comm.anySourceOffset ≤ w.allFailed.size
  mem_take : ∀ c comm, w.comms c = some comm → ∀ m,
    m ∈ w.allFailed.procs.take comm.anySourceOffset ↔ m ∈ w.allFailed ∧ KnownAtAck w₀ as c m

theorem prefixed_init (world self : ProcGroup P) :
    Prefixed (init world self) [] (init world self) where
  mem_allFailed := by
    intro m
    simp [init, empty, ProcGroup.mem_def]
  stray_inactive := fun m h => absurd h stray_nil
  known_inactive := fun c m h => absurd h knownAtAck_nil
  absent := fun c m _ => knownAtAck_nil
  offset_le := by
    intro c comm hcomm
    obtain _ | _ | _ | c := c
    · cases hcomm
      exact Nat.zero_le _
    · cases hcomm
      exact Nat.zero_le _
    · cases hcomm
      exact Nat.zero_le _
    · cases hcomm
  mem_take := by
    intro c comm _ m
    simp [init, empty, ProcGroup.mem_def]

section Steps

variable {w₀ w w' : FtProcess P} {as : List (FtAction P)} {a : FtAction P}

section

variable (hw : Prefixed w₀ as w) (hrun : w₀.exec as = some w)
include hw hrun

/-- An operation other than a failure, an acknowledgement or a free keeps the
bookkeeping when it keeps the offsets, and the communicators it adds have
acknowledged nothing. -/
theorem Prefixed.of_same (hnotFail : ∀ m, a ≠ .fail m) (hnotAck : ∀ c, a ≠ .ack c)
    (hactive : w'.active = w.active) (hfailed : w'.allFailed = w.allFailed)
    (hfree : ∀ c, a = .free c → w'.comms c = none)
    (hnone : ∀ c, a ≠ .free c → w'.comms c = none → w.comms c = none)
    (hcomms : ∀ c comm', w'.comms c = some comm' → (w.comms c = none ∧ comm'.anySourceOffset = 0) ∨
        ∃ comm, w.comms c = some comm ∧ comm'.anySourceOffset = comm.anySourceOffset) :
    Prefixed w₀ (as ++ [a]) w' := by
  have hstray : ∀ m, Stray w₀ (as ++ [a]) m ↔ Stray w₀ as m := by
    intro m
    rw [stray_concat hrun]
    exact or_iff_left fun h => hnotFail m h.1
  have hknown : ∀ c m, KnownAtAck w₀ (as ++ [a]) c m → KnownAtAck w₀ as c m := by
    intro c m h
    by_cases hfr : a = .free c
    · subst hfr
      exact absurd h not_knownAtAck_free
    · exact (knownAtAck_concat (hnotAck c) hfr).mp h
  refine ⟨?_, ?_, ?_, ?_, ?_, ?_⟩
  · intro m
    rw [hfailed, hactive, hstray]
    exact hw.mem_allFailed m
  · intro m h
    rw [hactive]
    exact hw.stray_inactive m ((hstray m).mp h)
  · intro c m h
    rw [hactive]
    exact hw.known_inactive c m (hknown c m h)
  · intro c m hc
    by_cases hfr : a = .free c
    · subst hfr
      exact not_knownAtAck_free
    · exact fun h => hw.absent c m (hnone c hfr hc) (hknown c m h)
  · intro c comm' hcomm'
    rw [hfailed]
    rcases hcomms c comm' hcomm' with ⟨-, hzero⟩ | ⟨comm, hcomm, hoff⟩
    · rw [hzero]
      exact Nat.zero_le _
    · rw [hoff]
      exact hw.offset_le c comm hcomm
  · intro c comm' hcomm' m
    have hfr : a ≠ .free c := by
      intro heq
      rw [hfree c heq] at hcomm'
      cases hcomm'
    rw [hfailed, knownAtAck_concat (hnotAck c) hfr]
    rcases hcomms c comm' hcomm' with ⟨hc, hzero⟩ | ⟨comm, hcomm, hoff⟩
    · rw [hzero]
      simp only [take_zero, not_mem_nil, false_iff, not_and]
      exact fun _ => hw.absent c m hc
    · rw [hoff]
      exact hw.mem_take c comm hcomm m

theorem Prefixed.fail (p : P) : Prefixed w₀ (as ++ [.fail p]) (w.markFailedPeer p) := by
  have hknown : ∀ c m, KnownAtAck w₀ (as ++ [.fail p]) c m ↔ KnownAtAck w₀ as c m :=
    fun c m => knownAtAck_concat (fun h => nomatch h) (fun h => nomatch h)
  cases hp : w.active p with
  | false =>
    have hstray : ∀ m, Stray w₀ (as ++ [.fail p]) m ↔ Stray w₀ as m := by
      intro m
      rw [stray_concat hrun]
      refine or_iff_left ?_
      rintro ⟨heq, hm, -⟩
      cases heq
      rw [hp] at hm
      cases hm
    rw [markFailedPeer_of_inactive hp]
    refine ⟨?_, ?_, ?_, ?_, hw.offset_le, ?_⟩
    · intro m
      rw [hstray]
      exact hw.mem_allFailed m
    · exact fun m h => hw.stray_inactive m ((hstray m).mp h)
    · exact fun c m h => hw.known_inactive c m ((hknown c m).mp h)
    · exact fun c m hc h => hw.absent c m hc ((hknown c m).mp h)
    · intro c comm hcomm m
      rw [hknown]
      exact hw.mem_take c comm hcomm m
  | true =>
    have hnew : p ∉ w.allFailed := by
      intro hmem
      rw [((hw.mem_allFailed p).mp hmem).1] at hp
      cases hp
    have hinactive : ∀ m, w.active m = false → (w.markFailedPeer p).active m = false := by
      intro m hm
      rw [markFailedPeer_active hp]
      by_cases hmp : m = p
      · rw [hmp, update_self]
      · rw [update_of_ne hmp, hm]
    have hstray : ∀ m, Stray w₀ (as ++ [.fail p]) m ↔ Stray w₀ as m ∨ (m = p ∧ ¬ w.Tabled p) := by
      intro m
      rw [stray_concat hrun]
      refine or_congr_right ⟨?_, ?_⟩
      · rintro ⟨heq, -, ht⟩
        cases heq
        exact ⟨rfl, ht⟩
      · rintro ⟨rfl, ht⟩
        exact ⟨rfl, hp, ht⟩
    -- the group grows at its end or not at all
    obtain ⟨tail, hprocs, htail⟩ : ∃ tail,
        (w.markFailedPeer p).allFailed.procs = w.allFailed.procs ++ tail ∧
          ∀ m, m ∈ tail ↔ m = p ∧ w.Tabled p := by
      by_cases ht : w.Tabled p
      · exact ⟨[p], markFailedPeer_allFailed hp hnew ht, by simp [ht]⟩
      · exact ⟨[], by rw [markFailedPeer_allFailed_of_not_tabled hp ht, append_nil], by simp [ht]⟩
    have hmem : ∀ m, m ∈ (w.markFailedPeer p).allFailed ↔
        m ∈ w.allFailed ∨ (m = p ∧ w.Tabled p) := by
      intro m
      rw [ProcGroup.mem_def, hprocs, mem_append, htail]
      rfl
    refine ⟨?_, ?_, ?_, ?_, ?_, ?_⟩
    · intro m
      rw [hmem, hstray, hw.mem_allFailed, markFailedPeer_active hp]
      by_cases hmp : m = p
      · subst hmp
        have hns : ¬ Stray w₀ as m := fun h => by
          rw [hw.stray_inactive m h] at hp
          cases hp
        simp [hns, hp]
      · rw [update_of_ne hmp]
        simp [hmp]
    · intro m h
      rcases (hstray m).mp h with hold | ⟨rfl, -⟩
      · exact hinactive m (hw.stray_inactive m hold)
      · rw [markFailedPeer_active hp, update_self]
    · exact fun c m h => hinactive m (hw.known_inactive c m ((hknown c m).mp h))
    · intro c m hc h
      rw [markFailedPeer_comms hp, map_eq_none_iff] at hc
      exact hw.absent c m hc ((hknown c m).mp h)
    · intro c comm' hcomm'
      rw [markFailedPeer_comms hp] at hcomm'
      obtain ⟨comm, hcomm, rfl⟩ := map_eq_some_iff.mp hcomm'
      have hle := hw.offset_le c comm hcomm
      rw [notifyTimes_anySourceOffset, size, hprocs, length_append]
      exact Nat.le_add_right_of_le hle
    · intro c comm' hcomm' m
      rw [markFailedPeer_comms hp] at hcomm'
      obtain ⟨comm, hcomm, rfl⟩ := map_eq_some_iff.mp hcomm'
      rw [notifyTimes_anySourceOffset, hknown, hmem, hprocs,
        take_append_of_le_length (hw.offset_le c comm hcomm), hw.mem_take c comm hcomm m]
      constructor
      · rintro ⟨hold, hk⟩
        exact ⟨.inl hold, hk⟩
      · rintro ⟨hold | ⟨rfl, -⟩, hk⟩
        · exact ⟨hold, hk⟩
        · rw [hw.known_inactive c m hk] at hp
          cases hp

theorem Prefixed.ack {c : Nat} {comm : Communicator P} (hcomm : w.comms c = some comm) :
    Prefixed w₀ (as ++ [.ack c]) { w with
      comms := update w.comms c (some (comm.failureAck w.allFailed)) } := by
  have hstray : ∀ m, Stray w₀ (as ++ [.ack c]) m ↔ Stray w₀ as m := by
    intro m
    rw [stray_concat hrun]
    exact or_iff_left fun h => nomatch h.1
  have hother : ∀ {d}, d ≠ c → ∀ m, KnownAtAck w₀ (as ++ [.ack c]) d m ↔ KnownAtAck w₀ as d m := by
    intro d hd m
    refine knownAtAck_concat ?_ fun h => nomatch h
    intro heq
    cases heq
    exact hd rfl
  refine ⟨?_, ?_, ?_, ?_, ?_, ?_⟩
  · intro m
    rw [hstray]
    exact hw.mem_allFailed m
  · exact fun m h => hw.stray_inactive m ((hstray m).mp h)
  · intro d m h
    by_cases hd : d = c
    · subst hd
      exact (knownAtAck_ack hrun).mp h
    · exact hw.known_inactive d m ((hother hd m).mp h)
  · intro d m hnone
    have hd : d ≠ c := by
      rintro rfl
      have hsome := update_self d (some (comm.failureAck w.allFailed)) w.comms
      cases hsome.symm.trans hnone
    rw [hother hd]
    exact hw.absent d m ((update_of_ne hd ..).symm.trans hnone)
  · intro d k hk
    rcases update_eq_some hk with ⟨rfl, hv⟩ | ⟨-, hold⟩
    · cases hv
      exact le_rfl
    · exact hw.offset_le d k hold
  · intro d k hk m
    rcases update_eq_some hk with ⟨rfl, hv⟩ | ⟨hd, hold⟩
    · cases hv
      have hwhole : w.allFailed.procs.take w.allFailed.size = w.allFailed.procs := take_length
      change m ∈ w.allFailed.procs.take w.allFailed.size ↔ _
      rw [hwhole, knownAtAck_ack hrun]
      exact ⟨fun h => ⟨h, ((hw.mem_allFailed m).mp h).1⟩, fun h => h.1⟩
    · rw [hother hd]
      exact hw.mem_take d k hold m

theorem Prefixed.step (h : Stepped w a w') : Prefixed w₀ (as ++ [a]) w' := by
  cases h with
  | @commSet c _ hnew | @topoCreate c _ _ _ hnew _ _ =>
    refine hw.of_same hrun (fun _ h => nomatch h) (fun _ h => nomatch h) rfl rfl
      (fun _ h => nomatch h) ?_ ?_
    · intro d _ hnone
      by_cases hd : d = c
      · rw [hd]
        exact hnew
      · exact (update_of_ne hd ..).symm.trans hnone
    · intro d k hk
      rcases update_eq_some hk with ⟨rfl, hv⟩ | ⟨-, hold⟩
      · cases hv
        exact .inl ⟨hnew, rfl⟩
      · exact .inr ⟨k, hold, rfl⟩
  | reserve _ _ _ | release _ _ _ =>
    exact hw.of_same hrun (fun _ h => nomatch h) (fun _ h => nomatch h) rfl rfl
      (fun _ h => nomatch h) (fun _ _ hnone => hnone) fun _ k hk => .inr ⟨k, hk, rfl⟩
  | @register c i parent comm pcomm hcomm _ _ _ _ =>
    refine hw.of_same hrun (fun _ h => nomatch h) (fun _ h => nomatch h) rfl rfl
      (fun _ h => nomatch h) ?_ ?_
    · intro d _ hnone
      by_cases hd : d = c
      · subst hd
        have hsome := update_self d (some { comm with contextId := some i }) w.comms
        cases hsome.symm.trans hnone
      · exact (update_of_ne hd ..).symm.trans hnone
    · intro d k hk
      rcases update_eq_some hk with ⟨rfl, hv⟩ | ⟨-, hold⟩
      · cases hv
        exact .inr ⟨comm, hcomm, rfl⟩
      · exact .inr ⟨k, hold, rfl⟩
  | @freePending c comm _ _ | @free c _ comm _ _ _ =>
    refine hw.of_same hrun (fun _ h => nomatch h) (fun _ h => nomatch h) rfl rfl ?_ ?_ ?_
    · intro d heq
      cases heq
      exact update_self ..
    · intro d hne hnone
      have hd : d ≠ c := fun h => hne (h ▸ rfl)
      exact (update_of_ne hd ..).symm.trans hnone
    · intro d k hk
      rcases update_eq_some hk with ⟨rfl, hv⟩ | ⟨-, hold⟩
      · cases hv
      · exact .inr ⟨k, hold, rfl⟩
  | fail => exact hw.fail hrun _
  | ack hcomm => exact hw.ack hrun hcomm

end

end Steps

theorem prefixed_exec (world self : ProcGroup P) (as : List (FtAction P)) (w : FtProcess P)
    (h : (init world self).exec as = some w) : Prefixed (init world self) as w := by
  induction as using reverseRecOn generalizing w with
  | nil =>
    cases h
    exact prefixed_init world self
  | append_singleton as a ih =>
    obtain ⟨v, hv, hstep⟩ := exec_concat.mp h
    exact (ih v hv).step hv (stepped_of_step hstep)

theorem mem_failureGetAcked {w : FtProcess P} {comm : Communicator P} {m : P} :
    m ∈ comm.failureGetAcked w.allFailed ↔
      m ∈ w.allFailed.procs.take comm.anySourceOffset ∧ m ∈ comm.localGroup := by
  rw [failureGetAcked]
  split
  · rename_i hzero
    simp [hzero]
  · rename_i hpos
    split
    · rw [mem_intersection, mem_rangeIncl_upTo (Nat.pos_of_ne_zero hpos)]
    · rename_i hinter
      rw [mem_intersection, mem_rangeIncl_upTo (Nat.pos_of_ne_zero hpos),
        comm.remote_eq_local (Bool.not_eq_true _ ▸ hinter)]

/-- After every run from `MPI_Init`, the answer for a communicator is its members
known to have failed at its last acknowledgement, each once, if and only if all
these members are in the local group and had their failure notified when some
communicator of the table had them. -/
theorem answersAcked_iff (world self : ProcGroup P) (as : List (FtAction P)) (w : FtProcess P)
    (c : Nat) (comm : Communicator P) (hrun : (init world self).exec as = some w)
    (hcomm : w.comms c = some comm) :
    AnswersAcked (init world self) as w c comm ↔ ∀ m ∈ comm, KnownAtAck (init world self) as c m →
        m ∈ comm.localGroup ∧ ¬ Stray (init world self) as m := by
  have hw := prefixed_exec world self as w hrun
  have hanswer : ∀ m, m ∈ comm.failureGetAcked w.allFailed ↔
      (KnownAtAck (init world self) as c m ∧ ¬ Stray (init world self) as m) ∧
        m ∈ comm.localGroup := by
    intro m
    rw [mem_failureGetAcked, hw.mem_take c comm hcomm, hw.mem_allFailed]
    refine and_congr_left fun _ => ⟨fun h => ⟨h.2, h.1.2⟩, fun h => ⟨⟨?_, h.2⟩, h.1⟩⟩
    exact hw.known_inactive c m h.1
  constructor
  · rintro ⟨-, hmem⟩ m hm hk
    obtain ⟨⟨-, hns⟩, hlocal⟩ := (hanswer m).mp ((hmem m).mpr ⟨hm, hk⟩)
    exact ⟨hlocal, hns⟩
  · intro hcond
    refine ⟨(comm.failureGetAcked w.allFailed).nodup, ?_⟩
    intro m
    rw [hanswer]
    constructor
    · rintro ⟨⟨hk, -⟩, hlocal⟩
      exact ⟨.inl hlocal, hk⟩
    · rintro ⟨hm, hk⟩
      obtain ⟨hlocal, hns⟩ := hcond m hm hk
      exact ⟨⟨hk, hns⟩, hlocal⟩

/-- Three processes, of which 2 fails before and 1 after an acknowledgement of
`MPI_COMM_WORLD`. -/
theorem answersAcked_iff_world :
    ∃ w comm, (init (⟨[0, 1, 2], by decide⟩ : ProcGroup Nat) ⟨[0], by decide⟩).exec
        [.fail 2, .ack 0, .fail 1] = some w ∧ w.comms 0 = some comm ∧
      (AnswersAcked (init ⟨[0, 1, 2], by decide⟩ ⟨[0], by decide⟩)
          [.fail 2, .ack 0, .fail 1] w 0 comm ↔
        ∀ m ∈ comm, KnownAtAck (init ⟨[0, 1, 2], by decide⟩ ⟨[0], by decide⟩)
            [.fail 2, .ack 0, .fail 1] 0 m →
          m ∈ comm.localGroup ∧ ¬ Stray (init ⟨[0, 1, 2], by decide⟩ ⟨[0], by decide⟩)
            [.fail 2, .ack 0, .fail 1] m) :=
  ⟨_, _, rfl, rfl, answersAcked_iff _ _ _ _ _ _ rfl rfl⟩

/-- An inter-communicator between the processes 0 and 1. -/
def interPair : CommGroups Nat where
  localGroup := ⟨[0], by decide⟩
  remoteGroup := ⟨[1], by decide⟩
  isInter := true
  remote_eq_local := fun h => nomatch h
  disjoint := by decide

/-- The run of process 0 that creates the inter-communicator and acknowledges the
failure of the process on its other side. -/
def interPairRun : List (FtAction Nat) :=
  [.commSet 3 interPair, .reserve 0 3, .register 3 3, .fail 1, .ack 3]

theorem remote_failure_not_answered :
    ∃ w comm, (init (⟨[0, 1], by decide⟩ : ProcGroup Nat) ⟨[0], by decide⟩).exec interPairRun =
        some w ∧ w.comms 3 = some comm ∧
      ¬ AnswersAcked (init ⟨[0, 1], by decide⟩ ⟨[0], by decide⟩) interPairRun w 3 comm := by
  refine ⟨_, _, rfl, rfl, ?_⟩
  rintro ⟨-, hmem⟩
  have hknown : KnownAtAck (init (⟨[0, 1], by decide⟩ : ProcGroup Nat) ⟨[0], by decide⟩)
      interPairRun 3 1 :=
    ⟨[.commSet 3 interPair, .reserve 0 3, .register 3 3, .fail 1], [], _, rfl, by simp, by simp,
      rfl, rfl⟩
  have hanswer := (hmem 1).mpr ⟨.inr (by decide), hknown⟩
  exact absurd hanswer (by decide)

end FtProcess

end Ulfm
